import Mathlib.Algebra.Ring.Int.Defs
import MipsStepper.Proofs.BatchRun
import MipsStepper.Proofs.Numerals

/-!
# Stepping and rewinding

A step adds the new snapshot to its trail and loses none, so going back is its
exact inverse, for as many snapshots as were added. A series of steps is taken
up where the one before it stopped. Going back stops at the first snapshot,
which is the one that a reset makes again.
-/

set_option autoImplicit false

namespace MipsStepper
open Text (ofString)

namespace Trail

/-- A trail with some snapshots added to it, all of which can be taken back. -/
structure Extends (d : Nat) (t' t : Trail) : Prop where
  size : t'.size = t.size + d
  rewind : t'.rewind d = t

section Series
variable {t t' t'' : Trail}

theorem rewind_of_past_eq_nil (n : Nat) (h : t.past = []) : t.rewind n = t := by
  cases n with
  | zero => rfl
  | succ n => simp [rewind, h]

theorem rewind_rewind (a b : Nat) (t : Trail) : (t.rewind a).rewind b = t.rewind (a + b) := by
  induction a generalizing t with
  | zero => rw [Nat.zero_add, rewind]
  | succ a ih =>
    rw [Nat.succ_add]
    cases hp : t.past with
    | nil => simp only [rewind_of_past_eq_nil _ hp]
    | cons m older =>
      simp only [rewind, hp]
      exact ih _

theorem Extends.trans {c d : Nat} (h' : Extends c t'' t') (h : Extends d t' t) :
    Extends (c + d) t'' t where
  size := by
    rw [h'.size, h.size]
    omega
  rewind := by rw [← rewind_rewind, h'.rewind, h.rewind]

theorem push_extends (t : Trail) (m : Machine) : Extends 1 (t.push m) t := ⟨rfl, rfl⟩

theorem step_of_not_ready (n : Nat) (h : t.current.status ≠ .ready) : (step n t).1 = t := by
  cases n with
  | zero => rfl
  | succ n =>
    cases hs : t.current.status with
    | ready => exact absurd hs h
    | halted => simp [step, hs]
    | error => simp [step, hs]

theorem step_of_ready (n : Nat) (h : t.current.status = .ready) :
    (step (n + 1) t).1 = (step n (t.push t.current.step)).1 := by
  simp [step, h]

/-- A trail whose machine has stopped is one that every series leaves as it is. -/
theorem step_step (a b : Nat) (t : Trail) : (step b (step a t).1).1 = (step (a + b) t).1 := by
  induction a generalizing t with
  | zero => rw [Nat.zero_add, step]
  | succ a ih =>
    rw [Nat.succ_add]
    by_cases h : t.current.status = .ready
    · rw [step_of_ready a h, step_of_ready (a + b) h, ih]
    · simp only [step_of_not_ready _ h]

theorem step_extends (n : Nat) (t : Trail) : ∃ d ≤ n, Extends d (step n t).1 t := by
  induction n generalizing t with
  | zero => exact ⟨0, Nat.le_refl 0, rfl, rfl⟩
  | succ n ih =>
    by_cases h : t.current.status = .ready
    · obtain ⟨d, hd, hext⟩ := ih (t.push t.current.step)
      rw [step_of_ready n h]
      exact ⟨d + 1, by omega, hext.trans (push_extends t _)⟩
    · rw [step_of_not_ready _ h]
      exact ⟨0, Nat.zero_le _, rfl, rfl⟩

theorem run_extends (t : Trail) : Extends 1 (run t).1 t := push_extends t _

theorem rewind_history (n : Nat) (t : Trail) :
    ∃ removed, t.history = (t.rewind n).history ++ removed ∧
      removed.length = min n (t.size - 1) := by
  induction n generalizing t with
  | zero => exact ⟨[], by simp [rewind], by simp⟩
  | succ n ih =>
    cases hp : t.past with
    | nil => exact ⟨[], by simp [rewind_of_past_eq_nil _ hp], by simp [size, hp]⟩
    | cons m older =>
      obtain ⟨removed, hremoved, hlength⟩ := ih { t with current := m, past := older }
      have hpop : t.history = { t with current := m, past := older }.history ++ [t.current] := by
        simp [history, hp]
      refine ⟨removed ++ [t.current], ?_, ?_⟩
      · rw [hpop, hremoved, rewind, hp, List.append_assoc]
      · simp only [List.length_append, hlength, size, hp, List.length_cons, List.length_nil]
        omega

theorem history_ne_nil (t : Trail) : t.history ≠ [] := by simp [history]

theorem rewind_head? (n : Nat) (t : Trail) : (t.rewind n).history.head? = t.history.head? := by
  obtain ⟨removed, hremoved, _⟩ := rewind_history n t
  rw [hremoved, List.head?_append_of_ne_nil _ (history_ne_nil _)]

end Series

/-- All the way back is the snapshot that a restart makes. -/
theorem Faithful.restart_eq {t : Trail} {o : Overrides} (h : t.Faithful o) :
    t.restart o = t.rewind (t.size - 1) := by
  obtain ⟨hsource, hprogram⟩ := Prod.mk.inj (rewind_origin (t.size - 1) t)
  have hfirst := h.first
  obtain ⟨removed, hremoved, hlength⟩ := rewind_history (t.size - 1) t
  rw [← rewind_head? (t.size - 1)] at hfirst
  -- One snapshot is left, hence none before the current one.
  have hpast : (t.rewind (t.size - 1)).past = [] := by
    have hsizes := congrArg List.length hremoved
    rw [List.length_append, length_history, length_history, hlength] at hsizes
    apply List.eq_nil_of_length_eq_zero
    simp only [size] at hsizes ⊢
    omega
  generalize t.rewind (t.size - 1) = first at *
  obtain ⟨source, program, current, past⟩ := first
  simp only at hsource hprogram hpast
  subst hsource hprogram hpast
  simp only [history, List.reverse_nil, List.nil_append, List.head?_cons, Option.some.injEq]
    at hfirst
  rw [restart, fresh, hfirst]

end Trail

namespace Session

def countLine (verb : String) (n : Int) : Text := ofString verb ++ ' ' :: decimal n

theorem ofLine_countLine {verb : String} {v : Verb} (hne : ofString verb ≠ [])
    (hword : (ofString verb).all fun c => !Text.isBlank c)
    (hverb : Verb.named? (Text.lower (ofString verb)) = some v) (n : Int) :
    Command.ofLine (countLine verb n) = Command.ofVerb [decimal n] v := by
  have hdecimal := Literal.decimal_numeral n
  rw [countLine, Command.ofLine, words_cons hne (not_blank_of_all hword) rfl,
    words_singleton hdecimal.ne_nil (Literal.decimal_not_blank n)]
  simp [hverb]

theorem repetitions_decimal {n : Int} (hlow : -2 ^ 31 ≤ n) (hhigh : n < 2 ^ 31) :
    Command.repetitions [decimal n] = n.toNat := by
  have hread := Literal.read?_numeral (.inl (Literal.decimal_numeral n))
  rw [Command.repetitions, hread, Option.getD_some, Word.wrap, Int32.toInt_ofInt_of_le hlow hhigh]

section Moves
variable {s : Session}

theorem move_move {f g h : Trail → Trail × Text}
    (hfg : ∀ t, s.trail = some t → (g (f t).1).1 = (h t).1) :
    ((s.move f).session.move g).session = (s.move h).session := by
  simp only [move_session, Option.map_map, Session.mk.injEq, true_and]
  exact Option.map_congr hfg

theorem move_back {f : Trail → Trail × Text} {d : Nat}
    (hf : ∀ t, ∃ d, Trail.Extends d (f t).1 t)
    (hd : (s.move f).session.history.length = s.history.length + d) :
    ((s.move f).session.move (Trail.back d)).session = s := by
  obtain ⟨o, trail⟩ := s
  cases trail with
  | none => rfl
  | some t =>
    obtain ⟨d', hext⟩ := hf t
    have hsize := hext.size
    simp only [move_session, history, Option.map_some, Option.elim, Trail.length_history] at hd
    obtain rfl : d = d' := by omega
    have hback : (Trail.back d (f t).1).1 = t := hext.rewind
    simp only [move_session, Option.map_some, hback]

theorem back_history (n : Nat) (s : Session) :
    let s' := (s.move (Trail.back n)).session
    (∃ removed, s.history = s'.history ++ removed ∧
      removed.length = min n (s.history.length - 1)) ∧ s'.history.head? = s.history.head? := by
  intro s'
  cases hs : s.trail with
  | none =>
    have hnil : s.history = [] := by simp [history, hs]
    have hnil' : s'.history = [] := by simp [s', move_session, history, hs]
    exact ⟨⟨[], by rw [hnil, hnil', List.append_nil], by simp [hnil]⟩, by rw [hnil, hnil']⟩
  | some t =>
    have hhistory : s.history = t.history := by simp [history, hs]
    have hhistory' : s'.history = (t.rewind n).history := by
      simp [s', move_session, history, hs, Trail.back]
    rw [hhistory, hhistory', Trail.length_history]
    exact ⟨Trail.rewind_history n t, Trail.rewind_head? n t⟩

theorem reset_session (h : s.Faithful) :
    s.reset.session = (s.move (Trail.back (s.history.length - 1))).session := by
  simp only [reset, move_session, Session.mk.injEq, true_and]
  apply Option.map_congr
  intro t ht
  have hlength : s.history.length = t.size := by simp [history, ht, Trail.length_history]
  rw [hlength]
  exact (h t ht).restart_eq

end Moves

/-- How the commands that move along the trail of a session compose, with the
counts that their lines are read as. Two series of steps are one series, and
so are two series of steps back. Steps back undo as many snapshots as a
command added and leave the session as it was before. They remove as many as
there are, never the first one, and a reset is to go back as far as that. -/
theorem after_moves (files : Files) (requests : List Request) :
    let s := after files requests
    let ask : Session → Command → Session := fun s c => (s.perform files c).session
    (∀ n : Int, -2 ^ 31 ≤ n → n < 2 ^ 31 →
      Command.ofLine (countLine "step" n) = .step n.toNat ∧
      Command.ofLine (countLine "back" n) = .back n.toNat) ∧
    (∀ a b, ask (ask s (.step a)) (.step b) = ask s (.step (a + b))) ∧
    (∀ a b, ask (ask s (.back a)) (.back b) = ask s (.back (a + b))) ∧
    (∀ n d, (ask s (.step n)).history.length = s.history.length + d →
      ask (ask s (.step n)) (.back d) = s) ∧
    (∀ d, (ask s .run).history.length = s.history.length + d → ask (ask s .run) (.back d) = s) ∧
    (∀ n, (∃ removed, s.history = (ask s (.back n)).history ++ removed ∧
        removed.length = min n (s.history.length - 1)) ∧
      (ask s (.back n)).history.head? = s.history.head?) ∧
    ask s .reset = ask s (.back (s.history.length - 1)) := by
  intro s ask
  refine ⟨fun n hlow hhigh => ?_, fun a b => ?_, fun a b => ?_, fun n d hd => ?_, fun d hd => ?_,
    fun n => back_history n s, reset_session (after_faithful files requests)⟩
  · have hcount := repetitions_decimal hlow hhigh
    have hstep : Command.ofLine (countLine "step" n) = Command.ofVerb [decimal n] .step :=
      ofLine_countLine (by decide +kernel) (by decide +kernel) (by decide +kernel) n
    have hback : Command.ofLine (countLine "back" n) = Command.ofVerb [decimal n] .back :=
      ofLine_countLine (by decide +kernel) (by decide +kernel) (by decide +kernel) n
    rw [hstep, hback, Command.ofVerb, Command.ofVerb, hcount]
    exact ⟨rfl, rfl⟩
  · exact move_move fun t _ => Trail.step_step a b t
  · exact move_move fun t _ => Trail.rewind_rewind a b t
  · exact move_back (fun t => (Trail.step_extends n t).imp fun _ h => h.2) hd
  · exact move_back (fun t => ⟨1, Trail.run_extends t⟩) hd

theorem after_moves_past_the_end :
    let files : Files := fun _ => none
    let requests := [Request.source (ofString "li $v0, 10\nsyscall\n")]
    let s := after files requests
    let ask : Session → Command → Session := fun s c => (s.perform files c).session
    Command.ofLine (countLine "step" 5) = .step 5 ∧
      (ask s (.step 5)).history.length = s.history.length + 2 ∧
      ask (ask s (.step 5)) (.back 2) = s ∧
      (ask s .run).history.length = s.history.length + 1 ∧ ask (ask s .run) (.back 1) = s := by
  intro files requests s ask
  obtain ⟨hline, -, -, hstep, hrun, -, -⟩ := after_moves files requests
  have hsteps : (ask s (.step 5)).history.length = s.history.length + 2 := by decide +kernel
  have hruns : (ask s .run).history.length = s.history.length + 1 := by decide +kernel
  exact ⟨(hline 5 (by decide) (by decide)).1, hsteps, hstep 5 2 hsteps, hruns, hrun 1 hruns⟩

end Session

end MipsStepper
