import Mathlib.Data.List.Chain
import MipsStepper.Proofs.Termination
import MipsStepper.Session

/-!
# The history of a session

A session is reached by command lines and loaded sources, in any order. Its
trail always belongs to the overrides it has now: whatever changes them
starts the trail again. Each snapshot follows from the one before by a step
or a run, so a run from any of them ends where a run from the first one ends.
-/

set_option autoImplicit false

namespace MipsStepper
open Text (ofString)

theorem words_cons {w t : Text} {b : Char} (hw : w ≠ []) (hword : ∀ c ∈ w, Text.isBlank c = false)
    (hb : Text.isBlank b = true) : Text.words (w ++ b :: t) = w :: Text.words t := by
  rw [Text.words, List.splitOnP_append_cons _ _ hb, List.splitOnP_eq_singleton hword]
  simp [Text.words, hw]

theorem words_singleton {w : Text} (hw : w ≠ []) (hword : ∀ c ∈ w, Text.isBlank c = false) :
    Text.words w = [w] := by
  rw [Text.words, List.splitOnP_eq_singleton hword]
  simp [hw]

theorem not_blank_of_all {w : Text} (h : w.all fun c => !Text.isBlank c) :
    ∀ c ∈ w, Text.isBlank c = false := by
  simpa using h

namespace Machine

/-- A snapshot and the next one in a history. -/
def Follows (m m' : Machine) : Prop := m.status = .ready ∧ m' = m.step ∨ m' = m.run

theorem Follows.reached {m m' : Machine} (h : Follows m m') : ∃ n, m' = stepN n m := by
  rcases h with ⟨_, rfl⟩ | rfl
  · exact ⟨1, rfl⟩
  · exact ⟨_, runFor_eq_stepN _ m⟩

theorem chain_reached {first : Machine} {rest : List Machine}
    (h : (first :: rest).IsChain Follows) : ∀ m ∈ first :: rest, ∃ n, m = stepN n first := by
  induction rest generalizing first with
  | nil =>
    intro m hm
    exact ⟨0, List.mem_singleton.mp hm⟩
  | cons next rest ih =>
    obtain ⟨hnext, hrest⟩ := List.isChain_cons_cons.mp h
    intro m hm
    rcases List.mem_cons.mp hm with rfl | hm
    · exact ⟨0, rfl⟩
    · obtain ⟨j, hj⟩ := hnext.reached
      obtain ⟨n, hn⟩ := ih hrest m hm
      exact ⟨j + n, by rw [stepN_add, ← hj, hn]⟩

end Machine

namespace Trail

/-- A trail that belongs to the given overrides. -/
structure Faithful (t : Trail) (o : Overrides) : Prop where
  loaded : load t.source = .ok t.program
  first : t.history.head? = some (Machine.start t.program t.source o)
  chain : t.history.IsChain Machine.Follows

variable {t : Trail} {o : Overrides}

theorem fresh_faithful {source : Text} {p : Program} (h : load source = .ok p) :
    (fresh source p o).Faithful o where
  loaded := h
  first := rfl
  chain := List.IsChain.singleton _

theorem push_faithful (h : t.Faithful o) {m : Machine} (hm : Machine.Follows t.current m) :
    (t.push m).Faithful o where
  loaded := h.loaded
  first := by
    rw [history_push, List.head?_append, h.first]
    rfl
  chain := by
    rw [history_push]
    refine List.isChain_append.mpr ⟨h.chain, List.IsChain.singleton _, ?_⟩
    simpa [history] using hm

theorem step_faithful (n : Nat) (h : t.Faithful o) : (step n t).1.Faithful o := by
  induction n generalizing t with
  | zero => exact h
  | succ n ih =>
    unfold step
    cases hs : t.current.status with
    | ready => exact ih (push_faithful h (.inl ⟨hs, rfl⟩))
    | halted => exact h
    | error => exact h

theorem run_faithful (h : t.Faithful o) : (run t).1.Faithful o :=
  push_faithful h (.inr rfl)

theorem rewind_faithful (n : Nat) (h : t.Faithful o) : (rewind n t).Faithful o := by
  induction n generalizing t with
  | zero => exact h
  | succ n ih =>
    unfold rewind
    cases hp : t.past with
    | nil => exact h
    | cons m older =>
      -- The shorter history is what stands before the snapshot that goes.
      have hpop : t.history = { t with current := m, past := older }.history ++ [t.current] := by
        simp [history, hp]
      have hfirst := h.first
      have hchain := h.chain
      rw [hpop] at hfirst hchain
      refine ih ⟨h.loaded, ?_, hchain.left_of_append⟩
      rw [← hfirst]
      simp [history, List.head?_append]

theorem Faithful.next (h : t.Faithful o) {i : Nat} {m m' : Machine}
    (hm : t.history[i]? = some m) (hm' : t.history[i + 1]? = some m') : Machine.Follows m m' := by
  obtain ⟨hi, rfl⟩ := List.getElem?_eq_some_iff.mp hm
  obtain ⟨hi', rfl⟩ := List.getElem?_eq_some_iff.mp hm'
  exact List.isChain_iff_getElem.mp h.chain i hi'

theorem Faithful.reached (h : t.Faithful o) :
    ∀ m ∈ t.history, ∃ n, m = Machine.stepN n (Machine.start t.program t.source o) := by
  have hfirst := h.first
  have hchain := h.chain
  cases hl : t.history with
  | nil => simp [hl] at hfirst
  | cons first rest =>
    rw [hl, List.head?_cons, Option.some.injEq] at hfirst
    rw [hl] at hchain
    rw [← hfirst]
    exact Machine.chain_reached hchain

theorem Faithful.run_eq (h : t.Faithful o) :
    ∀ m ∈ t.history, m.run = (Machine.start t.program t.source o).run := by
  intro m hm
  obtain ⟨n, rfl⟩ := h.reached m hm
  exact Machine.run_stepN n _

end Trail

namespace Session

inductive Request where
  | line (text : Text)
  | source (text : Text)

/-- The session after a request. A source that does not load leaves it as it
was. -/
def answer (files : Files) (s : Session) : Request → Session
  | .line text => (s.execute files text).session
  | .source text => (s.loadSource text).toOption.getD s

def after (files : Files) (requests : List Request) : Session := requests.foldl (answer files) {}

def isLoaded (s : Session) : Bool := s.trail.isSome

def Faithful (s : Session) : Prop := ∀ t, s.trail = some t → t.Faithful s.overrides

variable {s : Session}

theorem install_faithful (s : Session) {source : Text} {p : Program} (h : load source = .ok p) :
    (s.install source p).Faithful := by
  rintro t ⟨⟩
  exact Trail.fresh_faithful h

theorem loadFile_faithful (files : Files) (name : Text) (h : s.Faithful) :
    (s.loadFile files name).session.Faithful := by
  unfold loadFile
  cases hl : MipsStepper.loadFile files name with
  | error e => exact h
  | ok loaded =>
    obtain ⟨source, p⟩ := loaded
    apply install_faithful
    unfold MipsStepper.loadFile at hl
    cases hf : files.fetch name with
    | error e => simp [hf, Except.bind] at hl
    | ok text =>
      cases hp : load text with
      | error e => simp [hf, hp, Except.bind, Except.map] at hl
      | ok q =>
        simp [hf, hp, Except.bind, Except.map] at hl
        obtain ⟨rfl, rfl⟩ := hl
        exact hp

theorem move_session (s : Session) (f : Trail → Trail × Text) :
    (s.move f).session = { s with trail := s.trail.map fun t => (f t).1 } := by
  obtain ⟨o, trail⟩ := s
  cases trail with
  | none => rfl
  | some t => rfl

theorem move_faithful {f : Trail → Trail × Text}
    (hf : ∀ t, t.Faithful s.overrides → (f t).1.Faithful s.overrides) (h : s.Faithful) :
    (s.move f).session.Faithful := by
  unfold move
  cases hs : s.trail with
  | none => exact h
  | some t =>
    rintro t' ⟨⟩
    exact hf t (h t hs)

theorem reset_faithful (h : s.Faithful) : s.reset.session.Faithful :=
  move_faithful (fun _ ht => Trail.fresh_faithful ht.loaded) h

/-- New overrides never meet an old trail. -/
theorem override_faithful (o : Overrides) (told : Text) (h : s.Faithful) :
    (s.override o told).session.Faithful := by
  cases hs : s.trail with
  | none =>
    intro t ht
    simp [override, hs] at ht
  | some t =>
    intro t' ht'
    simp only [override, reset, move, hs, Option.some.injEq] at ht' ⊢
    rw [← ht']
    exact Trail.fresh_faithful (h t hs).loaded

theorem setRegister_faithful (name value : Text) (h : s.Faithful) :
    (s.setRegister name value).session.Faithful := by
  unfold setRegister
  split
  · exact h
  · split
    · exact h
    · exact override_faithful _ _ h

theorem setMemory_faithful (address value : Text) (h : s.Faithful) :
    (s.setMemory address value).session.Faithful := by
  unfold setMemory
  split
  · exact h
  · split
    · exact h
    · exact override_faithful _ _ h

theorem perform_faithful (files : Files) (c : Command) (h : s.Faithful) :
    (s.perform files c).session.Faithful := by
  cases c with
  | load file => exact loadFile_faithful files file h
  | run => exact move_faithful (fun _ ht => Trail.run_faithful ht) h
  | step n => exact move_faithful (fun _ ht => Trail.step_faithful n ht) h
  | back n => exact move_faithful (fun _ ht => Trail.rewind_faithful n ht) h
  | reset => exact reset_faithful h
  | setRegister name value => exact setRegister_faithful name value h
  | setMemory address value => exact setMemory_faithful address value h
  | _ => exact h

theorem answer_faithful (files : Files) (r : Request) (h : s.Faithful) :
    (s.answer files r).Faithful := by
  cases r with
  | line text => exact perform_faithful files _ h
  | source text =>
    cases hl : load text with
    | error e => simpa [answer, loadSource, hl, Except.map, Except.toOption] using h
    | ok p =>
      simpa [answer, loadSource, hl, Except.map, Except.toOption] using install_faithful s hl

theorem after_faithful (files : Files) (requests : List Request) :
    (after files requests).Faithful := by
  refine List.foldlRecOn (motive := Faithful) requests _ (fun _ ht => nomatch ht) ?_
  intro s h r _
  exact answer_faithful files r h

theorem history_eq_nil_iff (s : Session) : s.history = [] ↔ s.isLoaded = false := by
  cases hs : s.trail with
  | none => simp [history, isLoaded, hs]
  | some t => simp [history, isLoaded, hs, Trail.history]

/-- The history of every session that can be reached. It starts from the
overrides of now, it grows by steps and runs only, and a run from any of its
snapshots ends where a run from the first one ends. -/
theorem after_history (files : Files) (requests : List Request) :
    let s := after files requests
    (s.isLoaded ↔ s.history ≠ []) ∧
      ∀ t, s.trail = some t →
        load t.source = .ok t.program ∧
        s.history[0]? = some (Machine.start t.program t.source s.overrides) ∧
        (∀ i m m', s.history[i]? = some m → s.history[i + 1]? = some m' →
          m.status = .ready ∧ m' = m.step ∨ m' = m.run) ∧
        ∀ m ∈ s.history, m.run = (Machine.start t.program t.source s.overrides).run := by
  intro s
  constructor
  · simp [history_eq_nil_iff]
  · intro t ht
    have h : t.Faithful s.overrides := after_faithful files requests t ht
    have hhistory : s.history = t.history := by simp [history, ht]
    rw [hhistory, ← List.head?_eq_getElem?]
    exact ⟨h.loaded, h.first, fun i m m' => h.next, h.run_eq⟩

/-- Two steps into a loop and a run to its end, of which the last is taken back. -/
theorem after_history_rewound :
    let files : Files := fun _ => some (ofString "up: addi $t0, $t0, 1\nbne $t0, $t1, up\n")
    let requests := [Request.line (ofString "set t1 3"), .line (ofString "load up.s"),
      .line (ofString "step 2"), .line (ofString "run"), .line (ofString "back")]
    let s := after files requests
    s.history.length = 3 ∧ ∃ t, s.trail = some t ∧
      ∀ m ∈ s.history, m.run = (Machine.start t.program t.source s.overrides).run := by
  intro files requests s
  have hlength : s.history.length = 3 := by decide +kernel
  obtain ⟨hloaded, hhistory⟩ := after_history files requests
  have hne : s.history ≠ [] := by
    intro h
    simp [h] at hlength
  obtain ⟨t, ht⟩ := Option.isSome_iff_exists.mp (hloaded.mpr hne)
  exact ⟨hlength, t, ht, (hhistory t ht).2.2.2⟩

end Session

end MipsStepper
