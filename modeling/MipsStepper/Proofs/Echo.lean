import MipsStepper.Proofs.Footprint
import MipsStepper.Proofs.Rewinding

/-!
# The echo of a session

A command that steps or runs tells of every snapshot that it adds. It shows
what the program has printed since the snapshot before, closed by a newline if
that leaves a line open. Output only grows at its end, so what is shown of one
snapshot follows on what was shown of the one before, and the parts make up
the whole output: none of it is lost, repeated or moved.
-/

set_option autoImplicit false

namespace MipsStepper
open Text (ofString)

namespace Text

/-- The newline for a text that leaves a line open. -/
def closing (t : Text) : Text := if t ≠ [] ∧ t.getLast? ≠ some '\n' then ['\n'] else []

theorem endLine_eq (t : Text) : endLine t = t ++ closing t := by
  unfold endLine closing
  cases h : t.getLast? with
  | none => simp [List.getLast?_eq_none_iff.mp h]
  | some c =>
    have hne : t ≠ [] := List.ne_nil_of_mem (List.mem_of_getLast? h)
    by_cases hc : c = '\n' <;> simp [hne, hc]

end Text

namespace Machine

/-- Snapshots that are added one after another up to a last one, each with
what it has more in its output than the one before, and the text that tells of
them. The lead of a snapshot stands before what it adds. -/
inductive Told (lead : Machine → Text) : Machine → List (Machine × Text) → Machine → Text → Prop
  | nil {m : Machine} : Told lead m [] m []
  | cons {m m' last : Machine} {shown told : Text} {added : List (Machine × Text)}
      (houtput : m'.output = m.output ++ shown) (hrest : Told lead m' added last told) :
      Told lead m ((m', shown) :: added) last
        (lead m ++ shown ++ Text.closing shown ++ statusChange m m' ++ told)

section Transitions
variable {m m' last : Machine}

theorem run_output (m : Machine) : m.output <+: m.run.output := by
  rw [run, runFor_eq_stepN]
  exact (stepN_grows _ m).output

theorem transition_eq {shown : Text} (h : m'.output = m.output ++ shown) :
    transition m m' = shown ++ Text.closing shown ++ statusChange m m' := by
  rw [transition, echo, h, List.drop_left, Text.endLine_eq]

theorem Told.output {lead : Machine → Text} {added : List (Machine × Text)} {told : Text}
    (h : Told lead m added last told) :
    last.output = m.output ++ (added.map Prod.snd).flatten := by
  induction h with
  | nil => simp
  | cons houtput _ ih => simp [ih, houtput]

end Transitions

end Machine

namespace Command

def advances : Command → Bool
  | .run => true
  | .step _ => true
  | _ => false

/-- What stands before the output that a snapshot adds: a step shows the
instruction that it executes. -/
def lead : Command → Machine → Text
  | .step _ => Machine.traceLine
  | _ => fun _ => []

/-- What is told in the end, if fewer snapshots were added than asked for. -/
def notice (added : Nat) (last : Machine) : Command → Text
  | .step n =>
    if added < n then ofString "Machine is " ++ last.status.name ++ ['\n'] else []
  | _ => []

end Command

namespace Trail

theorem step_told (n : Nat) (t : Trail) : ∃ added told,
    (step n t).1.history = t.history ++ added.map Prod.fst ∧
    Machine.Told Machine.traceLine t.current added (step n t).1.current told ∧
    (step n t).2 = told ++ (Command.step n).notice added.length (step n t).1.current := by
  induction n generalizing t with
  | zero => exact ⟨[], [], by simp [step], .nil, rfl⟩
  | succ n ih =>
    by_cases h : t.current.status = .ready
    · obtain ⟨shown, hshown⟩ := Machine.step_output t.current
      obtain ⟨added, told, hhistory, htold, houtput⟩ := ih (t.push t.current.step)
      have hstep : (step (n + 1) t).2 = t.current.traceLine ++
          Machine.transition t.current t.current.step ++ (step n (t.push t.current.step)).2 := by
        simp [step, h]
      rw [step_of_ready n h, hstep, Machine.transition_eq hshown.symm, houtput]
      refine ⟨(t.current.step, shown) :: added, _, ?_, .cons hshown.symm htold, ?_⟩
      · rw [hhistory, history_push]
        simp
      · simp [Command.notice]
    · refine ⟨[], [], by simp [step_of_not_ready _ h], ?_, ?_⟩
      · rw [step_of_not_ready _ h]
        exact .nil
      · rw [step_of_not_ready _ h]
        cases hs : t.current.status with
        | ready => exact absurd hs h
        | halted => simp [step, hs, Command.notice]
        | error => simp [step, hs, Command.notice]

theorem run_told (t : Trail) : ∃ shown,
    (run t).1.history = t.history ++ [t.current.run] ∧
    Machine.Told (fun _ => []) t.current [(t.current.run, shown)] t.current.run (run t).2 := by
  obtain ⟨shown, hshown⟩ := Machine.run_output t.current
  have htold : Machine.Told (fun _ => []) t.current [(t.current.run, shown)] t.current.run _ :=
    .cons hshown.symm .nil
  refine ⟨shown, history_push t _, ?_⟩
  rw [run, Machine.transition_eq hshown.symm]
  simpa using htold

end Trail

namespace Session

/-- A reply to a command that adds snapshots to a trail: it is the text that
tells of them, and the notice of a command that has stopped early. -/
structure Echoes (t : Trail) (c : Command) (r : Reply) (added : List (Machine × Text)) : Prop where
  history : r.session.history = t.history ++ added.map Prod.fst
  told : ∃ last told, r.session.current? = some last ∧
    Machine.Told c.lead t.current added last told ∧ r.output = told ++ c.notice added.length last

/-- What is echoed for command lines, one after the other: for each of them
the parts of the output that its snapshots add. -/
inductive Echoing (files : Files) : Session → List Text → List (List Text) → Prop
  | nil {s : Session} : Echoing files s [] []
  | cons {s : Session} {t : Trail} {line : Text} {lines : List Text}
      {added : List (Machine × Text)} {echoes : List (List Text)} (ht : s.trail = some t)
      (h : Echoes t (Command.ofLine line) (s.execute files line) added)
      (hrest : Echoing files (s.execute files line).session lines echoes) :
      Echoing files s (line :: lines) (added.map Prod.snd :: echoes)

inductive Loads (files : Files) : Request → Prop
  | file {line name source : Text} {p : Program} (hline : Command.ofLine line = .load name)
      (h : MipsStepper.loadFile files name = .ok (source, p)) : Loads files (.line line)
  | source {text : Text} {p : Program} (h : load text = .ok p) : Loads files (.source text)

variable {files : Files} {s : Session} {t : Trail}

theorem perform_echoes (files : Files) (ht : s.trail = some t) {c : Command} (hc : c.advances) :
    ∃ added, Echoes t c (s.perform files c) added := by
  have hmove : ∀ f : Trail → Trail × Text,
      s.move f = { session := { s with trail := some (f t).1 }, output := (f t).2 } := fun f => by
    simp only [move, ht]
  cases c with
  | step n =>
    obtain ⟨added, told, hhistory, htold, houtput⟩ := t.step_told n
    refine ⟨added, ?_, (Trail.step n t).1.current, told, ?_, htold, ?_⟩
    all_goals rw [perform, hmove]
    · exact hhistory
    · rfl
    · exact houtput
  | run =>
    obtain ⟨shown, hhistory, htold⟩ := t.run_told
    refine ⟨[(t.current.run, shown)], ?_, t.current.run, _, ?_, htold, ?_⟩
    all_goals rw [perform, hmove]
    · exact hhistory
    · rfl
    · exact (List.append_nil _).symm
  | _ => cases hc

theorem Loads.output (s : Session) {r : Request} (h : Loads files r) :
    ∃ t, (s.answer files r).trail = some t ∧ t.current.output = [] := by
  cases h with
  | file hline h =>
    simp only [answer, execute, hline, perform, loadFile, h]
    exact ⟨_, rfl, rfl⟩
  | source h =>
    simp only [answer, loadSource, h, Except.map, Except.toOption, Option.getD_some]
    exact ⟨_, rfl, rfl⟩

theorem echoing_output (files : Files) (ht : s.trail = some t) {lines : List Text}
    (hlines : ∀ line ∈ lines, (Command.ofLine line).advances) :
    ∃ echoes m, Echoing files s lines echoes ∧
      ((lines.map Request.line).foldl (answer files) s).current? = some m ∧
      m.output = t.current.output ++ echoes.flatten.flatten := by
  induction lines generalizing s t with
  | nil => exact ⟨[], t.current, .nil, by simp [current?, ht], by simp⟩
  | cons line lines ih =>
    obtain ⟨added, hechoes⟩ := perform_echoes files ht (hlines line (by simp))
    obtain ⟨last, told, hlast, htold, -⟩ := hechoes.told
    obtain ⟨t', ht', rfl⟩ := Option.map_eq_some_iff.mp hlast
    obtain ⟨echoes, m, hrest, hm, houtput⟩ := ih ht' fun l hl => hlines l (by simp [hl])
    refine ⟨added.map Prod.snd :: echoes, m, .cons ht hechoes hrest, hm, ?_⟩
    rw [houtput, htold.output]
    simp

/-- The echo is complete. In every session that can be reached, a command that
steps or runs shows of each snapshot that it adds just what this one has more
in its output than the one before. After a program has been loaded, over any
lines that step and run, the parts that are shown are the output. -/
theorem echo_complete (files : Files) (requests : List Request) :
    let s := after files requests
    (∀ t c, s.trail = some t → c.advances → ∃ added, Echoes t c (s.perform files c) added) ∧
    ∀ (r : Request) (lines : List Text), Loads files r →
      (∀ line ∈ lines, (Command.ofLine line).advances) →
      ∃ echoes m, Echoing files (s.answer files r) lines echoes ∧
        (after files (requests ++ r :: lines.map .line)).current? = some m ∧
        m.output = echoes.flatten.flatten := by
  intro s
  refine ⟨fun t c ht hc => perform_echoes files ht hc, fun r lines hr hlines => ?_⟩
  obtain ⟨t, ht, hnothing⟩ := hr.output s
  obtain ⟨echoes, m, hechoing, hm, houtput⟩ := echoing_output files ht hlines
  refine ⟨echoes, m, hechoing, ?_, ?_⟩
  · rw [after, List.foldl_append]
    exact hm
  · rw [houtput, hnothing, List.nil_append]

theorem echo_complete_chunks :
    let files : Files := fun _ => none
    let data := ofString ".data\nx: .asciiz \"\u00e9\\nz\"\ne: .asciiz \"\"\n.text\nli $v0, 4\n"
    let code := ofString
      "la $a0, x\nsyscall\nla $a0, e\nsyscall\nli $v0, 11\nli $a0, 233\nsyscall"
    let r := Request.source (data ++ code)
    let lines := [ofString "step 2", ofString "S 2 more", ofString "run", ofString "step 5"]
    Loads files r ∧ (∀ line ∈ lines, (Command.ofLine line).advances) ∧
      (∃ t added, (after files [r]).trail = some t ∧
        Echoes t .run ((after files [r]).perform files .run) added) ∧
      ∃ echoes m, Echoing files (({} : Session).answer files r) lines echoes ∧
        (after files (r :: lines.map .line)).current? = some m ∧
        echoes.flatten.flatten = ofString "\u00e9\nz\u00e9" := by
  intro files data code r lines
  have hr : Loads files r := .source (load_of_lines rfl (by decide +kernel))
  have hlines : ∀ line ∈ lines, (Command.ofLine line).advances := by decide +kernel
  have houtput : (after files (r :: lines.map .line)).current?.map Machine.output =
      some (ofString "\u00e9\nz\u00e9") := by decide +kernel
  obtain ⟨t, ht, -⟩ := hr.output {}
  obtain ⟨added, hadded⟩ := (echo_complete files [r]).1 t .run ht rfl
  obtain ⟨echoes, m, hechoing, hm, hechoes⟩ := (echo_complete files []).2 r lines hr hlines
  have hlast : (after files (r :: lines.map .line)).current? = some m := hm
  rw [hlast, Option.map_some, Option.some.injEq, hechoes] at houtput
  exact ⟨hr, hlines, ⟨t, added, ht, hadded⟩, echoes, m, hechoing, hlast, houtput⟩

end Session

end MipsStepper
