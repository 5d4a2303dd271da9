import MipsStepper.CommandLine
import MipsStepper.Proofs.SessionHistory

/-!
# Batch runs and sessions

A program file is run to its end by the command line, or it is loaded in a
session and moved along in any way: by counted steps, runs, rewinds and resets.
Such moves keep the source, its program and the overrides. So wherever they
leave the session with a machine that has stopped, it is the machine at which
the batch run ends.
-/

set_option autoImplicit false

namespace MipsStepper
open Text (ofString)

namespace Command

def moves : Command → Bool
  | .run => true
  | .step _ => true
  | .back _ => true
  | .reset => true
  | _ => false

end Command

namespace Trail

def origin (t : Trail) : Text × Program := (t.source, t.program)

theorem step_origin (n : Nat) (t : Trail) : (step n t).1.origin = t.origin := by
  induction n generalizing t with
  | zero => rfl
  | succ n ih =>
    unfold step
    cases t.current.status with
    | ready => exact ih (t.push t.current.step)
    | halted => rfl
    | error => rfl

theorem rewind_origin (n : Nat) (t : Trail) : (rewind n t).origin = t.origin := by
  induction n generalizing t with
  | zero => rfl
  | succ n ih =>
    unfold rewind
    cases t.past with
    | nil => rfl
    | cons m older => exact ih { t with current := m, past := older }

end Trail

namespace Session

/-- A session on a loaded source that has set nothing. -/
structure Opened (s : Session) (source : Text) (p : Program) : Prop where
  overrides : s.overrides = {}
  origin : s.trail.map Trail.origin = some (source, p)

variable {s : Session} {source : Text} {p : Program}

theorem move_opened {f : Trail → Trail × Text} (hf : ∀ t, (f t).1.origin = t.origin)
    (h : s.Opened source p) : (s.move f).session.Opened source p := by
  obtain ⟨t, ht, horigin⟩ := Option.map_eq_some_iff.mp h.origin
  have hmove : (s.move f).session = { s with trail := some (f t).1 } := by simp [move, ht]
  rw [hmove]
  exact ⟨h.overrides, congrArg some ((hf t).trans horigin)⟩

theorem perform_opened (files : Files) {c : Command} (hc : c.moves) (h : s.Opened source p) :
    (s.perform files c).session.Opened source p := by
  cases c with
  | run => exact move_opened (fun _ => rfl) h
  | step n => exact move_opened (Trail.step_origin n) h
  | back n => exact move_opened (Trail.rewind_origin n) h
  | reset => exact move_opened (fun _ => rfl) h
  | _ => cases hc

theorem answers_opened (files : Files) {lines : List Text}
    (hlines : ∀ line ∈ lines, (Command.ofLine line).moves) (h : s.Opened source p) :
    ((lines.map Request.line).foldl (answer files) s).Opened source p := by
  induction lines generalizing s with
  | nil => exact h
  | cons line lines ih =>
    exact ih (fun l hl => hlines l (by simp [hl])) (perform_opened files (hlines line (by simp)) h)

theorem Opened.stopped (h : s.Opened source p) (hs : s.Faithful) :
    ∃ m, s.current? = some m ∧
      (m.status ≠ .ready → m = (Machine.start p source {}).run) := by
  obtain ⟨t, ht, horigin⟩ := Option.map_eq_some_iff.mp h.origin
  cases horigin
  refine ⟨t.current, by simp [current?, ht], fun hstop => ?_⟩
  have hrun := (hs t ht).run_eq t.current (by simp [Trail.history])
  rw [Machine.run_of_not_ready hstop, h.overrides] at hrun
  exact hrun

def loadLine (name : Text) : Text := ofString "load " ++ name

theorem ofLine_loadLine {name : Text} (hname : name ≠ [])
    (hword : ∀ c ∈ name, Text.isBlank c = false) :
    Command.ofLine (loadLine name) = .load name := by
  have hline : loadLine name = ofString "load" ++ ' ' :: name := by
    simp [loadLine, Text.ofString_eq]
  have hverb : Verb.named? (Text.lower (ofString "load")) = some .load := by decide +kernel
  have hload := not_blank_of_all (w := ofString "load") (by decide +kernel)
  rw [hline, Command.ofLine, words_cons (by decide +kernel) hload rfl, words_singleton hname hword]
  simp [hverb, Command.ofVerb]

theorem answer_loadLine (files : Files) (s : Session) {name : Text} (hname : name ≠ [])
    (hword : ∀ c ∈ name, Text.isBlank c = false) :
    answer files s (.line (loadLine name)) = (s.loadFile files name).session := by
  rw [answer, execute, ofLine_loadLine hname hword]
  rfl

theorem loadFile_opened {files : Files} {name : Text}
    (h : MipsStepper.loadFile files name = .ok (source, p)) :
    (({} : Session).loadFile files name).session.Opened source p := by
  have hsession :
      (({} : Session).loadFile files name).session = ({} : Session).install source p := by
    simp only [loadFile, h]
  rw [hsession]
  exact ⟨rfl, rfl⟩

end Session

namespace CommandLine

def optionWords : List Text := ["--run", "-r", "--help", "-h"].map ofString

theorem run_batch (files : Files) {name : Text} (hname : name ≠ []) (hoption : name ∉ optionWords)
    (stdin program : Text) :
    run files [ofString "--run", name] stdin program = batch files name := by
  have hoptions : options? {} [ofString "--run", name] = some { batch := true, file := name } := by
    simp only [optionWords, List.map_cons, List.map_nil, List.mem_cons, List.not_mem_nil, or_false,
      not_or] at hoption
    simp [options?, hoption]
  simp [run, hoptions, hname]

theorem report_stopped {m : Machine} (hm : m.status ≠ .ready) :
    (report m).stdout = m.output ∧
      ((report m).exitCode = 0 ∧ (report m).stderr = [] ↔ m.status = .halted) ∧
      (m.status ≠ .halted → (report m).exitCode = 1 ∧ (report m).stderr = failureLine m) := by
  cases hs : m.status with
  | ready => exact absurd hs hm
  | halted => simp [report, hs]
  | error => simp [report, hs]

/-- A file that fails to load fails in both. A file that loads ends at one
machine: the batch run prints what that machine has printed, and tells its
fault if it has one, and a session on the file that has stopped after any moves
has stopped there. -/
theorem batch_agrees_with_session (files : Files) {name : Text} (hname : name ≠ [])
    (hword : ∀ c ∈ name, Text.isBlank c = false) (hoption : name ∉ optionWords)
    (stdin program : Text) :
    let outcome := run files [ofString "--run", name] stdin program
    (∀ e, loadFile files name = .error e →
      outcome = { exitCode := 1, stdout := [], stderr := e.message ++ ['\n'] } ∧
        (Session.after files [.line (Session.loadLine name)]).isLoaded = false) ∧
    ∀ source p, loadFile files name = .ok (source, p) →
      let last := (Machine.start p source {}).run
      outcome.stdout = last.output ∧
        (outcome.exitCode = 0 ∧ outcome.stderr = [] ↔ last.status = .halted) ∧
        (last.status ≠ .halted → outcome.exitCode = 1 ∧
          outcome.stderr =
            ofString "Error at [" ++ decimal last.pc ++ ofString "]: " ++ last.error ++ ['\n']) ∧
        ∀ lines : List Text, (∀ line ∈ lines, (Command.ofLine line).moves) →
          ∃ m, (Session.after files (.line (Session.loadLine name) :: lines.map .line)).current? =
              some m ∧ (m.status ≠ .ready → m = last) := by
  intro outcome
  have houtcome : outcome = batch files name := run_batch files hname hoption stdin program
  constructor
  · intro e he
    constructor
    · rw [houtcome, batch, he]
    · show (Session.answer files {} (.line (Session.loadLine name))).isLoaded = false
      rw [Session.answer_loadLine files {} hname hword, Session.loadFile, he]
      rfl
  · intro source p hp last
    have hreport : outcome = report last := by rw [houtcome, batch, hp]
    have htold := report_stopped (Machine.run_status (Machine.start p source {}))
    rw [hreport]
    refine ⟨htold.1, htold.2.1, htold.2.2, fun lines hlines => ?_⟩
    have hopened := Session.loadFile_opened hp
    rw [← Session.answer_loadLine files {} hname hword] at hopened
    have hfaithful :=
      Session.after_faithful files (.line (Session.loadLine name) :: lines.map .line)
    exact (Session.answers_opened files hlines hopened).stopped hfaithful

/-- A session that steps to a branch without a target, runs into it, goes back
to the start and steps again until it stops, and a batch run of the same file. -/
theorem batch_agrees_with_session_lost_branch :
    let files : Files := fun _ => some (ofString "addi $t0, $t0, 1\nbne $t0, $zero, lost\n")
    let name := ofString "lost.s"
    let lines := [ofString "step 1", ofString "R", ofString "back 7", ofString "s 0x10 more"]
    let outcome := run files [ofString "--run", name] []
    let s := Session.after files (.line (Session.loadLine name) :: lines.map .line)
    name ≠ [] ∧ (∀ c ∈ name, Text.isBlank c = false) ∧ name ∉ optionWords ∧
      (∀ line ∈ lines, (Command.ofLine line).moves) ∧
      ∃ source p m, loadFile files name = .ok (source, p) ∧ s.current? = some m ∧
        m.status = .error ∧ m = (Machine.start p source {}).run ∧ outcome.stdout = m.output ∧
        outcome.exitCode = 1 ∧
        outcome.stderr =
          ofString "Error at [" ++ decimal m.pc ++ ofString "]: " ++ m.error ++ ['\n'] := by
  intro files name lines outcome s
  have hname : name ≠ [] := by decide +kernel
  have hword : ∀ c ∈ name, Text.isBlank c = false := not_blank_of_all (by decide +kernel)
  have hoption : name ∉ optionWords := by decide +kernel
  have hlines : ∀ line ∈ lines, (Command.ofLine line).moves := by decide +kernel
  have hloads : (loadFile files name).toOption.isSome := by decide +kernel
  have hstatus : s.current?.map Machine.status = some .error := by decide +kernel
  cases hp : loadFile files name with
  | error e => simp [hp, Except.toOption] at hloads
  | ok loaded =>
    obtain ⟨source, p⟩ := loaded
    have hagrees :=
      (batch_agrees_with_session files hname hword hoption [] (ofString "mipsemu")).2 source p hp
    obtain ⟨hstdout, -, hfault, hsession⟩ := hagrees
    obtain ⟨m, hm, hlast⟩ := hsession lines hlines
    have hms : m.status = .error := by
      rw [hm] at hstatus
      exact Option.some.inj hstatus
    have hmlast := hlast (by simp [hms])
    rw [← hmlast] at hstdout hfault
    have htold := hfault (by simp [hms])
    exact ⟨hname, hword, hoption, hlines, source, p, m, rfl, hm, hms, hmlast, hstdout, htold.1,
      htold.2⟩

end CommandLine

end MipsStepper
