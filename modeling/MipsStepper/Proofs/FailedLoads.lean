import MipsStepper.Inspector
import MipsStepper.Proofs.Segments
import MipsStepper.Proofs.SessionHistory

/-!
# Failed loads

A load that fails has already overwritten the tables of the loader, and yet
nothing that is asked later can tell. Inspectors are alike when they have the
same session, whatever their loaders have kept. Alike inspectors answer a
request with the same words and are alike again, and a failed load turns an
inspector into one that is alike.
-/

set_option autoImplicit false

namespace MipsStepper
open Text (ofString)
open Session (Request)

/-- A source in which the labels of the code have nothing to their right. -/
def NoInstruction (source : Text) : Prop :=
  ∀ line ∈ Draft.codeLines (source.splitOn '\n'), Draft.body line = []

theorem load_fails_iff (source : Text) :
    (∃ e, load source = .error e) ↔ NoInstruction source := by
  simp [load_eq_error_iff, NoInstruction]

theorem loadFile_fails_iff (files : Files) (name : Text) :
    (∃ e, loadFile files name = .error e) ↔ files.contents? name = none ∨
      ∃ source, files.contents? name = some source ∧ NoInstruction source := by
  unfold loadFile Files.fetch
  cases files.contents? name with
  | none => simp [Except.bind]
  | some source =>
    simp only [reduceCtorEq, Option.some.injEq, false_or, exists_eq_left', ← load_fails_iff,
      Except.bind, Except.map]
    cases load source <;> simp

namespace Loader

inductive Job where
  | source (text : Text)
  | file (name : Text)

def serve (l : Loader) (files : Files) : Job → Result × Loader
  | .source text => l.load text
  | .file name => l.loadFile files name

/-- The results of one load after the other. The files may change between
them. -/
def results : Loader → List (Files × Job) → List Result
  | _, [] => []
  | l, (files, job) :: jobs =>
    let (result, l') := l.serve files job
    result :: l'.results jobs

theorem serve_result (l l' : Loader) (files : Files) (job : Job) :
    (l.serve files job).1 = (l'.serve files job).1 := by
  cases job with
  | source text => exact (l.load_result text).trans (l'.load_result text).symm
  | file name =>
    simp only [serve, loadFile]
    cases files.fetch name with
    | error e => rfl
    | ok source => exact (l.load_result source).trans (l'.load_result source).symm

theorem results_eq_map (l fresh : Loader) (jobs : List (Files × Job)) :
    l.results jobs = jobs.map fun job => (fresh.serve job.1 job.2).1 := by
  induction jobs generalizing l with
  | nil => rfl
  | cons job jobs ih =>
    obtain ⟨files, job⟩ := job
    simp only [results, List.map_cons, ih, serve_result l fresh files job]

theorem program_load_eq_error_iff (l : Loader) (source : Text) (e : LoadError) :
    (l.load source).1.program = .error e ↔ MipsStepper.load source = .error e := by
  rw [load_result]

theorem program_loadFile_eq_error_iff (l : Loader) (files : Files) (name : Text) (e : LoadError) :
    (l.loadFile files name).1.program = .error e ↔ MipsStepper.loadFile files name = .error e := by
  rw [← l.loaded_loadFile files name]
  unfold Result.loaded
  cases (l.loadFile files name).1.program <;> simp [Except.map]

end Loader

namespace Inspector

def answer (i : Inspector) (files : Files) : Request → Response
  | .line text => i.execute files text
  | .source text => i.loadSource text

structure View where
  loaded : Bool
  historySize : Nat
  current? : Option Machine

def view (i : Inspector) : View where
  loaded := i.session.isLoaded
  historySize := i.session.history.length
  current? := i.session.current?

structure Observation where
  output : Text
  returned : Bool
  after : View

/-- What is seen of the requests, one after the other. The files may change
between them, and an inspector that was asked to quit still answers. -/
def transcript : Inspector → List (Files × Request) → List Observation
  | _, [] => []
  | i, (files, r) :: later =>
    let a := i.answer files r
    { output := a.output, returned := a.returned, after := a.inspector.view } ::
      a.inspector.transcript later

def Fails (i : Inspector) (files : Files) : Request → Prop
  | .line text => ∃ name e, Command.ofLine text = .load name ∧
      (i.loader.loadFile files name).1.program = .error e
  | .source text => ∃ e, (i.loader.load text).1.program = .error e

variable {i j : Inspector} {files : Files}

theorem session_answer (i : Inspector) (files : Files) (r : Request) :
    (i.answer files r).inspector.session = i.session.answer files r := by
  cases r with
  | line text => exact congrArg Reply.session (i.reply_execute files text)
  | source text =>
    have hreply := congrArg Reply.session (i.reply_loadSource text)
    refine hreply.trans ?_
    simp only [Session.answer]
    cases i.session.loadSource text <;> rfl

/-- Inspectors that differ at most in what their loaders have kept. -/
def Alike (i j : Inspector) : Prop := i.session = j.session

theorem Alike.view (h : Alike i j) : i.view = j.view := by
  unfold Inspector.view
  rw [h]

theorem Alike.answer (h : Alike i j) (files : Files) (r : Request) :
    (i.answer files r).reply = (j.answer files r).reply := by
  cases r with
  | line text =>
    simp only [Inspector.answer, reply_execute]
    rw [h]
  | source text =>
    simp only [Inspector.answer, reply_loadSource]
    rw [h]

theorem Alike.transcript (h : Alike i j) (later : List (Files × Request)) :
    i.transcript later = j.transcript later := by
  induction later generalizing i j with
  | nil => rfl
  | cons request later ih =>
    obtain ⟨files, r⟩ := request
    have hreply := h.answer files r
    have houtput : (i.answer files r).output = (j.answer files r).output :=
      congrArg Reply.output hreply
    have hreturned : (i.answer files r).returned = (j.answer files r).returned :=
      congrArg Reply.running hreply
    have halike : Alike (i.answer files r).inspector (j.answer files r).inspector :=
      congrArg Reply.session hreply
    simp only [Inspector.transcript, houtput, hreturned, halike.view, ih halike]

theorem Fails.alike {failed : Request} (h : i.Fails files failed) :
    Alike (i.answer files failed).inspector i := by
  refine (i.session_answer files failed).trans ?_
  cases failed with
  | line text =>
    obtain ⟨name, e, hcommand, hfile⟩ := h
    rw [Loader.program_loadFile_eq_error_iff] at hfile
    simp [Session.answer, Session.execute, hcommand, Session.perform, Session.loadFile, hfile]
  | source text =>
    obtain ⟨e, hsource⟩ := h
    rw [Loader.program_load_eq_error_iff] at hsource
    simp [Session.answer, Session.loadSource, hsource, Except.map, Except.toOption]

theorem fails_source_iff (text : Text) : i.Fails files (.source text) ↔ NoInstruction text := by
  simp only [Fails, Loader.program_load_eq_error_iff, load_fails_iff]

theorem fails_line_iff (text : Text) :
    i.Fails files (.line text) ↔ ∃ name, Command.ofLine text = .load name ∧
      (files.contents? name = none ∨
        ∃ source, files.contents? name = some source ∧ NoInstruction source) := by
  simp only [Fails, Loader.program_loadFile_eq_error_iff, exists_and_left, loadFile_fails_iff]

/-- A failed load cannot be noticed. Whatever is asked after it, of files that
may change, shows what it would have shown without it. Nor does any load
depend on the loads before it that its loader has served. -/
theorem failed_load_unnoticed :
    (∀ (i : Inspector) (files : Files) (failed : Request), i.Fails files failed →
      ∀ later : List (Files × Request),
        (i.answer files failed).inspector.view = i.view ∧
          (i.answer files failed).inspector.transcript later = i.transcript later) ∧
      ∀ (l fresh : Loader) (jobs : List (Files × Loader.Job)),
        l.results jobs = jobs.map fun job => (fresh.serve job.1 job.2).1 :=
  ⟨fun _ _ _ h later => ⟨h.alike.view, h.alike.transcript later⟩, Loader.results_eq_map⟩

/-- A source without code moves the cursor of a loader that has served a
session, and a file that is missing is asked for next. Later it is asked for
again, and then a program is loaded and run. -/
theorem failed_load_unnoticed_cursor :
    let noFiles : Files := fun _ => none
    let files : Files := fun _ => some (ofString "up: addi $t0, $t0, 1\nbne $t0, $t1, up\n")
    let i := ((({} : Inspector).answer noFiles (.source (ofString "li $t0, 7\n"))).inspector.answer
      noFiles (.line (ofString "step"))).inspector
    let failed := Request.source (ofString ".data\nwords: .word 1, 2, 3\n")
    let missing := Request.line (ofString " LOAD up.s")
    let after := (i.answer noFiles failed).inspector
    let later := [(noFiles, Request.line (ofString "load up.s")),
      (noFiles, .line (ofString "set t1 2")), (files, .line (ofString "load up.s")),
      (noFiles, .line (ofString "run"))]
    i.Fails noFiles failed ∧ after.loader.tables.cursor ≠ i.loader.tables.cursor ∧
      after.transcript later = i.transcript later ∧ after.Fails noFiles missing ∧
      (after.answer noFiles missing).inspector.transcript later = after.transcript later := by
  intro noFiles files i failed missing after later
  have hfails : i.Fails noFiles failed := by
    refine (fails_source_iff _).mpr ?_
    unfold NoInstruction
    decide +kernel
  have hcursor : after.loader.tables.cursor ≠ i.loader.tables.cursor := by decide +kernel
  have hmissing : after.Fails noFiles missing := by
    refine (fails_line_iff _).mpr ⟨ofString "up.s", by decide +kernel, .inl ?_⟩
    decide +kernel
  exact ⟨hfails, hcursor, (failed_load_unnoticed.1 i noFiles failed hfails later).2, hmissing,
    (failed_load_unnoticed.1 after noFiles missing hmissing later).2⟩

end Inspector

end MipsStepper
