import MipsStepper.Assembly.Loader
import MipsStepper.Session

/-!
# Inspectors

An inspector is a session with the loader that all its loads go through. A
load that succeeds gives the session a new trail. One that fails is told and
leaves its mark on the loader only. The replies are those of the session
alone, whatever the loader has kept.
-/

set_option autoImplicit false

namespace MipsStepper
open Text (ofString)

structure Inspector where
  loader : Loader := {}
  session : Session := {}

/-- What a request leaves behind: the inspector, the text it printed, and the
value it returned. -/
structure Response where
  inspector : Inspector
  output : Text := []
  returned : Bool := true

def Response.reply (r : Response) : Reply where
  session := r.inspector.session
  output := r.output
  running := r.returned

namespace Inspector

def conclude (i : Inspector) (result : Loader.Result) (told : Program → Text) : Response :=
  match result.program with
  | .ok p =>
    { inspector := { i with session := i.session.install result.source p }, output := told p }
  | .error e => { inspector := i, output := e.report, returned := false }

def loadSource (i : Inspector) (source : Text) : Response :=
  let (result, loader) := i.loader.load source
  { i with loader }.conclude result fun _ => []

def loadFile (i : Inspector) (files : Files) (name : Text) : Response :=
  let (result, loader) := i.loader.loadFile files name
  { i with loader }.conclude result fun p =>
    ofString "Loaded " ++ decimal p.size ++ ofString " instructions, " ++
      decimal p.symbols.dataLabels.size ++ ofString " data labels\n"

/-- A command line goes on after a load that failed. -/
def execute (i : Inspector) (files : Files) (line : Text) : Response :=
  match Command.ofLine line with
  | .load name => { i.loadFile files name with returned := true }
  | c =>
    let r := i.session.perform files c
    { inspector := { i with session := r.session }, output := r.output, returned := r.running }

theorem reply_loadSource (i : Inspector) (source : Text) :
    (i.loadSource source).reply =
      match i.session.loadSource source with
      | .ok s => { session := s }
      | .error e => { session := i.session, output := e.report, running := false } := by
  simp only [loadSource, Loader.load_result, Session.loadSource]
  cases load source <;> rfl

theorem reply_loadFile (i : Inspector) (files : Files) (name : Text) :
    { (i.loadFile files name).reply with running := true } = i.session.loadFile files name := by
  unfold Session.loadFile loadFile
  rw [← i.loader.loaded_loadFile files name]
  obtain ⟨⟨source, program⟩, l⟩ := i.loader.loadFile files name
  cases program <;> rfl

theorem reply_execute (i : Inspector) (files : Files) (line : Text) :
    (i.execute files line).reply = i.session.execute files line := by
  unfold execute Session.execute
  cases Command.ofLine line with
  | load name => exact i.reply_loadFile files name
  | _ => rfl

end Inspector

end MipsStepper
