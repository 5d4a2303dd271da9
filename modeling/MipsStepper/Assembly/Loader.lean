import MipsStepper.Assembly.Load

/-!
# Reused loaders

One loader serves every load of an inspector. It reads a source into tables
of its own and leaves them as they are, also when it finds no instruction in
the end, so the next load begins by emptying them. What a load gives back
depends on the source alone, as if its loader were a new one.
-/

set_option autoImplicit false

namespace MipsStepper

structure Loader where
  tables : Draft := {}

namespace Loader

/-- What a load gives back. The source is empty if the file cannot be opened. -/
structure Result where
  source : Text := []
  program : Except LoadError Program

def Result.loaded (r : Result) : Except LoadError (Text × Program) :=
  r.program.map fun p => (r.source, p)

def clear (l : Loader) : Loader where
  tables :=
    { l.tables with
      lines := []
      symbols := { l.tables.symbols with labels := ∅, dataLabels := ∅ }
      strings := ∅
      cursor := dataBase
      segment := .text }

def readLine (l : Loader) (raw : Text) : Loader where
  tables := l.tables.read raw

def load (l : Loader) (source : Text) : Result × Loader :=
  let l' := (source.splitOn '\n').foldl readLine l.clear
  let program := if l'.tables.lines = [] then .error .emptyProgram else .ok l'.tables.program
  ({ source, program }, l')

/-- A file that cannot be opened leaves the tables of the load before it. -/
def loadFile (l : Loader) (files : Files) (name : Text) : Result × Loader :=
  match files.fetch name with
  | .error e => ({ program := .error e }, l)
  | .ok source => l.load source

theorem clear_eq (l : Loader) : l.clear = {} := rfl

theorem tables_foldl_readLine (lines : List Text) (l : Loader) :
    (lines.foldl readLine l).tables = lines.foldl Draft.read l.tables := by
  induction lines generalizing l with
  | nil => rfl
  | cons raw lines ih => exact ih (l.readLine raw)

theorem tables_load (l : Loader) (source : Text) :
    (l.load source).2.tables = Draft.ofSource source := by
  unfold load
  rw [clear_eq]
  exact tables_foldl_readLine _ _

theorem load_result (l : Loader) (source : Text) :
    (l.load source).1 = { source, program := MipsStepper.load source } := by
  have htables := l.tables_load source
  simp only [load] at htables ⊢
  rw [htables]
  rfl

theorem loaded_loadFile (l : Loader) (files : Files) (name : Text) :
    (l.loadFile files name).1.loaded = MipsStepper.loadFile files name := by
  unfold loadFile MipsStepper.loadFile
  cases files.fetch name with
  | error e => rfl
  | ok source =>
    dsimp only
    rw [load_result]
    rfl

end Loader

end MipsStepper
