import MipsStepper.Assembly.Draft
import MipsStepper.Instruction.Decode
import MipsStepper.Program

/-!
# Loading

The second pass decodes every instruction line against the symbols of the
whole source, so that a label may be used before it is defined. A source
without instructions is no program. A defective instruction is no obstacle.
-/

set_option autoImplicit false

namespace MipsStepper
open Text (ofString)

inductive LoadError where
  | emptyProgram
  | fileNotFound (name : Text)
deriving DecidableEq

def LoadError.message : LoadError → Text
  | .emptyProgram => ofString "No MIPS instructions found in .text section."
  | .fileNotFound name => ofString "Cannot open file: " ++ name

def Draft.program (d : Draft) : Program where
  instructions := d.lines.map (Instruction.decode d.symbols)
  symbols := d.symbols
  strings := d.strings

def load (source : Text) : Except LoadError Program :=
  let d := Draft.ofSource source
  if d.lines = [] then .error .emptyProgram else .ok d.program

abbrev Files := Text → Option Text

/-- The contents of a file. A name ends before its first NUL, and the empty
name opens nothing. -/
def Files.contents? (files : Files) (name : Text) : Option Text :=
  match name.takeWhile (· ≠ '\x00') with
  | [] => none
  | n => files n

def Files.fetch (files : Files) (name : Text) : Except LoadError Text :=
  match files.contents? name with
  | some t => .ok t
  | none => .error (.fileNotFound name)

def loadFile (files : Files) (name : Text) : Except LoadError (Text × Program) :=
  (files.fetch name).bind fun source => (load source).map fun p => (source, p)

end MipsStepper
