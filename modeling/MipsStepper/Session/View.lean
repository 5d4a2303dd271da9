import MipsStepper.Instruction.Listing
import MipsStepper.Machine.Step

/-!
# Views of a program and a machine

The texts in which the inspector shows labels, a listing, a status, and what
happened between two snapshots.
-/

set_option autoImplicit false

namespace MipsStepper
open Text (ofString)

def indexText (width : Nat) (i : Int) : Text := (decimal i).leftpad width ' '

namespace Program

def labelTable (p : Program) : Text :=
  ofString "Text labels:\n" ++
    (p.symbols.labels.toList.flatMap fun entry =>
      ofString "  " ++ indexText 6 entry.2 ++ ofString "  " ++ entry.1 ++ ['\n']) ++
    ofString "Data labels:\n" ++
    (p.symbols.dataLabels.toList.flatMap fun entry =>
      ofString "  " ++ entry.2.hex ++ ofString "  " ++ entry.1 ++ ['\n'])

end Program

inductive ListingLine where
  | label (name : Text)
  | instruction (index : Nat) (instruction : Instruction)
deriving DecidableEq

namespace ListingLine

def defectNote (i : Instruction) : Text :=
  if i.error = [] then [] else ofString "  ; " ++ i.error

def marker (pc : Int) (index : Nat) : Text := ofString (if index = pc then "=> " else "   ")

def text (pc : Int) : ListingLine → Text
  | .label name => name ++ ofString ":\n"
  | .instruction index i =>
    marker pc index ++ '[' :: indexText 4 index ++ ofString "] " ++
      Text.padRight 28 i.listing ++ defectNote i ++ ['\n']

end ListingLine

namespace Program

/-- The instructions from an index on, each after the labels of its index,
and last the labels of the index after the last instruction. -/
def listingFrom (p : Program) : Nat → List Instruction → List ListingLine
  | index, [] => (p.symbols.labelsAt index).map .label
  | index, i :: rest =>
    (p.symbols.labelsAt index).map .label ++ .instruction index i :: p.listingFrom (index + 1) rest

def listing (p : Program) : List ListingLine := p.listingFrom 0 p.instructions

def listingText (p : Program) (pc : Int) : Text := p.listing.flatMap (ListingLine.text pc)

end Program

namespace Machine

def traceLine (m : Machine) : Text :=
  m.instruction?.elim [] fun i => '[' :: indexText 4 m.pc ++ ofString "] " ++ i.listing ++ ['\n']

/-- The output that was added since an earlier snapshot, as whole lines. -/
def echo (before after : Machine) : Text :=
  Text.endLine (after.output.drop before.output.length)

def statusChange (before after : Machine) : Text :=
  if after.status = before.status then []
  else match after.status with
    | .ready => []
    | .halted => ofString "Program halted after " ++ decimal after.steps ++ ofString " steps\n"
    | .error =>
      ofString "Error at [" ++ decimal after.pc ++ ofString "]: " ++ after.error ++ ['\n']

def transition (before after : Machine) : Text := echo before after ++ statusChange before after

def faultLine (m : Machine) : Text :=
  match m.status with
  | .error => ofString "  Error: " ++ m.error ++ ['\n']
  | _ => []

def statusText (m : Machine) : Text :=
  ofString "Status: " ++ m.status.name ++
    ofString "\n  PC: " ++ decimal m.pc ++ ofString " / " ++ decimal m.program.size ++
    ofString "\n  Steps: " ++ decimal m.steps ++ ofString " (limit " ++ decimal stepLimit ++
    ofString ")\n" ++ m.faultLine

end Machine

end MipsStepper
