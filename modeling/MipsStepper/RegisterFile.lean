import MipsStepper.Numeral
import MipsStepper.Register

/-!
# The register file

`read` and `write` give `$zero` its fixed value: it reads as zero whatever is
asked and no write reaches it. The indexed forms take a register number as a
caller may have it, -1 for no register, and refuse any other number outside
the table.
-/

set_option autoImplicit false

namespace MipsStepper
open Text (ofString)

structure RegisterFile where
  cells : Vector Word 32

namespace RegisterFile

def zeroed : RegisterFile := ⟨Vector.replicate 32 0⟩

def read (f : RegisterFile) : Option Register → Word
  | none => 0
  | some r => if r = Register.zero then 0 else f.cells.get r

def write (f : RegisterFile) : Option Register → Word → RegisterFile
  | none, _ => f
  | some r, v => if r = Register.zero then f else ⟨f.cells.set r.val v r.isLt⟩

def reset (_ : RegisterFile) : RegisterFile := zeroed

def clearZero (f : RegisterFile) : RegisterFile := ⟨f.cells.set 0 0⟩

structure OutOfRange where
  index : Int
deriving DecidableEq

def OutOfRange.message (e : OutOfRange) : Text := ofString "Invalid register: " ++ decimal e.index

def operand (i : Int) : Except OutOfRange (Option Register) :=
  if i = -1 then .ok none
  else match Register.ofIndex? i with
    | some r => .ok (some r)
    | none => .error ⟨i⟩

def readAt (f : RegisterFile) (i : Int) : Except OutOfRange Word :=
  (operand i).map f.read

def writeAt (f : RegisterFile) (i : Int) (v : Word) : Except OutOfRange RegisterFile :=
  (operand i).map fun r => f.write r v

def cellText (f : RegisterFile) (touched : List Register) (r : Register) : Text :=
  Text.padRight 5 r.name ++ [if r ∈ touched then '*' else ' '] ++ ofString "= " ++ (f.cells.get r).hex

def rowText (f : RegisterFile) (touched : List Register) (row : Fin 8) : Text :=
  ofString "  " ++
    (ofString "  ").intercalate ((List.finRange 4).map fun (column : Fin 4) =>
      f.cellText touched ⟨4 * row + column, by omega⟩) ++
    ['\n']

def table (f : RegisterFile) (touched : List Register) : Text :=
  ofString "Registers:\n" ++ (List.finRange 8).flatMap (f.rowText touched)

def line (f : RegisterFile) (r : Register) : Text :=
  r.name ++ ofString " (r" ++ decimal r.val ++ ofString ") = " ++ (f.cells.get r).hex ++
    ofString " (" ++ (f.cells.get r).decimal ++ ofString ")\n"

def lineAt (f : RegisterFile) (i : Int) : Text :=
  match Register.ofIndex? i with
  | some r => f.line r
  | none => OutOfRange.message ⟨i⟩ ++ ['\n']

theorem get_set (cells : Vector Word 32) (r s : Register) (v : Word) :
    (cells.set r.val v r.isLt).get s = if r = s then v else cells.get s := by
  simp only [Fin.ext_iff]
  exact Vector.getElem_set r.isLt s.isLt

theorem read_write (f : RegisterFile) (r s : Register) (v : Word) (h : r ≠ Register.zero) :
    (f.write (some r) v).read (some s) = if r = s then v else f.read (some s) := by
  by_cases hs : s = Register.zero
  · simp [read, h, hs]
  · simp [read, write, h, hs, get_set]

end RegisterFile

end MipsStepper
