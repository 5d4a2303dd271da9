import Std.Data.ExtTreeMap
import MipsStepper.Numeral

/-!
# Word memory

Sparse memory: every address holds one whole word, nothing is aligned or
bounded, and an address that was never written reads as zero but is not
contained. Listings run in signed order of the addresses.
-/

set_option autoImplicit false

namespace MipsStepper
open Text (ofString)

structure Memory where
  cells : Std.ExtTreeMap Word Word compare

namespace Memory

def empty : Memory := ⟨∅⟩

def reset (_ : Memory) : Memory := empty

def read (m : Memory) (a : Word) : Word := (m.cells[a]?).getD 0

def write (m : Memory) (a v : Word) : Memory := ⟨m.cells.insert a v⟩

def contains (m : Memory) (a : Word) : Bool := m.cells.contains a

def size (m : Memory) : Nat := m.cells.size

def toList (m : Memory) : List (Word × Word) := m.cells.toList

def cellText (touched : List Word) (cell : Word × Word) : Text :=
  ofString (if cell.1 ∈ touched then " *" else "  ") ++ cell.1.hex ++ ofString ": " ++ cell.2.hex ++
    ofString "  (" ++ cell.2.decimal ++ ofString ")\n"

def table (m : Memory) (touched : List Word) : Text :=
  if m.size = 0 then ofString "Memory: (empty)\n"
  else ofString "Memory (" ++ decimal m.size ++ ofString " words):\n" ++
    m.toList.flatMap (cellText touched)

def wordLines (m : Memory) : Nat → Word → Text
  | 0, _ => []
  | n + 1, a => ofString "  " ++ a.hex ++ ofString ": " ++ (m.read a).hex ++ ['\n'] ++
      m.wordLines n (a + 4)

def wordTable (m : Memory) (a : Word) (n : Nat) : Text :=
  ofString "Memory words [" ++ a.hex ++ ofString "]:\n" ++ m.wordLines n a

end Memory

end MipsStepper
