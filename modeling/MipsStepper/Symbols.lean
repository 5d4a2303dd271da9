import Std.Data.ExtTreeMap
import MipsStepper.Word
import MipsStepper.Text

/-!
# Symbol tables

Text labels name instruction indices and data labels name addresses. The two
tables are separate name spaces, each listed in the order of its names.
-/

set_option autoImplicit false

namespace MipsStepper

structure Symbols where
  labels : Std.ExtTreeMap Text Int compare := ∅
  dataLabels : Std.ExtTreeMap Text Word compare := ∅

namespace Symbols

def index? (s : Symbols) (label : Text) : Option Int := s.labels[label]?

def address? (s : Symbols) (label : Text) : Option Word := s.dataLabels[label]?

/-- A later definition of a text label replaces an earlier one. -/
def defineLabel (s : Symbols) (label : Text) (index : Int) : Symbols :=
  { s with labels := s.labels.insert label index }

/-- The first definition of a data label stands. -/
def defineDataLabel (s : Symbols) (label : Text) (address : Word) : Symbols :=
  { s with dataLabels := s.dataLabels.insertIfNew label address }

def labelsAt (s : Symbols) (index : Int) : List Text :=
  (s.labels.toList.filter fun entry => entry.2 = index).map Prod.fst

theorem index?_defineLabel (s : Symbols) (l k : Text) (i : Int) :
    (s.defineLabel l i).index? k = if l = k then some i else s.index? k := by
  simp [index?, defineLabel, Std.ExtTreeMap.getElem?_insert]

theorem address?_defineDataLabel (s : Symbols) (l k : Text) (a : Word) :
    (s.defineDataLabel l a).address? k =
      if l = k ∧ s.address? l = none then some a else s.address? k := by
  rw [address?, defineDataLabel, Std.ExtTreeMap.getElem?_insertIfNew]
  simp [address?]

end Symbols

end MipsStepper
