import MipsStepper.Text

/-!
# Registers

The 32 registers in hardware order. An operand position holds an optional
register: `none` stands for a name that is not in the table, which reads as
zero and swallows writes. Its index is -1.
-/

set_option autoImplicit false

namespace MipsStepper
open Text (ofString)

abbrev Register := Fin 32

namespace Register

def names : Vector String 32 :=
  #v["$zero", "$at", "$v0", "$v1",
    "$a0", "$a1", "$a2", "$a3",
    "$t0", "$t1", "$t2", "$t3",
    "$t4", "$t5", "$t6", "$t7",
    "$s0", "$s1", "$s2", "$s3",
    "$s4", "$s5", "$s6", "$s7",
    "$t8", "$t9", "$k0", "$k1",
    "$gp", "$sp", "$fp", "$ra"]

def name (r : Register) : Text := ofString (names.get r)

def named? (t : Text) : Option Register := (List.finRange 32).find? fun r => r.name = t

def zero : Register := 0

def v0 : Register := 2

def a0 : Register := 4

def operandName : Option Register → Text
  | some r => r.name
  | none => ofString "$?"

def index : Option Register → Int
  | some r => r.val
  | none => -1

/-- The place of a name in the table, -1 for a name that is not there. -/
def number (t : Text) : Int := ((names.toList.map ofString).idxOf? t).elim (-1) Nat.cast

def ofIndex? (i : Int) : Option Register :=
  if h : i.toNat < 32 ∧ 0 ≤ i then some ⟨i.toNat, h.1⟩ else none

theorem named?_name (r : Register) : named? r.name = some r := by
  revert r
  decide +kernel

theorem name_of_named? {t : Text} {r : Register} (h : named? t = some r) : r.name = t := by
  simpa using List.find?_some h

theorem number_name (r : Register) : number r.name = index (some r) := by
  revert r
  decide +kernel

theorem number_eq (t : Text) : number t = index (named? t) := by
  cases h : named? t with
  | some r =>
    rw [← name_of_named? h]
    exact number_name r
  | none =>
    have hnone : t ∉ names.toList.map ofString := by
      intro hmem
      have htable : names.toList.map ofString = (List.finRange 32).map name := rfl
      rw [htable] at hmem
      obtain ⟨r, -, rfl⟩ := List.mem_map.mp hmem
      rw [named?_name] at h
      cases h
    rw [number, List.idxOf?_eq_none_iff.mpr hnone]
    rfl

theorem ofIndex?_index (r : Register) : ofIndex? (index (some r)) = some r := by
  simp [ofIndex?, index]

end Register

end MipsStepper
