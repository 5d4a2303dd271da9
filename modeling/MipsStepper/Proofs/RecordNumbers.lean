import MipsStepper.Proofs.Grammar

/-!
# The register numbers of a record

The registers of a record are looked up by the texts that stand in its line. A
name of the table gives its place and any other name -1. The base of an address
is looked up likewise, and a name that gives -1 makes the operand invalid. So
all numbers are in the table, or -1 where the record needs no register.
-/

set_option autoImplicit false

namespace MipsStepper
open Register (number)

def Register.IsIndex (i : Int) : Prop := -1 ≤ i ∧ i ≤ 31

theorem Register.isIndex_none : IsIndex (-1) := by
  simp [IsIndex]

theorem Register.isIndex_number (t : Text) : IsIndex (number t) := by
  unfold number
  cases h : (names.toList.map Text.ofString).idxOf? t with
  | none => exact isIndex_none
  | some i =>
    obtain ⟨hi, -⟩ := List.idxOf?_eq_some_iff.mp h
    have hplace : i < 32 := by simpa using hi
    simp only [Option.elim_some, IsIndex]
    omega

structure Record.InRange (x : Record) : Prop where
  rd : Register.IsIndex x.rd
  rs : Register.IsIndex x.rs
  rt : Register.IsIndex x.rt
  base : Register.IsIndex x.base
  based : x.mode = .based → 0 ≤ x.base

def Record.Decoded (x : Record) : Prop :=
  ∃ (s : Symbols) (line : Text), x = (Instruction.decode s line).record

/-- The base of an address operand, by the text in its parentheses. -/
theorem Operand.base_number {s : Symbols} {t : Text} {x : MemOperand} (h : memory? s t = some x) :
    x.mode = .absolute ∧ Register.index x.base = -1 ∨
      x.mode = .based ∧ ∃ front inner, parenthesized? t = some (front, inner) ∧
        Register.index x.base = number inner ∧ number inner ≠ -1 := by
  have habsolute : ∀ y, absolute? s t = some y →
      y.mode = .absolute ∧ Register.index y.base = -1 := by
    intro y hy
    obtain ⟨a, -, rfl⟩ := Option.map_eq_some_iff.mp hy
    exact ⟨rfl, rfl⟩
  -- Only a register token in the parentheses commits the operand to a base.
  unfold memory? at h
  split at h
  · rename_i front inner hcut
    split_ifs at h with hinner
    · unfold based? at h
      split at h
      · rename_i n r _ hr
        cases h
        have hnumber : number inner = Register.index (some r) := hr ▸ Register.number_eq inner
        refine .inr ⟨rfl, front, inner, hcut, hnumber.symm, ?_⟩
        rw [hnumber, Register.index]
        omega
      · cases h
    · exact .inl (habsolute x h)
  · exact .inl (habsolute x h)

namespace Form

/-- The numbers looked up for the fields `rd`, `rs` and `rt`. -/
def numbers : Form → Int × Int × Int
  | .li d _ => (number d, -1, -1)
  | .la d _ => (number d, -1, -1)
  | .move d r => (number d, number r, -1)
  | .addi d r _ => (number d, number r, -1)
  | .arith _ d r t => (number d, number r, number t)
  | .lw d _ => (number d, -1, -1)
  | .sw r _ => (-1, number r, -1)
  | .branch _ r t _ => (-1, number r, number t)
  | .jump _ => (-1, -1, -1)
  | .syscall => (-1, -1, -1)

structure LookedUp (f : Form) (x : Record) : Prop where
  numbers : (x.rd, x.rs, x.rt) = f.numbers
  base : x.mode = .absolute ∧ x.base = -1 ∨
    x.mode = .based ∧ ∃ operand front inner, (.address, operand) ∈ f.tokens ∧
      Operand.parenthesized? operand = some (front, inner) ∧
      x.base = number inner ∧ number inner ≠ -1

variable {s : Symbols} {f : Form} {x : Record}

theorem isIndex_numbers (f : Form) : Register.IsIndex f.numbers.1 ∧
    Register.IsIndex f.numbers.2.1 ∧ Register.IsIndex f.numbers.2.2 := by
  cases f <;> simp only [numbers, Register.isIndex_number, Register.isIndex_none, and_self]

theorem LookedUp.inRange (h : f.LookedUp x) : x.InRange := by
  obtain ⟨hrd, hrs, hrt⟩ := isIndex_numbers f
  rw [← h.numbers] at hrd hrs hrt
  rcases h.base with ⟨hmode, hbase⟩ | ⟨-, _, _, inner, -, -, hbase, hne⟩
  · refine ⟨hrd, hrs, hrt, hbase ▸ Register.isIndex_none, ?_⟩
    simp [hmode]
  · have hinner := Register.isIndex_number inner
    refine ⟨hrd, hrs, hrt, hbase ▸ hinner, fun _ => ?_⟩
    obtain ⟨hlow, -⟩ := hinner
    omega

theorem LookedUp.of_operand {operand : Text} {p : MemOperand}
    (hnumbers : (x.rd, x.rs, x.rt) = f.numbers) (hoperand : (.address, operand) ∈ f.tokens)
    (hp : Operand.memory? s operand = some p) (hmode : x.mode = p.mode)
    (hbase : x.base = Register.index p.base) : f.LookedUp x := by
  refine ⟨hnumbers, ?_⟩
  rw [hmode, hbase]
  exact (Operand.base_number hp).imp id fun ⟨hbased, front, inner, hcut, hnumber⟩ =>
    ⟨hbased, operand, front, inner, hoperand, hcut, hnumber⟩

/-- The registers of a form are looked up, unless one of its operands denotes
nothing. -/
theorem Denotes.lookedUp {y : Fields} (h : f.Denotes s y) (defect? : Option Defect) :
    f.Rejected s ∧ y.record defect? = { kind := .invalid, defect? := defect? } ∨
      f.LookedUp (y.record defect?) := by
  have hnone : Register.index none = -1 := rfl
  cases h with
  | rejected h => exact .inl ⟨h, rfl⟩
  | lw hp | sw hp =>
    refine .inr (.of_operand ?_ (by simp [tokens]) hp rfl rfl)
    simp [Fields.record, numbers, Register.number_eq, hnone]
  | _ =>
    refine .inr ⟨?_, .inl ⟨rfl, rfl⟩⟩
    simp [Fields.record, numbers, Register.number_eq, hnone]

end Form

section Decoding
variable {s : Symbols} {line : Text}

theorem decode_lookedUp {f : Form} (h : f.Written (Text.trim line)) :
    let x := (Instruction.decode s line).record
    f.Rejected s ∧ x = { kind := .invalid, defect? := x.defect? } ∨ f.LookedUp x := by
  intro x
  have hx : x = (f.operation s).record := congrArg Instruction.record (decode_of_written h)
  rw [hx]
  exact (f.operation_denotes s (Text.trim line)).lookedUp _

theorem record_of_not_written (h : ∀ f : Form, ¬ f.Written (Text.trim line)) :
    (Instruction.decode s line).record =
      { kind := .unsupported, defect? := some (.form (Text.trim line)) } := by
  rw [decode_of_not_written h]
  rfl

theorem Record.inRange_of_kind (k : Kind) (defect? : Option Defect) :
    ({ kind := k, defect? := defect? } : Record).InRange := by
  constructor <;> simp [Register.isIndex_none]

theorem Record.Decoded.inRange {x : Record} (h : x.Decoded) : x.InRange := by
  obtain ⟨s, line, rfl⟩ := h
  by_cases hwritten : ∃ f : Form, f.Written (Text.trim line)
  · obtain ⟨f, hf⟩ := hwritten
    rcases @decode_lookedUp s line f hf with ⟨-, hx⟩ | hx
    · rw [hx]
      exact inRange_of_kind _ _
    · exact hx.inRange
  · rw [record_of_not_written (not_exists.mp hwritten)]
    exact inRange_of_kind _ _

end Decoding

end MipsStepper
