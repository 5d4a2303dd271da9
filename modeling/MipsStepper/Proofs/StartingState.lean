import MipsStepper.Proofs.ByteOrder
import MipsStepper.Proofs.InitialRegisters
import MipsStepper.Proofs.InitialMemory

/-!
# The state that overrides start from

Overrides of registers count under the names of the table, those of memory
under every text that denotes an address. Many texts denote one address, in
either base, with signs, blanks and trailing characters or beyond 32 bits. Of
those that are set the greatest decides, in the order of bytes, whatever the
others are. Everything else in the state is as without overrides.
-/

set_option autoImplicit false

namespace MipsStepper
open Text (ofString)

namespace Overrides

/-- The key that prevails for an address, with its value: of the keys that
denote the address it is the greatest in the order of bytes. -/
structure Prevails (o : Overrides) (a : Word) (key : Text) (v : Word) : Prop where
  entry : o.memory[key]? = some v
  denotes : Literal.read? key = some a
  greatest : ∀ k ∈ o.memory, Literal.read? k = some a → k.bytes ≤ key.bytes

variable {o : Overrides} {a v : Word} {key : Text}

theorem prevails_iff_decides : o.Prevails a key v ↔ o.Decides a key v := by
  constructor
  · rintro ⟨hentry, hdenotes, hgreatest⟩
    exact ⟨hentry, hdenotes, fun k hk hk' => Text.bytes_le_iff.mp (hgreatest k hk hk')⟩
  · rintro ⟨hentry, hdenotes, hlast⟩
    exact ⟨hentry, hdenotes, fun k hk hk' => Text.bytes_le_iff.mpr (hlast k hk hk')⟩

theorem mem_initialMemory_iff : (a, v) ∈ o.initialMemory.toList ↔ ∃ key, o.Prevails a key v := by
  rw [Memory.toList, Std.ExtTreeMap.mem_toList_iff_getElem?_eq_some,
    initialMemory_cell_eq_some_iff]
  simp only [prevails_iff_decides]

theorem contains_initialMemory_iff :
    o.initialMemory.contains a = true ↔ ∃ key ∈ o.memory, Literal.read? key = some a := by
  have hempty : Memory.empty.cells[a]? = none := by simp [Memory.empty]
  rw [Memory.contains, Std.ExtTreeMap.contains_eq_isSome_getElem?, initialMemory,
    foldl_applyAddress_cell, hempty, Option.or_none, Option.isSome_map, List.getLast?_isSome]
  constructor
  · intro hne
    obtain ⟨⟨key, v⟩, hmem⟩ := List.exists_mem_of_ne_nil _ hne
    obtain ⟨hentry, hread⟩ := (mem_entriesFor o a key v).mp hmem
    exact ⟨key, Std.ExtTreeMap.mem_iff_isSome_getElem?.mpr (by simp [hentry]), hread⟩
  · rintro ⟨key, hkey, hread⟩
    have hentry := Std.ExtTreeMap.getElem?_eq_some_getElem hkey
    exact List.ne_nil_of_mem ((mem_entriesFor o a key _).mpr ⟨hentry, hread⟩)

end Overrides

namespace Machine

/-- The state that a program starts in. A register holds its override, or zero
if there is none, and `$zero` holds zero. The memory has the addresses that
keys denote, each with the value of its greatest key. Nothing is touched or
printed, nothing has failed and no step is counted. -/
theorem start_overridden (p : Program) (source : Text) (o : Overrides) :
    let m := start p source o
    (∀ r : Register, m.registers.cells.get r =
      if r = Register.zero then 0 else (o.registers[r.name]?).getD 0) ∧
    (∀ a, m.memory.contains a = true ↔ ∃ key ∈ o.memory, Literal.read? key = some a) ∧
    (∀ a v, (a, v) ∈ m.memory.toList ↔ ∃ key, o.Prevails a key v) ∧
    m.touchedRegisters = [] ∧ m.touchedMemory = [] ∧ m.output = [] ∧ m.error = [] ∧
    m.pc = 0 ∧ m.steps = 0 ∧ m.status = .ready := by
  intro m
  refine ⟨fun r => ?_, fun a => Overrides.contains_initialMemory_iff,
    fun a v => Overrides.mem_initialMemory_iff, rfl, rfl, rfl, rfl, rfl, rfl, rfl⟩
  split_ifs with hr
  · rw [hr]
    exact o.registerFile_zero
  · exact o.registerFile_get hr

end Machine

/-- Five texts of one address, one that denotes no address, and the order of
their first characters. -/
example :
    let memory : Std.ExtTreeMap Text Word compare := .ofList
      [(ofString "4294967328x", 1), (ofString " +32", 2), (ofString "32", 3), (ofString "x", 4),
        (ofString "0x20", 5), (ofString "\t32", 6)] compare
    (Overrides.initialMemory { memory }).toList = [(32, 1)] := by
  decide +kernel

end MipsStepper
