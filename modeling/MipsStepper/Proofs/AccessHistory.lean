import Mathlib.Algebra.Ring.Int.Defs
import MipsStepper.Proofs.Effects

/-!
# The history of accesses

Whatever a machine does on its way, its two touched lists, its registers and
its memory are decided by the instructions it has executed. The lists are the
registers written and the addresses accessed, each where it came first. A cell
of memory holds what the last store to it put there, and a load finds that.
-/

set_option autoImplicit false

namespace MipsStepper
open Text (ofString)

section Lists
variable {α : Type} [DecidableEq α]

theorem mem_appendNew (xs : List α) (x y : α) : y ∈ appendNew xs x ↔ y ∈ xs ∨ y = x := by
  by_cases h : x ∈ xs
  · simp only [appendNew, h, if_true]
    exact ⟨.inl, fun hy => hy.elim id fun hyx => hyx ▸ h⟩
  · simp [appendNew, h]

theorem nodup_appendNew {xs : List α} (h : xs.Nodup) (x : α) : (appendNew xs x).Nodup := by
  by_cases hx : x ∈ xs
  · simpa [appendNew, hx] using h
  · have hne : ∀ y ∈ xs, y ≠ x := fun y hy hyx => hx (hyx ▸ hy)
    simpa [appendNew, hx, List.nodup_append] using ⟨h, hne⟩

theorem eraseDups_concat (xs : List α) (x : α) :
    (xs ++ [x]).eraseDups = appendNew xs.eraseDups x := by
  rw [List.eraseDups_append]
  by_cases h : x ∈ xs <;> simp [appendNew, List.removeAll, h, List.eraseDups_cons]

end Lists

namespace Machine

section Logs

/-- A list to which every executed instruction adds its entry, if it has one
that is new. -/
def Logs {α : Type} [DecidableEq α] (log : Machine → List α) (item? : Execution → Option α) :
    Prop :=
  ∀ m : Machine, log m.step = (m.execution?.bind item?).elim (log m) (appendNew (log m))

variable {α : Type} [DecidableEq α] {log : Machine → List α} {item? : Execution → Option α}

theorem Logs.stepN (h : Logs log item?) {m : Machine} (hm : log m = []) (n : Nat) :
    log (stepN n m) = ((executed n m).filterMap item?).eraseDups ∧ (log (stepN n m)).Nodup := by
  induction n with
  | zero => simp [executed, Machine.stepN, hm]
  | succ n ih =>
    have hlast : (Machine.stepN n m).execution?.toList.filterMap item? =
        ((Machine.stepN n m).execution?.bind item?).toList := by
      cases (Machine.stepN n m).execution? with
      | none => rfl
      | some e => cases he : item? e <;> simp [he]
    rw [stepN_succ, h, executed_succ, List.filterMap_append, hlast]
    cases (Machine.stepN n m).execution?.bind item? with
    | none => simpa using ih
    | some x =>
      have hnew : ((executed n m).filterMap item? ++ [x]).eraseDups =
          appendNew (log (Machine.stepN n m)) x := by rw [eraseDups_concat, ih.1]
      exact ⟨hnew.symm, nodup_appendNew ih.2 x⟩

theorem touchedRegisters_logs : Logs touchedRegisters Execution.destination? := by
  intro m
  cases h : m.execution? with
  | none => exact (step_rests h).touchedRegisters
  | some e =>
    obtain ⟨rfl, heffects⟩ := step_effects h
    exact heffects.touchedRegisters

theorem touchedMemory_logs : Logs touchedMemory Execution.address? := by
  intro m
  cases h : m.execution? with
  | none => exact (step_rests h).touchedMemory
  | some e =>
    obtain ⟨rfl, heffects⟩ := step_effects h
    exact heffects.touchedMemory

end Logs

section Cells
variable {m : Machine}

theorem step_get {r : Register} (h : m.execution?.bind Execution.destination? ≠ some r) :
    m.step.registers.cells.get r = m.registers.cells.get r := by
  cases he : m.execution? with
  | none => rw [(step_rests he).registers]
  | some e =>
    obtain ⟨rfl, heffects⟩ := step_effects he
    exact heffects.register r (by simpa [he] using h)

theorem stepN_get (n : Nat) {r : Register}
    (h : r ∉ (executed n m).filterMap Execution.destination?) :
    (stepN n m).registers.cells.get r = m.registers.cells.get r := by
  induction n with
  | zero => rfl
  | succ n ih =>
    rw [executed_succ, List.filterMap_append, List.mem_append, not_or] at h
    rw [stepN_succ, step_get, ih h.1]
    intro hr
    obtain ⟨e, he, her⟩ := Option.bind_eq_some_iff.mp hr
    exact h.2 (by simp [he, her])

theorem step_cell (m : Machine) (a : Word) : m.step.memory.cells[a]? =
    ((m.execution?.filter fun e => e.storesAt a).map Execution.storedValue).or
      m.memory.cells[a]? := by
  cases he : m.execution? with
  | none => simp [(step_rests he).memory]
  | some e =>
    obtain ⟨rfl, heffects⟩ := step_effects he
    rw [heffects.cell]
    by_cases hs : e.storesAt a <;> simp [Option.filter, hs]

def storesTo (a : Word) (n : Nat) (m : Machine) : List Execution :=
  (executed n m).filter fun e => e.storesAt a

theorem storesTo_succ (a : Word) (n : Nat) (m : Machine) : storesTo a (n + 1) m =
    storesTo a n m ++ ((stepN n m).execution?.filter fun e => e.storesAt a).toList := by
  rw [storesTo, executed_succ, List.filter_append, storesTo]
  cases (stepN n m).execution? with
  | none => rfl
  | some e => by_cases hs : e.storesAt a <;> simp [Option.filter, hs]

theorem stepN_cell (n : Nat) (m : Machine) (a : Word) : (stepN n m).memory.cells[a]? =
    ((storesTo a n m).getLast?.map Execution.storedValue).or m.memory.cells[a]? := by
  induction n with
  | zero => rfl
  | succ n ih =>
    rw [stepN_succ, step_cell, ih, storesTo_succ]
    cases (stepN n m).execution?.filter fun e => e.storesAt a <;> simp

theorem stepN_contains (n : Nat) (m : Machine) (a : Word) :
    (stepN n m).memory.contains a ↔ m.memory.contains a ∨ storesTo a n m ≠ [] := by
  simp only [Memory.contains, Std.ExtTreeMap.contains_eq_isSome_getElem?]
  rw [stepN_cell]
  cases hlast : (storesTo a n m).getLast? with
  | none => simp [List.getLast?_eq_none_iff.mp hlast]
  | some e =>
    have hne : storesTo a n m ≠ [] := fun hnil => by simp [hnil] at hlast
    simp [hne]

theorem stepN_read (n : Nat) (m : Machine) (a : Word) : (stepN n m).memory.read a =
    ((storesTo a n m).getLast?.map Execution.storedValue).getD (m.memory.read a) := by
  rw [Memory.read, stepN_cell]
  cases (storesTo a n m).getLast? <;> simp [Memory.read]

theorem step_memory (h : ∀ e, m.execution? = some e → e.operation.kind ≠ .sw) :
    m.step.memory = m.memory := by
  have hcells : m.step.memory.cells = m.memory.cells := by
    apply Std.ExtTreeMap.ext_getElem?
    intro a
    rw [step_cell]
    cases he : m.execution? with
    | none => rfl
    | some e => simp [Option.filter, Execution.storesAt_of_kind_ne (h e he)]
  exact congrArg Memory.mk hcells

/-- The address of a load is that of the registers before it, also if it
loads into its base. -/
theorem step_load {d : Register} {x : MemOperand}
    (h : m.execution? = some ⟨m, .lw (some d) x⟩) (hd : d ≠ Register.zero) :
    m.step.value (some d) = m.memory.read (m.effectiveAddress x) := by
  rw [(step_of_execution? h).2, effectiveAddress_eq]
  exact value_execute m.countStep rfl hd

end Cells

theorem create_touched (source : Text) (o : Overrides) :
    (create source o).touchedRegisters = [] ∧ (create source o).touchedMemory = [] := by
  unfold create
  cases load source with
  | ok p => exact ⟨rfl, rfl⟩
  | error e => exact ⟨rfl, rfl⟩

/-- The touched lists of a machine grown from a source are the registers that
its instructions have written and the addresses that they have accessed, each
once and in the order of the first time. A register that is not listed is as
it was at the start, whatever the overrides have put there. -/
theorem touched_history (source : Text) (o : Overrides) (n : Nat) :
    let m := create source o
    let m' := stepN n m
    m'.touchedRegisters = ((executed n m).filterMap Execution.destination?).eraseDups ∧
      m'.touchedMemory = ((executed n m).filterMap Execution.address?).eraseDups ∧
      m'.touchedRegisters.Nodup ∧ m'.touchedMemory.Nodup ∧
      ∀ r, m'.registers.cells.get r ≠ m.registers.cells.get r → r ∈ m'.touchedRegisters := by
  intro m m'
  obtain ⟨hregisters, hnodup⟩ := touchedRegisters_logs.stepN (create_touched source o).1 n
  obtain ⟨hmemory, hnodup'⟩ := touchedMemory_logs.stepN (create_touched source o).2 n
  refine ⟨hregisters, hmemory, hnodup, hnodup', fun r hr => ?_⟩
  rw [hregisters, List.mem_eraseDups]
  by_contra hnot
  exact hr (stepN_get n hnot)

theorem wrap_eq_wrap_iff (i j : Int) : Word.wrap i = Word.wrap j ↔ i % 2 ^ 32 = j % 2 ^ 32 := by
  have hsize : (2 : Int) ^ 32 = (Int32.size : Nat) := by decide
  rw [Word.wrap, Word.wrap, ← Int32.toInt_inj, Int32.toInt_ofInt, Int32.toInt_ofInt, hsize]
  constructor
  · intro h
    rw [← Int.bmod_emod, h]
    exact Int.bmod_emod
  · intro h
    rw [← Int.emod_bmod, ← Int.emod_bmod j]
    exact congrArg (Int.bmod · Int32.size) h

theorem address_based_eq_iff (k k' : Machine) (base base' : Register) (offset offset' : Word) :
    k.address (.based offset base) = k'.address (.based offset' base') ↔
      ((k.value (some base)).toInt + offset.toInt) % 2 ^ 32 =
        ((k'.value (some base')).toInt + offset'.toInt) % 2 ^ 32 := by
  rw [← effectiveAddress_eq, ← effectiveAddress_eq]
  exact wrap_eq_wrap_iff _ _

/-- A cell of memory is there if it was at the start or a store to it has been
executed. It holds what the last such store found in its register, and this is
what a load from it finds. Addresses are the same modulo 2^32, and no
instruction but a store changes the memory. -/
theorem memory_history (m : Machine) (n : Nat) (a : Word) :
    let m' := stepN n m
    let word := ((storesTo a n m).getLast?.map Execution.storedValue).getD (m.memory.read a)
    (m'.memory.contains a ↔ m.memory.contains a ∨ storesTo a n m ≠ []) ∧
      m'.memory.read a = word ∧
      (∀ e : Execution, e.operation.rs = none ∨ e.operation.rs = some Register.zero →
        e.storedValue = 0) ∧
      (∀ d x, m'.execution? = some ⟨m', .lw (some d) x⟩ → d ≠ Register.zero →
        m'.effectiveAddress x = a → m'.step.value (some d) = word) ∧
      ((∀ e, m'.execution? = some e → e.operation.kind ≠ .sw) → m'.step.memory = m'.memory) ∧
      ∀ (k k' : Machine) (base base' : Register) (offset offset' : Word),
        k.address (.based offset base) = k'.address (.based offset' base') ↔
          ((k.value (some base)).toInt + offset.toInt) % 2 ^ 32 =
            ((k'.value (some base')).toInt + offset'.toInt) % 2 ^ 32 := by
  intro m' word
  have hload : ∀ d x, m'.execution? = some ⟨m', .lw (some d) x⟩ → d ≠ Register.zero →
      m'.effectiveAddress x = a → m'.step.value (some d) = word := by
    intro d x hx hd ha
    rw [step_load hx hd, ha]
    exact stepN_read n m a
  exact ⟨stepN_contains n m a, stepN_read n m a, fun e => Execution.storedValue_eq_zero, hload,
    step_memory, address_based_eq_iff⟩

end Machine

end MipsStepper
