import Mathlib.Data.Set.Insert
import MipsStepper.Proofs.AccessHistory

/-!
# Memory that a run does not touch

Every address that is loaded from or stored to stays in the list of touched
addresses. So the cells at other addresses are neither read nor written: two
machines that differ in such cells only take the same steps, and each keeps
its own cells there.
-/

set_option autoImplicit false

namespace MipsStepper.Machine
open Text (ofString)

section Touched
variable {m : Machine} {a : Word}

theorem mem_step_touchedMemory :
    a ∈ m.step.touchedMemory ↔
      a ∈ m.touchedMemory ∨ m.execution?.bind Execution.address? = some a := by
  rw [touchedMemory_logs m]
  cases m.execution?.bind Execution.address? with
  | none => simp
  | some b => simp [mem_appendNew, eq_comm]

theorem stepN_touchedMemory (h : a ∈ m.touchedMemory) (n : Nat) :
    a ∈ (stepN n m).touchedMemory := by
  induction n with
  | zero => exact h
  | succ n ih =>
    rw [stepN_succ, mem_step_touchedMemory]
    exact .inl ih

theorem step_cell_untouched (h : a ∉ m.step.touchedMemory) :
    m.step.memory.cells[a]? = m.memory.cells[a]? := by
  rw [mem_step_touchedMemory, not_or] at h
  rw [step_cell]
  cases he : m.execution? with
  | none => rfl
  | some e =>
    have hstores : e.storesAt a = false :=
      Execution.storesAt_of_address?_ne (by simpa [he] using h.2)
    simp [Option.filter, hstores]

theorem stepN_cell_untouched (n : Nat) (h : a ∉ (stepN n m).touchedMemory) :
    (stepN n m).memory.cells[a]? = m.memory.cells[a]? := by
  induction n with
  | zero => rfl
  | succ n ih =>
    rw [stepN_succ] at h ⊢
    rw [step_cell_untouched h]
    exact ih fun hn => h (mem_step_touchedMemory.mpr (.inl hn))

theorem run_cell_untouched (h : a ∉ m.run.touchedMemory) :
    m.run.memory.cells[a]? = m.memory.cells[a]? := by
  obtain ⟨k, -, hloop⟩ := loop_run m
  rw [hloop.stepN.1] at h ⊢
  exact stepN_cell_untouched k h

end Touched

section WithMemory
variable {memory : Memory}

def withMemory (m : Machine) (memory : Memory) : Machine := { m with memory := memory }

theorem act_withMemory (m : Machine) (x : Action) :
    (m.withMemory memory).act x = (m.act x).withMemory (x.access.apply memory) := rfl

theorem execute_withMemory (m : Machine) (o : Operation)
    (h : ∀ a, (Execution.mk m o).address? = some a → memory.cells[a]? = m.memory.cells[a]?) :
    ∃ memory', (m.withMemory memory).execute o = (m.execute o).withMemory memory' := by
  have haction : (m.withMemory memory).action o = m.action o :=
    action_congr rfl rfl fun a ha => h a (access_address? m o ▸ ha)
  rw [execute_eq_act, haction, act_withMemory, execute_eq_act]
  exact ⟨_, rfl⟩

theorem step_withMemory (m : Machine)
    (h : ∀ a, m.execution?.bind Execution.address? = some a →
      memory.cells[a]? = m.memory.cells[a]?) :
    ∃ memory', (m.withMemory memory).step = m.step.withMemory memory' := by
  have ht := step_transition m
  generalize m.step = m' at ht
  cases ht with
  | stopped hm => exact ⟨memory, step_of_not_ready hm⟩
  | finished hm hi => exact ⟨memory, step_of_end hm hi⟩
  | expired hm hi hs =>
    have hstep := @step_of_instruction (m.withMemory memory) hm _ hi
    exact ⟨memory, hstep.trans (if_pos hs)⟩
  | @performed hm i hi hs =>
    have hexecution : m.execution? = some ⟨m, i.operation⟩ := by
      simp [execution?, executes, hm, hi, hs]
    have hstep := @step_of_instruction (m.withMemory memory) hm i hi
    have hlimit : ¬ stepLimit ≤ (m.withMemory memory).steps := Int.not_le.mpr hs
    rw [hstep, if_neg hlimit]
    apply execute_withMemory m.countStep
    intro a ha
    exact h a (by rw [hexecution]; exact ha)

theorem stored_withMemory (m : Machine) (a : Word) :
    ((m.withMemory memory).execution?.filter fun e => e.storesAt a).map Execution.storedValue =
      (m.execution?.filter fun e => e.storesAt a).map Execution.storedValue := by
  have hexecutes : (m.withMemory memory).executes = m.executes := rfl
  have hinstruction : (m.withMemory memory).instruction? = m.instruction? := rfl
  rw [execution?, execution?, hexecutes, hinstruction]
  by_cases h : m.executes
  · cases m.instruction? with
    | none => simp
    | some i =>
      have hstores : (Execution.mk (m.withMemory memory) i.operation).storesAt a =
          (Execution.mk m i.operation).storesAt a := rfl
      by_cases hs : (Execution.mk m i.operation).storesAt a <;>
        simp only [h, if_true, Option.map_some, Option.filter, hstores, hs] <;> rfl
  · simp [h]

end WithMemory

/-- Machines that differ in their memories alone, and there only at addresses
of a set. -/
structure Twins (A : Set Word) (m m' : Machine) : Prop where
  rest : m' = m.withMemory m'.memory
  cells : ∀ a ∉ A, m'.memory.cells[a]? = m.memory.cells[a]?

section Twins
variable {A : Set Word} {m m' : Machine}

theorem Twins.step (h : Twins A m m') (hA : ∀ a ∈ A, a ∉ m.step.touchedMemory) :
    Twins A m.step m'.step := by
  obtain ⟨hrest, hcells⟩ := h
  generalize m'.memory = memory at hrest hcells
  subst hrest
  have haccessed : ∀ a, m.execution?.bind Execution.address? = some a →
      memory.cells[a]? = m.memory.cells[a]? := by
    intro a ha
    apply hcells
    intro hmem
    exact hA a hmem (mem_step_touchedMemory.mpr (.inr ha))
  obtain ⟨memory', hstep⟩ := step_withMemory m haccessed
  constructor
  · rw [hstep]
    rfl
  · intro a ha
    rw [step_cell, step_cell, stored_withMemory]
    exact congrArg _ (hcells a ha)

theorem Loop.twins {last : Machine} {k : Nat} (hloop : Loop m k last) (h : Twins A m m')
    (hA : ∀ a ∈ A, a ∉ last.touchedMemory) : ∃ last', Loop m' k last' ∧ Twins A last last' := by
  induction hloop generalizing m' with
  | stop hm =>
    have hm' : m'.status ≠ .ready := by
      rw [h.rest]
      exact hm
    exact ⟨m', .stop hm', h⟩
  | @turn m last k hm rest ih =>
    have hm' : m'.status = .ready := by
      rw [h.rest]
      exact hm
    have hstep : ∀ a ∈ A, a ∉ m.step.touchedMemory := by
      intro a ha htouched
      have hlast := stepN_touchedMemory htouched k
      rw [← rest.stepN.1] at hlast
      exact hA a ha hlast
    obtain ⟨last', hloop', htwins⟩ := ih (h.step hstep) hA
    exact ⟨last', .turn hm' hloop', htwins⟩

end Twins

/-- Cells at addresses that a run does not touch have no influence on it. With
any other contents there, or none, the run is the same but for the memory,
which differs in these cells only, and both runs leave them as they were. -/
theorem run_untouched (m : Machine) (memory : Memory) (A : Set Word)
    (hagree : ∀ a ∉ A, memory.cells[a]? = m.memory.cells[a]?)
    (huntouched : ∀ a ∈ A, a ∉ m.run.touchedMemory) :
    let m' : Machine := { m with memory := memory }
    m'.run = { m.run with memory := m'.run.memory } ∧
      (∀ a ∉ A, m'.run.memory.cells[a]? = m.run.memory.cells[a]?) ∧
      ∀ a ∈ A, m.run.memory.cells[a]? = m.memory.cells[a]? ∧
        m'.run.memory.cells[a]? = memory.cells[a]? := by
  intro m'
  obtain ⟨k, -, hloop⟩ := loop_run m
  obtain ⟨last', hloop', htwins⟩ := @Loop.twins A m m' _ k hloop ⟨rfl, hagree⟩ huntouched
  rw [← run_eq_of_loop hloop'] at htwins
  refine ⟨htwins.rest, htwins.cells, fun a ha => ?_⟩
  have htouched : m'.run.touchedMemory = m.run.touchedMemory := by
    rw [htwins.rest]
    rfl
  have hrun := run_cell_untouched (huntouched a ha)
  have hrun' := @run_cell_untouched m' a (by rw [htouched]; exact huntouched a ha)
  exact ⟨hrun, hrun'⟩

theorem run_untouched_beside_loop :
    let m := create (ofString
      "li $t0, 5\nloop: sw $t0, 64($t0)\nlw $t0, 0x40($t0)\naddi $t0, $t0, -1\nbne $t0, $zero, loop") {}
    let memory := (m.memory.write 64 1).write 70 2
    let A : Set Word := {64, 70}
    let m' : Machine := { m with memory := memory }
    (∀ a ∉ A, memory.cells[a]? = m.memory.cells[a]?) ∧ (∀ a ∈ A, a ∉ m.run.touchedMemory) ∧
      m.run.status = .halted ∧ m.run.touchedMemory = [69, 68, 67, 66, 65] ∧
      m'.run = { m.run with memory := m'.run.memory } ∧
      (∀ a ∉ A, m'.run.memory.cells[a]? = m.run.memory.cells[a]?) ∧
      ∀ a ∈ A, m.run.memory.cells[a]? = m.memory.cells[a]? ∧
        m'.run.memory.cells[a]? = memory.cells[a]? := by
  intro m memory A m'
  have hagree : ∀ a ∉ A, memory.cells[a]? = m.memory.cells[a]? := by
    intro a ha
    simp only [A, Set.mem_insert_iff, Set.mem_singleton_iff, not_or] at ha
    simp [memory, Memory.write, Std.ExtTreeMap.getElem?_insert, Ne.symm ha.1, Ne.symm ha.2]
  have htouched : m.run.touchedMemory = [69, 68, 67, 66, 65] := by decide +kernel
  have huntouched : ∀ a ∈ A, a ∉ m.run.touchedMemory := by
    rw [htouched]
    rintro a (rfl | rfl) <;> decide
  have hstatus : m.run.status = .halted := by decide +kernel
  exact ⟨hagree, huntouched, hstatus, htouched, run_untouched m memory A hagree huntouched⟩

end MipsStepper.Machine
