import MipsStepper.Proofs.Termination

/-!
# Straight runs

A machine goes straight as long as every instruction leads to the next one.
Then its program counter and its step count are the same number. Most
instructions that go on do no more than to assign a value.
-/

set_option autoImplicit false

namespace MipsStepper.Machine

/-- A machine that has come straight to an instruction and printed the given
output. -/
structure Before (m : Machine) (p : Program) (k : Nat) (output : Text) : Prop where
  status : m.status = .ready
  program : m.program = p
  pc : m.pc = k
  steps : m.steps = k
  output : m.output = output

section Straight
variable {m : Machine} {p : Program} {k : Nat} {output : Text} {o : Operation}

theorem Before.step_eq (h : m.Before p k output)
    (ho : (p.instructions.map Instruction.operation)[k]? = some o) (hk : k < 10000) :
    m.step = m.countStep.execute o := by
  rw [List.getElem?_map] at ho
  obtain ⟨i, hi, rfl⟩ := Option.map_eq_some_iff.mp ho
  have hinstruction : m.instruction? = some i := by
    simp [instruction?, Program.at?, h.program, h.pc, hi]
  have hlimit : ¬ stepLimit ≤ m.steps := by
    rw [h.steps, stepLimit]
    omega
  simp [step, h.status, stepReady, hinstruction, hlimit]

theorem Before.assign_any (h : m.Before p k output)
    (ho : (p.instructions.map Instruction.operation)[k]? = some o) (hk : k < 10000)
    {r : Option Register} {v : Word}
    (hset : m.countStep.execute o = (m.countStep.assign r v).advance) :
    m.step.Before p (k + 1) output ∧ m.step.registers = m.registers.write r v := by
  have hstep : m.step =
      { m with
        registers := m.registers.write r v
        touchedRegisters := noted m.touchedRegisters r
        pc := m.pc + 1
        steps := m.steps + 1 } := by
    rw [h.step_eq ho hk, hset, assign_eq]
    rfl
  rw [hstep]
  exact ⟨⟨h.status, h.program, by simp [h.pc], by simp [h.steps], h.output⟩, rfl⟩

theorem Before.assign (h : m.Before p k output)
    (ho : (p.instructions.map Instruction.operation)[k]? = some o) (hk : k < 10000)
    {r : Register} (hr : r ≠ Register.zero) {v : Word}
    (hset : m.countStep.execute o = (m.countStep.assign (some r) v).advance) :
    m.step.Before p (k + 1) output ∧ m.step.value (some r) = v ∧
      ∀ r', r' ≠ r → m.step.value (some r') = m.value (some r') := by
  obtain ⟨hbefore, hregisters⟩ := h.assign_any ho hk hset
  refine ⟨hbefore, ?_, fun r' hr' => ?_⟩
  · simp [value, hregisters, RegisterFile.read_write _ _ _ _ hr]
  · simp [value, hregisters, RegisterFile.read_write _ _ _ _ hr, Ne.symm hr']

theorem Before.halts (h : m.Before p k output) (hk : p.size = k) : m.run = m.halt := by
  have hinstruction : m.instruction? = none := by
    rw [instruction?, Program.at?_eq_none_iff, h.program, h.pc, hk]
    exact .inr (Int.le_refl _)
  have hstep : m.step = m.halt := by
    rw [step, h.status]
    simp [stepReady, hinstruction]
  have hhalted : m.halt.status ≠ .ready := by simp [halt]
  rw [← run_step, hstep, run_of_not_ready hhalted]

end Straight

end MipsStepper.Machine
