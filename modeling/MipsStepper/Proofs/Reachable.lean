import MipsStepper.Proofs.Step
import MipsStepper.Proofs.Targets

/-!
# Machines grown from a source

The bounds of the program counter and of the step count, the zero register
and the fault of a failed machine are one invariant. The program counter is
checked nowhere when it is set: its bound rests on the targets of the loaded
program, which the loader has resolved to indices.
-/

set_option autoImplicit false

namespace MipsStepper

theorem Program.at?_eq_some {p : Program} {pc : Int} {i : Instruction} (h : p.at? pc = some i) :
    0 ≤ pc ∧ pc < p.size ∧ i ∈ p.instructions := by
  unfold Program.at? at h
  split_ifs at h with hpc
  obtain ⟨hlt, rfl⟩ := List.getElem?_eq_some_iff.mp h
  refine ⟨hpc, ?_, List.getElem_mem hlt⟩
  unfold Program.size
  omega

theorem LoadError.message_ne_nil (e : LoadError) : e.message ≠ [] := by
  cases e <;> simp [LoadError.message, Text.ofString_eq]

theorem Fault.message_ne_nil (f : Fault) : f.message ≠ [] := by
  cases f with
  | load e => exact e.message_ne_nil
  | defect d => exact d.message_ne_nil
  | stepLimit => simp [Fault.message, Text.ofString_eq]
  | unknownLabel l => simp [Fault.message, Text.ofString_eq]
  | unsupportedService c => simp [Fault.message, Text.ofString_eq]

theorem Overrides.registerFile_zero (o : Overrides) :
    o.registerFile.cells.get Register.zero = 0 := by
  refine List.foldlRecOn (motive := fun f : RegisterFile => f.cells.get Register.zero = 0)
    _ _ rfl ?_
  intro f h entry _
  exact (Machine.get_zero_write f _ _).trans h

namespace Machine

/-- What every machine keeps that grows out of a source. -/
structure Sound (m : Machine) : Prop where
  targets : ∀ i ∈ m.program.instructions, ∀ target, i.operation.target? = some target →
    0 ≤ target ∧ target ≤ m.program.size
  pc_nonneg : 0 ≤ m.pc
  pc_le : m.pc ≤ m.program.size
  steps_nonneg : 0 ≤ m.steps
  steps_le : m.steps ≤ stepLimit
  zero : m.registers.cells.get Register.zero = 0
  fault : m.fault.isSome ↔ m.status = .error

theorem error_eq_nil_iff (m : Machine) : m.error = [] ↔ m.fault = none := by
  cases h : m.fault with
  | none => simp [error, h]
  | some f => simp [error, h, f.message_ne_nil]

variable {m : Machine}

theorem halt_sound (h : m.Sound) (hm : m.status = .ready) : m.halt.Sound :=
  { h with fault := by simpa [halt, hm] using h.fault }

theorem fail_sound (h : m.Sound) (f : Fault) : (m.fail f).Sound :=
  { h with fault := by simp [fail] }

theorem countStep_sound (h : m.Sound) (hs : m.steps < stepLimit) : m.countStep.Sound :=
  { h with
    steps_nonneg := Int.le_add_one h.steps_nonneg
    steps_le := hs }

theorem Frame.sound {m' : Machine} (frame : Frame m m') (h : m.Sound)
    (hpc : 0 ≤ m'.pc ∧ m'.pc ≤ m.program.size) : m'.Sound where
  targets := by
    rw [frame.program]
    exact h.targets
  pc_nonneg := hpc.1
  pc_le := by
    rw [frame.program]
    exact hpc.2
  steps_nonneg := frame.steps ▸ h.steps_nonneg
  steps_le := frame.steps ▸ h.steps_le
  zero := frame.zero.trans h.zero
  fault := by
    rw [frame.fault, frame.status]
    exact h.fault

/-- One operation of the program keeps the invariant. A target is in range
since its instruction belongs to the program. -/
theorem execute_sound (h : m.Sound) (hm : m.status = .ready) {i : Instruction}
    (hi : m.instruction? = some i) : (m.execute i.operation).Sound := by
  obtain ⟨hpc, hlt, hmem⟩ := Program.at?_eq_some hi
  have ho := execute_outcome m i.operation
  generalize m.execute i.operation = m' at ho
  cases ho with
  | refused _ => exact fail_sound h _
  | exit _ _ => exact halt_sound h hm
  | next frame hnext =>
    apply frame.sound h
    rcases hnext with hnext | ⟨l, hleap⟩
    · omega
    · exact h.targets i hmem _ hleap.target?_eq

theorem step_sound (h : m.Sound) : m.step.Sound := by
  have ht := step_transition m
  generalize m.step = m' at ht
  cases ht with
  | stopped _ => exact h
  | finished hm _ => exact halt_sound h hm
  | expired _ _ _ => exact fail_sound h _
  | performed hm hi hs => exact execute_sound (countStep_sound h hs) hm hi

theorem stepN_sound (n : Nat) (h : m.Sound) : (stepN n m).Sound := by
  induction n generalizing m with
  | zero => exact h
  | succ n ih => exact ih (step_sound h)

theorem start_sound {source : Text} {p : Program} (h : load source = .ok p) (o : Overrides) :
    (start p source o).Sound where
  targets := fun _ hi _ ht => load_target_range h hi ht
  pc_nonneg := Int.le_refl 0
  pc_le := Int.natCast_nonneg _
  steps_nonneg := Int.le_refl 0
  steps_le := by simp [start, stepLimit]
  zero := o.registerFile_zero
  fault := by simp [start]

theorem create_sound (source : Text) (o : Overrides) : (create source o).Sound := by
  unfold create
  cases h : load source with
  | ok p => exact start_sound h o
  | error e =>
    exact {
      targets := fun _ hi => absurd hi List.not_mem_nil
      pc_nonneg := Int.le_refl 0
      pc_le := Int.natCast_nonneg _
      steps_nonneg := Int.le_refl 0
      steps_le := by simp [stepLimit]
      zero := rfl
      fault := by simp }

/-- Every machine reached from a source stays inside its program and its
step limit, stores zero in `$zero`, and has a message exactly if it failed.
A source that does not load is a failed machine over no instructions. -/
theorem reached_bounds (source : Text) (o : Overrides) (n : Nat) :
    let m := stepN n (create source o)
    0 ≤ m.pc ∧ m.pc ≤ m.program.size ∧ 0 ≤ m.steps ∧ m.steps ≤ stepLimit ∧
      m.registers.cells.get Register.zero = 0 ∧ (m.error = [] ↔ m.status ≠ .error) ∧
      ∀ e, load source = .error e → m.status = .error ∧ m.program.size = 0 := by
  intro m
  have h : m.Sound := stepN_sound n (create_sound source o)
  have herror : m.error = [] ↔ m.status ≠ .error := by
    rw [error_eq_nil_iff, ne_eq, ← h.fault]
    simp
  have hfailed : ∀ e, load source = .error e → m.status = .error ∧ m.program.size = 0 := by
    intro e he
    have hstopped : (create source o).status = .error := by simp [create, he]
    have hm : m = create source o := stepN_of_not_ready n (by simp [hstopped])
    rw [hm]
    exact ⟨hstopped, by simp [create, he, Program.size]⟩
  exact ⟨h.pc_nonneg, h.pc_le, h.steps_nonneg, h.steps_le, h.zero, herror, hfailed⟩

end Machine

end MipsStepper
