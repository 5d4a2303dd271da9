import MipsStepper.Proofs.Reachable
import MipsStepper.Proofs.Termination

/-!
# How runs end

A run of a loaded source has six endings. Each is said of the final machine
alone: of its status, the instruction at its program counter, its registers
and its message. They exclude each other, since the final machine shows which
one it is, and no run ends otherwise.
-/

set_option autoImplicit false

namespace MipsStepper
open Text (ofString)

inductive Ending where
  | programEnd
  | exit
  | defect
  | unknownLabel
  | unsupportedService
  | stepLimit
deriving DecidableEq

namespace Machine

def EndsBy (m : Machine) : Ending → Prop
  | .programEnd => m.status = .halted ∧ m.pc = m.program.size
  | .exit =>
    m.status = .halted ∧ (∃ i, m.instruction? = some i ∧ i.operation = .syscall) ∧
      m.value (some Register.v0) = 10
  | .defect =>
    m.status = .error ∧ ∃ i, m.instruction? = some i ∧
      (i.operation.kind = .invalid ∨ i.operation.kind = .unsupported) ∧ m.error = i.error
  | .unknownLabel =>
    m.status = .error ∧ ∃ i c rs rt l target, m.instruction? = some i ∧
      i.operation = .branch c rs rt l target ∧ c.holds (m.value rs) (m.value rt) ∧
      ¬ Draft.TextLabel (m.source.splitOn '\n') l ∧ m.error = ofString "Unknown label: " ++ l
  | .unsupportedService =>
    m.status = .error ∧ (∃ i, m.instruction? = some i ∧ i.operation = .syscall) ∧
      m.value (some Register.v0) ∉ [1, 4, 10, 11] ∧
      m.error = ofString "Unsupported syscall: " ++ (m.value (some Register.v0)).decimal
  | .stepLimit =>
    m.status = .error ∧ m.error = ofString "MIPS execution timed out." ∧
      m.steps = stepLimit ∧ 0 ≤ m.pc ∧ m.pc < m.program.size

/-- The ending of a stopped machine, read off its status, its message and
the instruction at its program counter. -/
def ending (m : Machine) : Ending :=
  let kind? := m.instruction?.map fun i => i.operation.kind
  if m.status = .halted then if kind? = none then .programEnd else .exit
  else if m.error = ofString "MIPS execution timed out." then .stepLimit
  else if kind? = some .syscall then .unsupportedService
  else if kind? = some .beq ∨ kind? = some .bne then .unknownLabel
  else .defect

theorem instruction?_program_end {m : Machine} (h : m.pc = m.program.size) :
    m.instruction? = none :=
  (Program.at?_eq_none_iff m.program m.pc).mpr (.inr (Int.le_of_eq h.symm))

theorem defect_ne_timeout (d : Defect) :
    d.message ≠ ofString "MIPS execution timed out." := by
  cases d <;> simp [Defect.message, Text.ofString_eq]

theorem ending_of_endsBy {m : Machine} {e : Ending} (h : m.EndsBy e) : m.ending = e := by
  cases e with
  | programEnd =>
    obtain ⟨hs, hpc⟩ := h
    simp [ending, hs, instruction?_program_end hpc]
  | exit =>
    obtain ⟨hs, ⟨i, hi, _⟩, _⟩ := h
    simp [ending, hs, hi]
  | defect =>
    obtain ⟨hs, i, hi, hk, herror⟩ := h
    obtain ⟨d, hd⟩ := Operation.exists_defect hk
    have hmessage : m.error = d.message := by
      simp [herror, Instruction.error, hd, Operation.defect?]
    have hne := hmessage ▸ defect_ne_timeout d
    rcases hk with hk | hk <;> simp [ending, hs, hi, hk, hne]
  | unknownLabel =>
    obtain ⟨hs, i, c, rs, rt, l, target, hi, ho, _, _, herror⟩ := h
    have hne : m.error ≠ ofString "MIPS execution timed out." := by
      simp [herror, Text.ofString_eq]
    cases c <;> simp [ending, hs, hi, ho, Operation.kind, hne]
  | unsupportedService =>
    obtain ⟨hs, ⟨i, hi, ho⟩, _, herror⟩ := h
    have hne : m.error ≠ ofString "MIPS execution timed out." := by
      simp [herror, Text.ofString_eq]
    simp [ending, hs, hi, ho, Operation.kind, hne]
  | stepLimit =>
    obtain ⟨hs, herror, _⟩ := h
    simp [ending, hs, herror]

/-- A refused operation shows its ending. A branch without a usable target
has a label that no line defines, since the loader resolved all the others. -/
theorem refused_endsBy {m : Machine} (hload : load m.source = .ok m.program) {i : Instruction}
    (hi : m.instruction? = some i) {f : Fault} (h : Refused m i.operation f) :
    ∃ e, (m.fail f).EndsBy e := by
  generalize ho : i.operation = o at h
  cases h with
  | defect d =>
    refine ⟨.defect, rfl, i, hi, ?_, ?_⟩
    · rw [ho]
      cases d <;> simp [Operation.kind]
    · simp [Instruction.error, ho, Operation.defect?, error, fail, Fault.message]
  | @label c rs rt l target taken missing =>
    have hresolved := load_resolved hload (Program.at?_eq_some hi).2.2
    simp only [ho, Operation.ResolvedBy] at hresolved
    have hlost := load_label_missing hload (hresolved ▸ missing)
    exact ⟨.unknownLabel, rfl, i, c, rs, rt, l, target, hi, ho, taken, hlost, rfl⟩
  | service unknown =>
    exact ⟨.unsupportedService, rfl, ⟨i, hi, ho⟩, serviceOfCode_none unknown, rfl⟩

/-- The last step of a run. The final machine still has the registers and
the instruction that the step found, since a machine that stops keeps both. -/
theorem step_endsBy {m : Machine} (h : m.Sound) (hload : load m.source = .ok m.program)
    (hm : m.status = .ready) (hstop : m.step.status ≠ .ready) : ∃ e, m.step.EndsBy e := by
  have ht := step_transition m
  generalize m.step = m' at ht hstop
  cases ht with
  | stopped hm' => exact absurd hm hm'
  | finished _ hi =>
    have hend := (Program.at?_eq_none_iff m.program m.pc).mp hi
    have h0 := h.pc_nonneg
    have h1 := h.pc_le
    have hpc : m.pc = m.program.size := by omega
    exact ⟨.programEnd, rfl, hpc⟩
  | expired _ hi hs =>
    obtain ⟨h0, hlt, _⟩ := Program.at?_eq_some hi
    have hsteps : m.steps = stepLimit := Int.le_antisymm h.steps_le hs
    exact ⟨.stepLimit, rfl, rfl, hsteps, h0, hlt⟩
  | @performed _ i hi _ =>
    have ho := execute_outcome m.countStep i.operation
    generalize m.countStep.execute i.operation = m' at ho hstop
    cases ho with
    | refused hr => exact refused_endsBy (m := m.countStep) hload hi hr
    | exit hsys hv => exact ⟨.exit, rfl, ⟨i, hi, hsys⟩, hv⟩
    | next frame _ => exact absurd (frame.status.trans hm) hstop

theorem start_run_endsBy {source : Text} {p : Program} (h : load source = .ok p)
    (o : Overrides) : ∃ e, (start p source o).run.EndsBy e := by
  obtain ⟨j, hready, hlast⟩ := run_last_step (m := start p source o) rfl
  have horigin := stepN_origin j (start p source o)
  have hload : load (stepN j (start p source o)).source =
      .ok (stepN j (start p source o)).program := by
    rw [horigin.1, horigin.2]
    exact h
  have hstop := run_status (start p source o)
  rw [hlast] at hstop ⊢
  exact step_endsBy (stepN_sound j (start_sound h o)) hload hready hstop

/-- A run of a loaded source, under any overrides, keeps the source and its
program and ends in exactly one of six ways. -/
theorem run_ending {source : Text} {p : Program} (h : load source = .ok p) (o : Overrides) :
    let m := (create source o).run
    m.source = source ∧ m.program = p ∧ ∃! e, m.EndsBy e := by
  have hcreate : create source o = start p source o := by simp [create, h]
  rw [hcreate]
  have horigin := run_origin (start p source o)
  obtain ⟨e, he⟩ := start_run_endsBy h o
  refine ⟨horigin.1, horigin.2, e, he, ?_⟩
  intro e' he'
  exact (ending_of_endsBy he').symm.trans (ending_of_endsBy he)

theorem run_ending_lost_branch :
    let source := ofString
      ".data\nlost: .word 1\n.text\nnext: addi $t0, $t0, 1\nbne $t0, $t1, next\nbeq $t0, $t1, lost"
    let o : Overrides := { registers := Std.ExtTreeMap.ofList [(ofString "$t1", 3)] compare }
    ∃ p, load source = .ok p ∧ (create source o).run.program = p ∧
      (∃! e, (create source o).run.EndsBy e) ∧ (create source o).run.ending = .unknownLabel := by
  intro source o
  have hlines : (Draft.ofSource source).lines ≠ [] := by decide +kernel
  have h : load source = .ok (Draft.ofSource source).program := by simp [load, hlines]
  have hr := run_ending h o
  exact ⟨_, h, hr.2.1, hr.2.2, by decide +kernel⟩

end Machine

end MipsStepper
