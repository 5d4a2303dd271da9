import MipsStepper.Proofs.Effects
import MipsStepper.Proofs.Ending

/-!
# What a stop leaves behind

A step that stops a ready machine has one of six reasons: the program is at its
end, the budget is spent, or the instruction exits or is refused in one of four
ways. All six leave the machine as the step found it. Only the status tells of
the stop, with the message of a failure, and the step count of an instruction
that was executed.
-/

set_option autoImplicit false

namespace MipsStepper
open Text (ofString)

namespace Machine

/-- What a machine keeps that does nothing but change its status, its fault
or its step count. -/
structure Intact (m m' : Machine) : Prop extends Rests m m' where
  output : m'.output = m.output
  pc : m'.pc = m.pc
  program : m'.program = m.program
  source : m'.source = m.source

inductive Finishes (m : Machine) : Prop where
  | programEnd (h : m.pc < 0 ∨ m.program.size ≤ m.pc) : Finishes m
  | exit {i : Instruction} (hi : m.instruction? = some i) (hs : m.steps < stepLimit)
      (ho : i.operation = .syscall) (hv : m.value (some Register.v0) = 10) : Finishes m

inductive FailsWith (m : Machine) : Text → Prop where
  | timeout {i : Instruction} (hi : m.instruction? = some i) (hs : stepLimit ≤ m.steps) :
      FailsWith m (ofString "MIPS execution timed out.")
  | defect {i : Instruction} (hi : m.instruction? = some i) (hs : m.steps < stepLimit)
      (hk : i.operation.kind = .invalid ∨ i.operation.kind = .unsupported) :
      FailsWith m i.error
  | label {i : Instruction} {c : Condition} {rs rt : Option Register} {l : Text}
      {target : Option Int} (hi : m.instruction? = some i) (hs : m.steps < stepLimit)
      (ho : i.operation = .branch c rs rt l target) (taken : c.holds (m.value rs) (m.value rt))
      (missing : ∀ n, target = some n → n < 0) :
      FailsWith m (ofString "Unknown label: " ++ l)
  | service {i : Instruction} (hi : m.instruction? = some i) (hs : m.steps < stepLimit)
      (ho : i.operation = .syscall) (hv : m.value (some Register.v0) ∉ [1, 4, 10, 11]) :
      FailsWith m (ofString "Unsupported syscall: " ++ (m.value (some Register.v0)).decimal)

section Stops
variable {m : Machine}

theorem fail_intact (m : Machine) (f : Fault) : Intact m (m.fail f) :=
  { registers := rfl, memory := rfl, touchedRegisters := rfl, touchedMemory := rfl
    output := rfl, pc := rfl, program := rfl, source := rfl }

theorem halt_intact (m : Machine) : Intact m m.halt :=
  { registers := rfl, memory := rfl, touchedRegisters := rfl, touchedMemory := rfl
    output := rfl, pc := rfl, program := rfl, source := rfl }

theorem Intact.instruction?_eq {m' : Machine} (h : Intact m m') :
    m'.instruction? = m.instruction? := by
  rw [instruction?, instruction?, h.program, h.pc]

theorem executes_iff : m.executes ↔
    m.status = .ready ∧ 0 ≤ m.pc ∧ m.pc < m.program.size ∧ m.steps < stepLimit := by
  have hat := Program.at?_eq_none_iff m.program m.pc
  have hsome : m.instruction?.isSome ↔ 0 ≤ m.pc ∧ m.pc < m.program.size := by
    rw [Option.isSome_iff_ne_none, ne_eq, instruction?, hat]
    omega
  rw [executes, decide_eq_true_eq, hsome, and_assoc]

/-- The count that an instruction is executed under plays no part in its refusal. -/
theorem Refused.failsWith {i : Instruction} (hi : m.instruction? = some i)
    (hs : m.steps < stepLimit) {f : Fault} (h : Refused m.countStep i.operation f) :
    m.FailsWith f.message := by
  generalize ho : i.operation = o at h
  cases h with
  | defect d =>
    have hk : i.operation.kind = .invalid ∨ i.operation.kind = .unsupported := by
      rw [ho]
      cases d <;> simp [Operation.kind]
    have herror : i.error = d.message := by simp [Instruction.error, ho, Operation.defect?]
    rw [Fault.message, ← herror]
    exact .defect hi hs hk
  | label taken missing => exact .label hi hs ho taken missing
  | service unknown => exact .service hi hs ho (serviceOfCode_none unknown)

theorem step_of_refused (hm : m.status = .ready) {i : Instruction} (hi : m.instruction? = some i)
    (hs : m.steps < stepLimit) {f : Fault} (h : Refused m.countStep i.operation f) :
    m.step = m.countStep.fail f := by
  rw [step_of_instruction hm hi, if_neg (Int.not_le.mpr hs), h.execute_eq]

theorem Finishes.step_halts (h : m.Finishes) (hm : m.status = .ready) :
    m.step.status = .halted := by
  cases h with
  | programEnd h =>
    have hi : m.instruction? = none := (Program.at?_eq_none_iff m.program m.pc).mpr h
    rw [step_of_end hm hi]
    rfl
  | @exit i hi hs ho hv =>
    rw [step_of_instruction hm hi, if_neg (Int.not_le.mpr hs), ho, @execute_exit m.countStep hv]
    rfl

theorem FailsWith.step_fails {t : Text} (h : m.FailsWith t) (hm : m.status = .ready) :
    m.step.status = .error ∧ m.step.error = t := by
  cases h with
  | timeout hi hs =>
    rw [step_of_instruction hm hi, if_pos hs]
    exact ⟨rfl, rfl⟩
  | @defect i hi hs hk =>
    obtain ⟨d, hd⟩ := Operation.exists_defect hk
    have hrefused : Refused m.countStep i.operation (.defect d) := hd ▸ .defect d
    rw [step_of_refused hm hi hs hrefused]
    exact ⟨rfl, by simp [error, fail, Fault.message, Instruction.error, hd, Operation.defect?]⟩
  | @label i c rs rt l target hi hs ho taken missing =>
    have hrefused : Refused m.countStep i.operation (.unknownLabel l) := ho ▸ .label taken missing
    rw [step_of_refused hm hi hs hrefused]
    exact ⟨rfl, rfl⟩
  | @service i hi hs ho hv =>
    have hnone : Service.ofCode? (m.value (some Register.v0)) = none := by
      simp_all [Service.ofCode?]
    have hrefused : Refused m.countStep i.operation
        (.unsupportedService (m.value (some Register.v0))) :=
      ho ▸ .service (m := m.countStep) hnone
    rw [step_of_refused hm hi hs hrefused]
    exact ⟨rfl, rfl⟩

theorem step_stops (hm : m.status = .ready) (hstop : m.step.status ≠ .ready) :
    Intact m m.step ∧
      (m.step.status = .halted ∧ m.Finishes ∧ m.step.fault = m.fault ∨
        m.step.status = .error ∧ m.FailsWith m.step.error) := by
  have ht := step_transition m
  generalize m.step = m' at ht hstop
  cases ht with
  | stopped h => exact absurd hm h
  | finished _ hi =>
    have hend := (Program.at?_eq_none_iff m.program m.pc).mp hi
    exact ⟨halt_intact m, .inl ⟨rfl, .programEnd hend, rfl⟩⟩
  | expired _ hi hs => exact ⟨fail_intact m _, .inr ⟨rfl, .timeout hi hs⟩⟩
  | @performed _ i hi hs =>
    have ho := execute_outcome m.countStep i.operation
    generalize m.countStep.execute i.operation = m' at ho hstop
    cases ho with
    | @refused f h => exact ⟨{ fail_intact m f with }, .inr ⟨rfl, h.failsWith hi hs⟩⟩
    | exit hsys hv => exact ⟨{ halt_intact m with }, .inl ⟨rfl, .exit hi hs hsys hv, rfl⟩⟩
    | next frame _ => exact absurd (frame.status.trans hm) hstop

/-- A step that stops a ready machine is atomic. It leaves the registers, the
memory, the output, the touched lists, the program and the program counter as
it found them, so the instruction that stopped is still the next one. The
count is that of an executed instruction, and the message is new if the machine
fails. It halts or fails for the reasons that are listed and for no others. -/
theorem step_stop (hm : m.status = .ready) :
    (m.step.status = .halted ↔ m.Finishes) ∧
      (∀ t, m.step.status = .error ∧ m.step.error = t ↔ m.FailsWith t) ∧
      (m.step.status ≠ .ready →
        Intact m m.step ∧ m.step.instruction? = m.instruction? ∧
        (m.step.steps =
          if 0 ≤ m.pc ∧ m.pc < m.program.size ∧ m.steps < stepLimit then m.steps + 1 else m.steps) ∧
        (m.step.status = .halted → m.step.error = m.error)) := by
  have hhalts : m.step.status = .halted → m.Finishes ∧ m.step.fault = m.fault := by
    intro h
    rcases (step_stops hm (by simp [h])).2 with ⟨-, hstop⟩ | ⟨herror, -⟩
    · exact hstop
    · simp [h] at herror
  have hfails : m.step.status = .error → m.FailsWith m.step.error := by
    intro h
    rcases (step_stops hm (by simp [h])).2 with ⟨hhalted, -⟩ | ⟨-, hstop⟩
    · simp [h] at hhalted
    · exact hstop
  refine ⟨⟨fun h => (hhalts h).1, fun h => h.step_halts hm⟩,
    fun t => ⟨?_, fun h => h.step_fails hm⟩, fun hstop => ?_⟩
  · rintro ⟨herror, rfl⟩
    exact hfails herror
  · have hintact := (step_stops hm hstop).1
    refine ⟨hintact, hintact.instruction?_eq, ?_, fun h => ?_⟩
    · have hcount := step_steps m
      have hexecutes := @executes_iff m
      split_ifs with hin
      · rw [hcount, hexecutes.mpr ⟨hm, hin⟩]
        rfl
      · rw [hcount, Bool.eq_false_iff.mpr fun hx => hin (hexecutes.mp hx).2]
        exact Int.add_zero m.steps
    · rw [error, (hhalts h).2, error]

/-- A branch to a label that no line defines is the third instruction of a
loop that has stored. It fails in its second round, and what the rounds have
done is all there. -/
theorem step_stop_lost_branch :
    let source := ofString
      "loop: addi $t0, $t0, 4\nsw $t0, 8($t0)\nbeq $t0, $t1, lost\nj loop"
    let o : Overrides := { registers := Std.ExtTreeMap.ofList [(ofString "$t1", 8)] compare }
    let m := stepN 6 (create source o)
    m.status = .ready ∧ m.pc = 2 ∧ m.steps = 6 ∧ m.step.status = .error ∧
      m.FailsWith m.step.error ∧ m.step.error = ofString "Unknown label: lost" ∧
      Intact m m.step ∧ m.step.instruction? = m.instruction? ∧ m.step.steps = 7 := by
  intro source o m
  obtain ⟨hm, hpc, hsteps, hsize, hstatus, herror⟩ : m.status = .ready ∧ m.pc = 2 ∧ m.steps = 6 ∧
      m.program.size = 4 ∧ m.step.status = .error ∧
      m.step.error = ofString "Unknown label: lost" := by decide +kernel
  obtain ⟨-, hfails, hstop⟩ := step_stop hm
  obtain ⟨hintact, hsame, hcount, -⟩ := hstop (by simp [hstatus])
  rw [hpc, hsize, hsteps, if_pos (by decide)] at hcount
  exact ⟨hm, hpc, hsteps, hstatus, (hfails _).mp ⟨hstatus, rfl⟩, herror, hintact, hsame, hcount⟩

end Stops

end Machine

end MipsStepper
