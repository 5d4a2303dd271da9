import MipsStepper.Proofs.AccessHistory
import MipsStepper.Proofs.LabelResolution
import MipsStepper.Proofs.Reachable

/-!
# The footprint of an instruction

A step that leaves its machine ready has executed one instruction and shows
what this can reach: its destination, the cell at its address, the end of the
output, and one more entry of each touched list. Everything else is as before.
Output and touched lists lose nothing and keep their order, so they only grow
at their ends, however many steps are taken and however the last one ends.
-/

set_option autoImplicit false

namespace MipsStepper
open Text (ofString)

def AppendsOne {α : Type} (xs ys : List α) : Prop := ys = xs ∨ ∃ x, x ∉ xs ∧ ys = xs ++ [x]

section Lists
variable {α : Type} {xs ys : List α}

theorem AppendsOne.isPrefix (h : AppendsOne xs ys) : xs <+: ys := by
  rcases h with rfl | ⟨x, -, rfl⟩
  · exact List.prefix_rfl
  · exact List.prefix_append xs [x]

theorem appendsOne_appendNew [DecidableEq α] (xs : List α) (x : Option α) :
    AppendsOne xs (x.elim xs (appendNew xs)) := by
  cases x with
  | none => exact .inl rfl
  | some x =>
    by_cases h : x ∈ xs
    · exact .inl (by simp [appendNew, h])
    · exact .inr ⟨x, h, by simp [appendNew, h]⟩

end Lists

def Kind.assigning : List Kind := [.li, .la, .move, .addi, .add, .sub, .lw]

theorem Operation.kind_assigning {o : Operation} {r : Register} (h : o.rd = some r) :
    o.kind ∈ Kind.assigning := by
  cases o with
  | arith op rd rs rt => cases op <;> simp [kind, Kind.assigning]
  | li | la | move | addi | lw => simp [kind, Kind.assigning]
  | _ => cases h

def Program.Decoded (p : Program) : Prop :=
  ∀ i ∈ p.instructions, ∃ line, i = Instruction.decode p.symbols line

theorem load_decoded {source : Text} {p : Program} (h : load source = .ok p) : p.Decoded :=
  fun i hi => ⟨i.text, (load_decode h hi).symm⟩

namespace Machine

/-- The output grows at its end, and only a service that prints makes it grow. -/
def Prints (m : Machine) (o : Operation) (m' : Machine) : Prop :=
  ∃ printed, m'.output = m.output ++ printed ∧
    (printed ≠ [] → o.kind = .syscall ∧ m.value (some Register.v0) ∈ [1, 4, 11])

/-- What an operation that goes on leaves of the machine it finds. -/
structure Footprint (m : Machine) (o : Operation) (m' : Machine) : Prop where
  source : m'.source = m.source
  program : m'.program = m.program
  register (r : Register) : m'.registers.cells.get r ≠ m.registers.cells.get r →
    o.rd = some r ∧ o.kind ∈ Kind.assigning
  cell (a : Word) : m'.memory.cells[a]? ≠ m.memory.cells[a]? →
    o.kind = .sw ∧ o.memOperand?.map m.effectiveAddress = some a
  output : Prints m o m'
  touchedRegisters : AppendsOne m.touchedRegisters m'.touchedRegisters
  touchedMemory : AppendsOne m.touchedMemory m'.touchedMemory
  steps : m'.steps = m.steps + 1
  pc : m'.pc = m.pc + 1 ∨ ∃ l, Leaps m o l m'.pc

theorem Leaps.index?_eq {m : Machine} {o : Operation} {l : Text} {index : Int}
    (h : Leaps m o l index) {s : Symbols} (ho : o.ResolvedBy s) : s.index? l = some index := by
  cases h with
  | branch taken => exact ho.symm
  | jump => exact ho

theorem Leaps.of_countStep {m : Machine} {o : Operation} {l : Text} {index : Int}
    (h : Leaps m.countStep o l index) : Leaps m o l index := by
  cases h with
  | branch taken => exact .branch taken
  | jump => exact .jump

theorem serviceOfCode_prints {code : Word} {s : Service} (h : Service.ofCode? code = some s)
    (hs : s ≠ .exit) : code ∈ [1, 4, 11] := by
  unfold Service.ofCode? at h
  split_ifs at h with h1 h4 h10 h11 <;> simp_all

theorem printed_ne_nil {m : Machine} {o : Operation} (h : m.printed o ≠ []) :
    o.kind = .syscall ∧ m.value (some Register.v0) ∈ [1, 4, 11] := by
  cases o with
  | syscall =>
    simp only [printed] at h
    cases hs : Service.ofCode? (m.value (some Register.v0)) with
    | none => simp [hs] at h
    | some s =>
      have hne : s ≠ .exit := by
        rintro rfl
        simp [hs, servedText] at h
      exact ⟨rfl, serviceOfCode_prints hs hne⟩
  | _ => exact absurd rfl h

theorem execute_prints (m : Machine) (o : Operation) : Prints m o (m.execute o) := by
  rw [execute_eq_act]
  exact ⟨m.printed o, rfl, printed_ne_nil⟩

theorem Outcome.pc_of_ready {m m' : Machine} {o : Operation} (h : Outcome m o m')
    (hm' : m'.status = .ready) : m'.pc = m.pc + 1 ∨ ∃ l, Leaps m o l m'.pc := by
  cases h with
  | refused _ => cases hm'
  | exit _ _ => cases hm'
  | next _ hpc => exact hpc

section Steps
variable {m : Machine}

theorem footprint_of_step_ready (h : m.step.status = .ready) :
    ∃ i, m.instruction? = some i ∧ Footprint m i.operation m.step := by
  have hexecutes := executes_of_step_ready h
  obtain ⟨i, hi, hstep⟩ := step_of_executes hexecutes
  have hexecution : m.execution? = some ⟨m, i.operation⟩ := by
    rw [execution?, if_pos hexecutes, hi]
    rfl
  have heffects := (step_effects hexecution).2
  have horigin := step_origin m
  have hsteps := step_steps m
  rw [hexecutes] at hsteps
  refine ⟨i, hi, ?_⟩
  constructor
  · exact horigin.1
  · exact horigin.2
  · intro r hr
    have hdestination := Classical.not_not.mp (mt (heffects.register r) hr)
    have hrd := (Option.filter_eq_some_iff.mp hdestination).1
    exact ⟨hrd, Operation.kind_assigning hrd⟩
  · intro a ha
    rw [heffects.cell] at ha
    split_ifs at ha with hstores
    · exact of_decide_eq_true hstores
    · exact absurd rfl ha
  · rw [hstep]
    exact execute_prints m.countStep i.operation
  · rw [heffects.touchedRegisters]
    exact appendsOne_appendNew _ _
  · rw [heffects.touchedMemory]
    exact appendsOne_appendNew _ _
  · exact hsteps
  · rw [hstep] at h ⊢
    rcases (execute_outcome m.countStep i.operation).pc_of_ready h with hnext | ⟨l, hleap⟩
    · exact .inl hnext
    · exact .inr ⟨l, hleap.of_countStep⟩

theorem step_zero (m : Machine) :
    m.step.registers.cells.get Register.zero = m.registers.cells.get Register.zero := by
  have ht := step_transition m
  generalize m.step = m' at ht
  cases ht with
  | stopped _ => rfl
  | finished _ _ => rfl
  | expired _ _ _ => rfl
  | @performed _ i _ _ =>
    have ho := execute_outcome m.countStep i.operation
    generalize m.countStep.execute i.operation = m' at ho
    cases ho with
    | refused _ => rfl
    | exit _ _ => rfl
    | next frame _ => exact frame.zero

/-- A file that is cleared at the start need not be cleared after a step. -/
theorem step_clearZero (h : m.registers.cells.get Register.zero = 0) :
    m.step.registers.clearZero = m.step.registers := by
  have hzero := (step_zero m).trans h
  generalize m.step.registers = f at hzero
  obtain ⟨cells⟩ := f
  rw [RegisterFile.clearZero, ← hzero]
  exact congrArg RegisterFile.mk (Vector.set_getElem_self (by decide : 0 < 32))

structure Grows (m m' : Machine) : Prop where
  output : m.output <+: m'.output
  touchedRegisters : m.touchedRegisters <+: m'.touchedRegisters
  touchedMemory : m.touchedMemory <+: m'.touchedMemory

theorem step_output (m : Machine) : m.output <+: m.step.output := by
  have ht := step_transition m
  generalize m.step = m' at ht
  cases ht with
  | stopped _ => exact List.prefix_rfl
  | finished _ _ => exact List.prefix_rfl
  | expired _ _ _ => exact List.prefix_rfl
  | @performed _ i _ _ =>
    obtain ⟨printed, hprinted, -⟩ := execute_prints m.countStep i.operation
    rw [hprinted]
    exact List.prefix_append m.output printed

theorem step_grows (m : Machine) : Grows m m.step where
  output := step_output m
  touchedRegisters := touchedRegisters_logs m ▸ (appendsOne_appendNew _ _).isPrefix
  touchedMemory := touchedMemory_logs m ▸ (appendsOne_appendNew _ _).isPrefix

theorem stepN_grows (n : Nat) (m : Machine) : Grows m (stepN n m) := by
  induction n generalizing m with
  | zero => exact ⟨List.prefix_rfl, List.prefix_rfl, List.prefix_rfl⟩
  | succ n ih =>
    have hstep := step_grows m
    have hrest := ih m.step
    exact ⟨hstep.output.trans hrest.output, hstep.touchedRegisters.trans hrest.touchedRegisters,
      hstep.touchedMemory.trans hrest.touchedMemory⟩

/-- The frame of a step that goes on, and of any number of steps. In a decoded
program a leap is to the index of the label that it names. -/
theorem step_frame :
    (∀ m : Machine, m.status = .ready → m.step.status = .ready →
      ∃ i, m.instruction? = some i ∧ Footprint m i.operation m.step ∧
        (m.program.Decoded → ∀ l index, Leaps m i.operation l index →
          m.program.symbols.index? l = some index)) ∧
    ∀ (m : Machine) (n : Nat), Grows m (stepN n m) := by
  refine ⟨fun m _ hstep => ?_, fun m n => stepN_grows n m⟩
  obtain ⟨i, hi, hfootprint⟩ := footprint_of_step_ready hstep
  refine ⟨i, hi, hfootprint, fun hdecoded l index hleap => ?_⟩
  obtain ⟨line, hline⟩ := hdecoded i (Program.at?_eq_some hi).2.2
  exact hleap.index?_eq (hline ▸ Instruction.decode_resolved _ line)

/-- The branch of a loop that stores to and loads from an address given by the
register it loads into. The branch leads back, and nothing else is new. -/
theorem step_frame_taken_branch :
    let source := ofString "loop: sw $t0, 4($t0)\nlw $t0, 4($t0)\nbeq $t0, $t1, loop"
    let m := stepN 2 (create source {})
    let o := Operation.branch .equal (some 8) (some 9) (ofString "loop") (some 0)
    m.status = .ready ∧ m.step.status = .ready ∧ m.program.Decoded ∧ m.pc = 2 ∧
      Footprint m o m.step ∧ Leaps m o (ofString "loop") 0 ∧ m.step.pc = 0 ∧
      m.program.symbols.index? (ofString "loop") = some 0 ∧ Grows m (stepN 3 m) := by
  intro source m o
  obtain ⟨hlines, hm, hstep, hpc, ho, htaken, hnext⟩ : (Draft.ofSource source).lines ≠ [] ∧
      m.status = .ready ∧ m.step.status = .ready ∧ m.pc = 2 ∧
      m.instruction?.map Instruction.operation = some o ∧
      Condition.equal.holds (m.value (some 8)) (m.value (some 9)) = true ∧ m.step.pc = 0 := by
    decide +kernel
  have hload : load source = .ok (Draft.ofSource source).program := load_of_lines rfl hlines
  have hdecoded : m.program.Decoded := by
    rw [(stepN_origin 2 (create source {})).2, create_of_load hload]
    exact load_decoded hload
  obtain ⟨i, hi, hfootprint, hleaps⟩ := step_frame.1 m hm hstep
  rw [hi, Option.map_some, Option.some.injEq] at ho
  rw [ho] at hfootprint hleaps
  have hleap : Leaps m o (ofString "loop") 0 := .branch htaken
  exact ⟨hm, hstep, hdecoded, hpc, hfootprint, hleap, hnext, hleaps hdecoded _ _ hleap,
    step_frame.2 m 3⟩

end Steps

end Machine

end MipsStepper
