import MipsStepper.Proofs.Placement
import MipsStepper.Proofs.RegisterNumbers

/-!
# Registers outside the table

An operand that is no register is read as zero and takes no value, and
`$zero` is no different. To ground an operation is to put `$zero` in the place
of every such operand. A machine does not tell an operation from its grounded
one, so it executes two programs alike that are the same once grounded.
-/

set_option autoImplicit false

namespace MipsStepper

namespace Register

def grounded (r : Option Register) : Option Register := some (r.getD zero)

def groundedIndex (i : Int) : Int := if i = -1 then 0 else i

end Register

open Register (grounded groundedIndex)

def Operation.grounded : Operation → Operation
  | .li rd v => .li (Register.grounded rd) v
  | .la rd a => .la (Register.grounded rd) a
  | .move rd rs => .move (Register.grounded rd) (Register.grounded rs)
  | .addi rd rs v => .addi (Register.grounded rd) (Register.grounded rs) v
  | .arith op rd rs rt =>
    .arith op (Register.grounded rd) (Register.grounded rs) (Register.grounded rt)
  | .lw rd x => .lw (Register.grounded rd) x
  | .sw rs x => .sw (Register.grounded rs) x
  | .branch c rs rt l target => .branch c (Register.grounded rs) (Register.grounded rt) l target
  | o => o

namespace Program

def grounded (p : Program) : Program :=
  { p with
    instructions := p.instructions.map fun i => { i with operation := i.operation.grounded } }

def groundedOperations (p : Program) : List Operation :=
  p.instructions.map fun i => i.operation.grounded

/-- Two programs that are the same once they are grounded, but for their
symbols and the texts of their instructions. -/
structure SameGrounded (p p' : Program) : Prop where
  strings : p'.strings = p.strings
  operations : p'.groundedOperations = p.groundedOperations

end Program

def Record.grounded (x : Record) : Record :=
  { x with rd := groundedIndex x.rd, rs := groundedIndex x.rs, rt := groundedIndex x.rt }

namespace Machine

section Operands
variable (m : Machine) (r : Option Register) (i : Int) (v : Word)

theorem value_grounded : m.value (grounded r) = m.value r := by
  cases r <;> rfl

theorem assign_grounded : m.assign (grounded r) v = m.assign r v := by
  cases r <;> rfl

theorem readAt_grounded : m.readAt (groundedIndex i) = m.readAt i := by
  by_cases h : i = -1
  · rw [h]
    rfl
  · rw [groundedIndex, if_neg h]

theorem assignAt_grounded : m.assignAt (groundedIndex i) v = m.assignAt i v := by
  by_cases h : i = -1
  · rw [h]
    rfl
  · rw [groundedIndex, if_neg h]

end Operands

theorem execute_grounded (m : Machine) (o : Operation) : m.execute o.grounded = m.execute o := by
  cases o <;> simp only [Operation.grounded, execute, value_grounded, assign_grounded]

section Records
variable (m : Machine) (x : Record) (code : List Record)

theorem perform_grounded : m.perform x.grounded = m.perform x := by
  have hrd : m.assignAt x.grounded.rd = m.assignAt x.rd :=
    funext fun v => assignAt_grounded m x.rd v
  have hrs : m.readAt x.grounded.rs = m.readAt x.rs := readAt_grounded m x.rs
  have hrt : m.readAt x.grounded.rt = m.readAt x.rt := readAt_grounded m x.rt
  have haddress : m.addressAt x.grounded = m.addressAt x := rfl
  simp only [perform, accumulate, branchAt, hrd, hrs, hrt, haddress]
  rfl

theorem stepAt_grounded : m.stepAt (code.map Record.grounded) = m.stepAt code := by
  have hat : (if 0 ≤ m.pc then (code.map Record.grounded)[m.pc.toNat]? else none) =
      (if 0 ≤ m.pc then code[m.pc.toNat]? else none).map Record.grounded := by
    split <;> simp
  unfold stepAt
  rw [hat]
  cases m.status with
  | ready =>
    dsimp only
    cases if 0 ≤ m.pc then code[m.pc.toNat]? else none with
    | none => rfl
    | some x => simp only [Option.map_some, perform_grounded]
  | halted => rfl
  | error => rfl

theorem stepNAt_grounded (n : Nat) :
    stepNAt (code.map Record.grounded) n m = stepNAt code n m := by
  induction n generalizing m with
  | zero => rfl
  | succ n ih => simp only [stepNAt, stepAt_grounded, ih]

end Records

end Machine

theorem Operation.record_grounded (o : Operation) :
    o.grounded.record.grounded = o.record.grounded := by
  cases o with
  | li rd v => cases rd <;> rfl
  | la rd a => cases rd <;> rfl
  | move rd rs => cases rd <;> cases rs <;> rfl
  | addi rd rs v => cases rd <;> cases rs <;> rfl
  | arith op rd rs rt => cases op <;> cases rd <;> cases rs <;> cases rt <;> rfl
  | lw rd x => cases rd <;> rfl
  | sw rs x => cases rs <;> rfl
  | branch c rs rt l target => cases c <;> cases rs <;> cases rt <;> rfl
  | _ => rfl

namespace Program

theorem grounded_sameGrounded (p : Program) : p.SameGrounded p.grounded where
  strings := rfl
  operations := by
    have htwice : ∀ o : Operation, o.grounded.grounded = o.grounded := by
      intro o
      cases o <;> rfl
    simp [groundedOperations, grounded, Function.comp_def, htwice]

theorem SameGrounded.at? {p p' : Program} (h : p.SameGrounded p') (pc : Int) :
    (p'.at? pc).map (fun i => i.operation.grounded) =
      (p.at? pc).map fun i => i.operation.grounded := by
  have hget := congrArg (fun os => os[pc.toNat]?) h.operations
  simp only [groundedOperations, List.getElem?_map] at hget
  unfold Program.at?
  split
  · exact hget
  · rfl

/-- In records there is no telling which registers the operation has. -/
theorem records_grounded (p : Program) :
    p.grounded.records.map Record.grounded = p.records.map Record.grounded := by
  simp [records, grounded, Instruction.record, Function.comp_def, Operation.record_grounded]

end Program

namespace Machine

section Runs
variable {m : Machine} {source : Text} {p : Program}

theorem step_sameGrounded (h : m.program.SameGrounded p) :
    (m.inProgram source p).step = m.step.inProgram source p := by
  have hat : (m.inProgram source p).instruction?.map (fun i => i.operation.grounded) =
      m.instruction?.map fun i => i.operation.grounded := h.at? m.pc
  have ht := step_transition m
  generalize m.step = m' at ht
  cases ht with
  | stopped hm => exact step_of_not_ready hm
  | finished hm hi =>
    rw [hi, Option.map_none, Option.map_eq_none_iff] at hat
    exact step_of_end hm hat
  | expired hm hi hs =>
    rw [hi, Option.map_some, Option.map_eq_some_iff] at hat
    obtain ⟨i', hi', -⟩ := hat
    have hstep := @step_of_instruction (m.inProgram source p) hm i' hi'
    exact hstep.trans (if_pos hs)
  | @performed hm i hi hs =>
    rw [hi, Option.map_some, Option.map_eq_some_iff] at hat
    obtain ⟨i', hi', hgrounded⟩ := hat
    have hstep := @step_of_instruction (m.inProgram source p) hm i' hi'
    calc (m.inProgram source p).step
      _ = (m.inProgram source p).countStep.execute i'.operation :=
        hstep.trans (if_neg (Int.not_le.mpr hs))
      _ = (m.countStep.inProgram source p).execute i.operation := by
        rw [← execute_grounded, hgrounded, execute_grounded]
        rfl
      _ = (m.countStep.execute i.operation).inProgram source p :=
        @execute_inProgram source p m.countStep h.strings i.operation

theorem stepN_sameGrounded (n : Nat) (h : m.program.SameGrounded p) :
    stepN n (m.inProgram source p) = (stepN n m).inProgram source p := by
  induction n generalizing m with
  | zero => rfl
  | succ n ih =>
    rw [stepN, step_sameGrounded h, stepN]
    apply ih
    rwa [(step_origin m).2]

/-- The bound of a run depends on the step count alone. -/
theorem run_sameGrounded (h : m.program.SameGrounded p) :
    (m.inProgram source p).run = m.run.inProgram source p := by
  rw [run, run, runFor_eq_stepN, runFor_eq_stepN]
  exact stepN_sameGrounded _ h

theorem program_grounded (m : Machine) :
    (∀ n, stepN n { m with program := m.program.grounded } =
      { stepN n m with program := m.program.grounded }) ∧
    run { m with program := m.program.grounded } =
      { m.run with program := m.program.grounded } := by
  have h := m.program.grounded_sameGrounded
  constructor
  · intro n
    calc stepN n { m with program := m.program.grounded }
      _ = stepN n (m.inProgram m.source m.program.grounded) := rfl
      _ = (stepN n m).inProgram m.source m.program.grounded := stepN_sameGrounded n h
      _ = (stepN n m).inProgram (stepN n m).source m.program.grounded := by
        rw [(stepN_origin n m).1]
      _ = { stepN n m with program := m.program.grounded } := rfl
  · calc run { m with program := m.program.grounded }
      _ = (m.inProgram m.source m.program.grounded).run := rfl
      _ = m.run.inProgram m.source m.program.grounded := run_sameGrounded h
      _ = m.run.inProgram m.run.source m.program.grounded := by rw [(run_origin m).1]
      _ = { m.run with program := m.program.grounded } := rfl

theorem create_sameGrounded {source source' : Text} {p p' : Program} (hload : load source = .ok p)
    (hload' : load source' = .ok p') (h : p.SameGrounded p') (o : Overrides) :
    (∀ n, stepN n (create source' o) =
      { stepN n (create source o) with source := source', program := p' }) ∧
    run (create source' o) = { run (create source o) with source := source', program := p' } := by
  have hcreate : create source' o = (create source o).inProgram source' p' := by
    rw [create_of_load hload, create_of_load hload']
    rfl
  have hprogram : (create source o).program.SameGrounded p' := by
    rw [create_of_load hload]
    exact h
  rw [hcreate]
  exact ⟨fun n => stepN_sameGrounded n hprogram, run_sameGrounded hprogram⟩

end Runs

end Machine

end MipsStepper
