import MipsStepper.Instruction.Record
import MipsStepper.Machine.Step

/-!
# Execution by register numbers

A machine that executes records reaches its registers by number, through the
accessors that refuse a number outside the table. The first refusal ends the
execution and leaves no machine.
-/

set_option autoImplicit false

namespace MipsStepper

def Program.records (p : Program) : List Record := p.instructions.map Instruction.record

namespace Machine
open RegisterFile (OutOfRange)

def readAt (m : Machine) (i : Int) : Except OutOfRange Word := m.registers.readAt i

/-- No register and `$zero` are not written at all. -/
def assignAt (m : Machine) (i : Int) (v : Word) : Except OutOfRange Machine :=
  if i = -1 ∨ i = 0 then .ok m
  else do
    let registers ← m.registers.writeAt i v
    .ok { m with
      registers := registers
      touchedRegisters :=
        (Register.ofIndex? i).elim m.touchedRegisters (appendNew m.touchedRegisters) }

def addressAt (m : Machine) (x : Record) : Except OutOfRange Word :=
  match x.mode with
  | .based => do
    let base ← m.readAt x.base
    .ok (ArithOp.add.apply base x.offset)
  | .absolute => .ok x.offset

def accumulate (m : Machine) (op : ArithOp) (x : Record) : Except OutOfRange Machine := do
  let a ← m.readAt x.rs
  let b ← m.readAt x.rt
  let m' ← m.assignAt x.rd (op.apply a b)
  .ok m'.advance

def branchAt (m : Machine) (x : Record) : Except OutOfRange Machine := do
  let a ← m.readAt x.rs
  let b ← m.readAt x.rt
  .ok (if x.kind.branchTaken a b then m.takeBranch x.label (some x.target) else m.advance)

/-- Both registers are read, whatever the service is. -/
def systemCallAt (m : Machine) : Except OutOfRange Machine := do
  let code ← m.readAt 2
  let argument ← m.readAt 4
  match Service.ofCode? code with
  | some s => .ok (m.serveWith argument s)
  | none => .ok (m.fail (.unsupportedService code))

def perform (m : Machine) (x : Record) : Except OutOfRange Machine :=
  match x.kind with
  | .li => do
    let m' ← m.assignAt x.rd x.immediate
    .ok m'.advance
  | .la => do
    let m' ← m.assignAt x.rd x.immediate
    .ok m'.advance
  | .move => do
    let v ← m.readAt x.rs
    let m' ← m.assignAt x.rd v
    .ok m'.advance
  | .addi => do
    let v ← m.readAt x.rs
    let m' ← m.assignAt x.rd (ArithOp.add.apply v x.immediate)
    .ok m'.advance
  | .add => m.accumulate .add x
  | .sub => m.accumulate .sub x
  | .lw => do
    let a ← m.addressAt x
    let m' ← m.assignAt x.rd (m.memory.read a)
    .ok (m'.touch a).advance
  | .sw => do
    let a ← m.addressAt x
    let v ← m.readAt x.rs
    .ok ({ m with memory := m.memory.write a v }.touch a).advance
  | .beq => m.branchAt x
  | .bne => m.branchAt x
  | .j => .ok (m.goTo x.target)
  | .syscall => m.systemCallAt
  | .invalid => .ok { m with status := .error, fault := x.defect?.map .defect }
  | .unsupported => .ok { m with status := .error, fault := x.defect?.map .defect }

def stepAt (code : List Record) (m : Machine) : Except OutOfRange Machine :=
  match m.status with
  | .ready =>
    match if 0 ≤ m.pc then code[m.pc.toNat]? else none with
    | none => .ok m.halt
    | some x => if stepLimit ≤ m.steps then .ok (m.fail .stepLimit) else m.countStep.perform x
  | .halted => .ok m
  | .error => .ok m

def stepNAt (code : List Record) : Nat → Machine → Except OutOfRange Machine
  | 0, m => .ok m
  | n + 1, m => do
    let m' ← m.stepAt code
    stepNAt code n m'

end Machine

end MipsStepper
