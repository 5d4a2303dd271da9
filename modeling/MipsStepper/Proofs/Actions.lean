import MipsStepper.Machine.Step

/-!
# Operations as actions

An operation reads, and what it has read decides its action: the register it
assigns, its access to memory, what it prints and where it leads. It reads
registers, the strings of the program and at most the cell at its address. To
act reads no more than what is overwritten. So machines on which an operation
decides alike are changed alike, wherever else they differ.
-/

set_option autoImplicit false

namespace MipsStepper

inductive Access where
  | none
  | load (a : Word)
  | store (a v : Word)

inductive Turn where
  | next
  | goTo (target : Int)
  | halt
  | fail (f : Fault)

structure Action where
  destination : Option Register
  value : Word
  access : Access
  printed : Text
  turn : Turn

namespace Access

def address? : Access → Option Word
  | none => Option.none
  | load a => some a
  | store a _ => some a

def apply : Access → Memory → Memory
  | store a v, memory => memory.write a v
  | _, memory => memory

end Access

namespace Turn

def pc : Turn → Int → Int
  | next, pc => pc + 1
  | goTo target, _ => target
  | halt, pc => pc
  | fail _, pc => pc

def status : Turn → Status → Status
  | halt, _ => .halted
  | fail _, _ => .error
  | _, s => s

def fault : Turn → Option Fault → Option Fault
  | fail f, _ => some f
  | _, f => f

def taken (label : Text) : Option Int → Turn
  | some i => if i < 0 then fail (.unknownLabel label) else goTo i
  | Option.none => fail (.unknownLabel label)

end Turn

namespace Machine

/-- No register and `$zero` are not noted. -/
def noted (touched : List Register) (r : Option Register) : List Register :=
  (r.filter fun r => r ≠ Register.zero).elim touched (appendNew touched)

def act (m : Machine) (x : Action) : Machine :=
  { m with
    registers := m.registers.write x.destination x.value
    memory := x.access.apply m.memory
    output := m.output ++ x.printed
    status := x.turn.status m.status
    fault := x.turn.fault m.fault
    pc := x.turn.pc m.pc
    touchedRegisters := noted m.touchedRegisters x.destination
    touchedMemory := x.access.address?.elim m.touchedMemory (appendNew m.touchedMemory) }

def result (m : Machine) : Operation → Word
  | .li _ v => v
  | .la _ a => a
  | .move _ rs => m.value rs
  | .addi _ rs v => ArithOp.add.apply (m.value rs) v
  | .arith op _ rs rt => op.apply (m.value rs) (m.value rt)
  | .lw _ x => m.memory.read (m.address x)
  | _ => 0

def access (m : Machine) : Operation → Access
  | .lw _ x => .load (m.address x)
  | .sw rs x => .store (m.address x) (m.value rs)
  | _ => .none

def servedText (m : Machine) : Service → Text
  | .printInteger => (m.value (some Register.a0)).decimal
  | .printString => (m.program.string? (m.value (some Register.a0))).getD []
  | .exit => []
  | .printCharacter => [Char.ofNat ((m.value (some Register.a0)).bits % 256)]

def printed (m : Machine) : Operation → Text
  | .syscall => (Service.ofCode? (m.value (some Register.v0))).elim [] m.servedText
  | _ => []

def turn (m : Machine) : Operation → Turn
  | .branch c rs rt l target =>
    if c.holds (m.value rs) (m.value rt) then .taken l target else .next
  | .jump _ target => .goTo target
  | .syscall =>
    match Service.ofCode? (m.value (some Register.v0)) with
    | some .exit => .halt
    | some _ => .next
    | none => .fail (.unsupportedService (m.value (some Register.v0)))
  | .defective d => .fail (.defect d)
  | _ => .next

def action (m : Machine) (o : Operation) : Action where
  destination := o.rd
  value := m.result o
  access := m.access o
  printed := m.printed o
  turn := m.turn o

theorem assign_eq (m : Machine) (r : Option Register) (v : Word) :
    m.assign r v =
      { m with
        registers := m.registers.write r v
        touchedRegisters := noted m.touchedRegisters r } := by
  cases r with
  | none => rfl
  | some d => by_cases hd : d = Register.zero <;>
      simp [assign, noted, RegisterFile.write, Option.filter, hd]

theorem act_silent (m : Machine) {x : Action} (h : x.printed = []) :
    m.act x = { m.act x with output := m.output } := by
  simp [act, h]

theorem branch_eq_act (m : Machine) (c : Condition) (rs rt : Option Register) (l : Text)
    (target : Option Int) :
    m.execute (.branch c rs rt l target) = m.act (m.action (.branch c rs rt l target)) := by
  rw [act_silent m rfl]
  by_cases taken : c.holds (m.value rs) (m.value rt) = true
  · simp only [execute, takeBranch, action, turn, taken, if_true]
    cases target with
    | none => rfl
    | some i => by_cases hi : i < 0 <;> simp only [Turn.taken, hi, if_true, if_false] <;> rfl
  · simp only [execute, action, turn, taken]
    rfl

theorem systemCall_eq_act (m : Machine) : m.execute .syscall = m.act (m.action .syscall) := by
  simp only [execute, systemCall, action, printed, turn]
  cases Service.ofCode? (m.value (some Register.v0)) with
  | none =>
    rw [act_silent m rfl]
    rfl
  | some s =>
    cases s with
    | exit =>
      rw [act_silent m rfl]
      rfl
    | _ => rfl

theorem execute_eq_act (m : Machine) (o : Operation) : m.execute o = m.act (m.action o) := by
  cases o with
  | branch c rs rt l target => exact branch_eq_act m c rs rt l target
  | syscall => exact systemCall_eq_act m
  | sw | jump | defective =>
    rw [act_silent m rfl]
    rfl
  | _ =>
    rw [act_silent m rfl, execute, assign_eq]
    rfl

section Reading
variable {m m' : Machine} {o : Operation}

/-- What an operation reads. Of the memory it is the cell of its address. -/
theorem action_congr (hregisters : m'.registers = m.registers)
    (hstrings : m'.program.strings = m.program.strings)
    (hcell : ∀ a, (m.access o).address? = some a → m'.memory.cells[a]? = m.memory.cells[a]?) :
    m'.action o = m.action o := by
  have hvalue (r : Option Register) : m'.value r = m.value r := by rw [value, value, hregisters]
  have haddress (x : MemOperand) : m'.address x = m.address x := by
    cases x with
    | based offset base => rw [address, address, hvalue]
    | absolute a => rfl
  have hresult : m'.result o = m.result o := by
    cases o with
    | lw rd x => rw [result, result, haddress, Memory.read, hcell _ rfl, Memory.read]
    | _ => simp only [result, hvalue]
  have haccess : m'.access o = m.access o := by cases o <;> simp only [access, haddress, hvalue]
  have hserved : m'.servedText = m.servedText := by
    funext s
    cases s <;> simp only [servedText, hvalue, Program.string?, hstrings]
  have hprinted : m'.printed o = m.printed o := by cases o <;> simp only [printed, hvalue, hserved]
  have hturn : m'.turn o = m.turn o := by cases o <;> simp only [turn, hvalue]
  rw [action, action, hresult, haccess, hprinted, hturn]

end Reading

end Machine

end MipsStepper
