import MipsStepper.Proofs.Termination

/-!
# Effects of instructions

An executed instruction writes at most one register and at most one memory
cell, and it accesses at most one address. Which ones is said of the machine
that it finds, so the registers, the memory and the two lists of what was
touched are read off the instructions that have been executed so far.
-/

set_option autoImplicit false

namespace MipsStepper

/-- The address that an operand denotes: the base register as the machine has
it and the offset, added modulo 2^32, or the address itself. -/
def Machine.effectiveAddress (m : Machine) : MemOperand → Word
  | .based offset base => Word.wrap ((m.value (some base)).toInt + offset.toInt)
  | .absolute a => a

theorem Machine.effectiveAddress_eq (m : Machine) (x : MemOperand) :
    m.effectiveAddress x = m.address x := by
  cases x with
  | based offset base =>
    rw [effectiveAddress, Word.wrap_add, Word.wrap_toInt, Word.wrap_toInt, address]
  | absolute a => rfl

theorem Operation.exists_store {o : Operation} (h : o.kind = .sw) : ∃ rs x, o = .sw rs x := by
  cases o with
  | sw rs x => exact ⟨rs, x, rfl⟩
  | arith op rd rs rt => cases op <;> cases h
  | branch c rs rt l target => cases c <;> cases h
  | defective d => cases d <;> cases h
  | _ => cases h

structure Execution where
  before : Machine
  operation : Operation

namespace Execution

/-- The register that is written. No register and `$zero` take no value. -/
def destination? (e : Execution) : Option Register :=
  e.operation.rd.filter fun r => r ≠ Register.zero

def address? (e : Execution) : Option Word :=
  e.operation.memOperand?.map e.before.effectiveAddress

def storesAt (e : Execution) (a : Word) : Bool := e.operation.kind = .sw ∧ e.address? = some a

def storedValue (e : Execution) : Word := e.before.value e.operation.rs

theorem address?_eq {e : Execution} {x : MemOperand} (h : e.operation.memOperand? = some x) :
    e.address? = some (e.before.address x) := by
  simp [address?, h, Machine.effectiveAddress_eq]

theorem storesAt_of_address?_ne {e : Execution} {a : Word} (h : e.address? ≠ some a) :
    e.storesAt a = false := by
  simp [storesAt, h]

theorem storesAt_of_kind_ne {e : Execution} (h : e.operation.kind ≠ .sw) (a : Word) :
    e.storesAt a = false := by
  simp [storesAt, h]

theorem storedValue_eq_zero {e : Execution}
    (h : e.operation.rs = none ∨ e.operation.rs = some Register.zero) : e.storedValue = 0 := by
  rcases h with hrs | hrs <;> simp [storedValue, Machine.value, RegisterFile.read, hrs]

end Execution

namespace Machine

def execution? (m : Machine) : Option Execution :=
  if m.executes then m.instruction?.map fun i => ⟨m, i.operation⟩ else none

def executed (n : Nat) (m : Machine) : List Execution :=
  (List.range n).filterMap fun k => (stepN k m).execution?

theorem executed_succ (n : Nat) (m : Machine) :
    executed (n + 1) m = executed n m ++ (stepN n m).execution?.toList := by
  rw [executed, List.range_succ, List.filterMap_append, executed]
  cases h : (stepN n m).execution? <;> simp [h]

structure Effects (e : Execution) (m : Machine) : Prop where
  register (r : Register) : e.destination? ≠ some r →
    m.registers.cells.get r = e.before.registers.cells.get r
  cell (a : Word) : m.memory.cells[a]? =
    if e.storesAt a then some e.storedValue else e.before.memory.cells[a]?
  touchedRegisters : m.touchedRegisters =
    e.destination?.elim e.before.touchedRegisters (appendNew e.before.touchedRegisters)
  touchedMemory : m.touchedMemory =
    e.address?.elim e.before.touchedMemory (appendNew e.before.touchedMemory)

/-- What a machine keeps that neither assigns nor accesses memory. -/
structure Rests (m m' : Machine) : Prop where
  registers : m'.registers = m.registers
  memory : m'.memory = m.memory
  touchedRegisters : m'.touchedRegisters = m.touchedRegisters
  touchedMemory : m'.touchedMemory = m.touchedMemory

section Accesses
variable {m : Machine} {o : Operation}

theorem access_address? (m : Machine) (o : Operation) :
    (m.access o).address? = (Execution.mk m o).address? := by
  have haddress {x : MemOperand} (h : o.memOperand? = some x) :
      (Execution.mk m o).address? = some (m.address x) := Execution.address?_eq h
  cases o with
  | lw rd x => rw [haddress rfl, access, Access.address?]
  | sw rs x => rw [haddress rfl, access, Access.address?]
  | _ => rfl

theorem access_apply (h : o.kind ≠ .sw) (memory : Memory) :
    (m.access o).apply memory = memory := by
  cases o with
  | sw rs x => exact absurd rfl h
  | _ => rfl

theorem access_cell (m : Machine) (o : Operation) (a : Word) :
    ((m.access o).apply m.memory).cells[a]? =
      if (Execution.mk m o).storesAt a then some (Execution.mk m o).storedValue
      else m.memory.cells[a]? := by
  by_cases hkind : o.kind = .sw
  · obtain ⟨rs, x, rfl⟩ := Operation.exists_store hkind
    have haddress : (Execution.mk m (.sw rs x)).address? = some (m.address x) :=
      Execution.address?_eq rfl
    show (m.memory.cells.insert (m.address x) (m.value rs))[a]? = _
    simp [Std.ExtTreeMap.getElem?_insert, Execution.storesAt, haddress, Execution.storedValue,
      Operation.kind, Operation.rs]
  · rw [access_apply hkind, Execution.storesAt_of_kind_ne hkind]
    rfl

end Accesses

theorem execute_effects (m : Machine) (o : Operation) : Effects ⟨m, o⟩ (m.execute o) := by
  rw [execute_eq_act]
  constructor
  · exact fun r hr => write_get m.registers (m.result o) hr
  · exact access_cell m o
  · rfl
  · exact congrArg (fun a : Option Word => a.elim m.touchedMemory (appendNew m.touchedMemory))
      (access_address? m o)

theorem value_execute (m : Machine) {o : Operation} {d : Register} (ho : o.rd = some d)
    (hd : d ≠ Register.zero) : (m.execute o).value (some d) = m.result o := by
  rw [execute_eq_act]
  show (m.registers.write o.rd (m.result o)).read (some d) = _
  rw [ho, RegisterFile.read_write _ _ _ _ hd, if_pos rfl]

section Steps
variable {m : Machine}

theorem step_rests (h : m.execution? = none) : Rests m m.step := by
  have ht := step_transition m
  generalize m.step = m' at ht
  cases ht with
  | stopped _ => exact ⟨rfl, rfl, rfl, rfl⟩
  | finished _ _ => exact ⟨rfl, rfl, rfl, rfl⟩
  | expired _ _ _ => exact ⟨rfl, rfl, rfl, rfl⟩
  | performed hm hi hs => simp [execution?, executes, hm, hi, hs] at h

theorem step_of_execution? {e : Execution} (h : m.execution? = some e) :
    e.before = m ∧ m.step = m.countStep.execute e.operation := by
  unfold execution? at h
  split_ifs at h with hexecutes
  obtain ⟨i, hi, hstep⟩ := step_of_executes hexecutes
  rw [hi] at h
  cases h
  exact ⟨rfl, hstep⟩

/-- A step counts before it executes, and no effect reads the count. -/
theorem step_effects {e : Execution} (h : m.execution? = some e) :
    e.before = m ∧ Effects e m.step := by
  obtain ⟨rfl, hstep⟩ := step_of_execution? h
  have hcounted := execute_effects e.before.countStep e.operation
  rw [hstep]
  exact ⟨rfl, hcounted.register, hcounted.cell, hcounted.touchedRegisters, hcounted.touchedMemory⟩

end Steps

end Machine

end MipsStepper
