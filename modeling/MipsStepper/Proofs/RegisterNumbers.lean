import MipsStepper.Machine.Indexed
import MipsStepper.Proofs.RecordNumbers
import MipsStepper.Proofs.Step

/-!
# Register numbers stay in the table

A decoded record has no register numbers but -1 and those of the table, and a
based address has one of the table. The accessors refuse none of them, so the
machine that executes records by register numbers is never stopped by one. It
does what the machine does that executes operations.
-/

set_option autoImplicit false

namespace MipsStepper
open RegisterFile (OutOfRange)

theorem Register.isIndex_iff (i : Int) : Register.IsIndex i ↔ ∃ r, Register.index r = i := by
  constructor
  · rintro ⟨hlow, hhigh⟩
    by_cases hnone : i = -1
    · exact ⟨none, hnone.symm⟩
    · exact ⟨some ⟨i.toNat, by omega⟩, by simp [Register.index]; omega⟩
  · rintro ⟨r, rfl⟩
    cases r with
    | none => simp [Register.IsIndex, Register.index]
    | some r => simp only [Register.IsIndex, Register.index]; omega

theorem RegisterFile.operand_index (r : Option Register) :
    operand (Register.index r) = .ok r := by
  cases r with
  | none => rfl
  | some r =>
    have hne : Register.index (some r) ≠ -1 := by
      simp only [Register.index]
      omega
    rw [operand, if_neg hne, Register.ofIndex?_index]

namespace Machine

section Accessors
variable {m : Machine} {r : Option Register} {v : Word}

theorem readAt_bind {next : Word → Except OutOfRange Machine} :
    (m.readAt (Register.index r) >>= next) = next (m.value r) := by
  rw [readAt, RegisterFile.readAt, RegisterFile.operand_index]
  rfl

theorem assignAt_index : m.assignAt (Register.index r) v = .ok (m.assign r v) := by
  cases r with
  | none => rfl
  | some d =>
    by_cases hd : d = Register.zero
    · subst hd
      rfl
    · have hzero : d.val ≠ 0 := fun h => hd (Fin.ext h)
      have hne : ¬ (Register.index (some d) = -1 ∨ Register.index (some d) = 0) := by
        simp only [Register.index]
        omega
      rw [assignAt, if_neg hne, RegisterFile.writeAt, RegisterFile.operand_index,
        Register.ofIndex?_index, assign, if_neg hd]
      rfl

theorem assignAt_bind {next : Machine → Except OutOfRange Machine} :
    (m.assignAt (Register.index r) v >>= next) = next (m.assign r v) := by
  rw [assignAt_index]
  rfl

end Accessors

/-- The second list has more registers at its end, none of which is `$zero`. -/
def Gains (before after : List Register) : Prop :=
  ∃ gained, after = before ++ gained ∧
    ∀ r ∈ gained, 1 ≤ Register.index (some r) ∧ Register.index (some r) ≤ 31

theorem Gains.refl (rs : List Register) : Gains rs rs :=
  ⟨[], (List.append_nil rs).symm, List.forall_mem_nil _⟩

theorem Gains.trans {first second third : List Register} (h : Gains first second)
    (h' : Gains second third) : Gains first third := by
  obtain ⟨gained, rfl, hgained⟩ := h
  obtain ⟨gained', rfl, hgained'⟩ := h'
  exact ⟨gained ++ gained', List.append_assoc _ _ _,
    fun r hr => (List.mem_append.mp hr).elim (hgained r) (hgained' r)⟩

theorem gains_assign (m : Machine) (r : Option Register) (v : Word) :
    Gains m.touchedRegisters (m.assign r v).touchedRegisters := by
  cases r with
  | none => exact .refl _
  | some d =>
    by_cases hd : d = Register.zero
    · rw [assign, if_pos hd]
      exact .refl _
    · rw [assign, if_neg hd]
      show Gains _ (appendNew m.touchedRegisters d)
      unfold appendNew
      split
      · exact .refl _
      · have hzero : d.val ≠ 0 := fun h => hd (Fin.ext h)
        refine ⟨[d], rfl, List.forall_mem_singleton.mpr ?_⟩
        simp only [Register.index]
        omega

def Safe (m : Machine) (result : Except OutOfRange Machine) : Prop :=
  ∃ m', result = .ok m' ∧ Gains m.touchedRegisters m'.touchedRegisters

section Safety
variable {m : Machine} {i : Int} {x : Record}

theorem Safe.read {next : Word → Except OutOfRange Machine} (hi : Register.IsIndex i)
    (h : ∀ v, Safe m (next v)) : Safe m (m.readAt i >>= next) := by
  obtain ⟨r, rfl⟩ := (Register.isIndex_iff i).mp hi
  rw [readAt_bind]
  exact h _

theorem Safe.assign {next : Machine → Except OutOfRange Machine} {v : Word}
    (hi : Register.IsIndex i)
    (h : ∀ m', Gains m.touchedRegisters m'.touchedRegisters → Safe m (next m')) :
    Safe m (m.assignAt i v >>= next) := by
  obtain ⟨r, rfl⟩ := (Register.isIndex_iff i).mp hi
  rw [assignAt_bind]
  exact h _ (gains_assign m r v)

theorem Safe.address {next : Word → Except OutOfRange Machine} (hx : x.InRange)
    (h : ∀ a, Safe m (next a)) : Safe m (m.addressAt x >>= next) := by
  unfold addressAt
  cases x.mode with
  | based =>
    rw [bind_assoc]
    exact .read hx.base fun base => h _
  | absolute => exact h _

theorem Safe.ok {m' : Machine} (h : m'.touchedRegisters = m.touchedRegisters) : Safe m (.ok m') :=
  ⟨m', rfl, h ▸ .refl _⟩

theorem takeBranch_touchedRegisters (m : Machine) (l : Text) (target : Option Int) :
    (m.takeBranch l target).touchedRegisters = m.touchedRegisters := by
  unfold takeBranch
  split
  · split_ifs <;> rfl
  · rfl

theorem perform_safe (hx : x.InRange) (m : Machine) : Safe m (m.perform x) := by
  have hassigned : ∀ m' : Machine, Gains m.touchedRegisters m'.touchedRegisters →
      Safe m (.ok m'.advance) := fun m' h => ⟨_, rfl, h⟩
  have haccumulate : ∀ op, Safe m (m.accumulate op x) := fun op =>
    .read hx.rs fun a => .read hx.rt fun b => .assign hx.rd hassigned
  have hbranch : Safe m (m.branchAt x) :=
    .read hx.rs fun a => .read hx.rt fun b => .ok (by
      split
      · exact takeBranch_touchedRegisters m x.label (some x.target)
      · rfl)
  unfold perform
  cases x.kind with
  | li => exact .assign hx.rd hassigned
  | la => exact .assign hx.rd hassigned
  | move => exact .read hx.rs fun v => .assign hx.rd hassigned
  | addi => exact .read hx.rs fun v => .assign hx.rd hassigned
  | add => exact haccumulate .add
  | sub => exact haccumulate .sub
  | lw => exact .address hx fun a => .assign hx.rd fun m' h => ⟨_, rfl, h⟩
  | sw => exact .address hx fun a => .read hx.rs fun v => .ok rfl
  | beq => exact hbranch
  | bne => exact hbranch
  | j => exact .ok rfl
  | syscall =>
    have htable : Register.IsIndex 2 ∧ Register.IsIndex 4 := by
      simp [Register.IsIndex]
    refine .read htable.1 fun code => .read htable.2 fun argument => ?_
    cases Service.ofCode? code with
    | none => exact .ok rfl
    | some s => cases s <;> exact .ok rfl
  | invalid => exact .ok rfl
  | unsupported => exact .ok rfl

theorem stepAt_safe {code : List Record} (hcode : ∀ x ∈ code, x.InRange) (m : Machine) :
    Safe m (m.stepAt code) := by
  unfold stepAt
  cases m.status with
  | ready =>
    dsimp only
    split
    · exact .ok rfl
    · rename_i x hx
      split_ifs at hx ⊢
      · exact .ok rfl
      · exact perform_safe (hcode x (List.mem_of_getElem? hx)) m.countStep
  | halted => exact .ok rfl
  | error => exact .ok rfl

theorem stepNAt_safe {code : List Record} (hcode : ∀ x ∈ code, x.InRange) (n : Nat)
    (m : Machine) : Safe m (stepNAt code n m) := by
  induction n generalizing m with
  | zero => exact .ok rfl
  | succ n ih =>
    obtain ⟨m', hstep, hgains⟩ := stepAt_safe hcode m
    obtain ⟨m'', hrest, hgains'⟩ := ih m'
    rw [stepNAt, hstep]
    exact ⟨m'', hrest, hgains.trans hgains'⟩

end Safety

section Agreement
variable {m : Machine}

theorem addressAt_bind {o : Operation} {x : MemOperand} (h : o.memOperand? = some x)
    {next : Word → Except OutOfRange Machine} :
    (m.addressAt o.record >>= next) = next (m.address x) := by
  have hplace : o.record.mode = x.mode ∧ o.record.base = Register.index x.base ∧
      o.record.offset = x.offset := by
    simp [Operation.record, Operation.fields, Fields.record, h]
  rw [addressAt, hplace.1, hplace.2.1, hplace.2.2]
  cases x with
  | based n r =>
    show ((m.readAt (Register.index (some r)) >>= _) >>= next) = _
    rw [bind_assoc, readAt_bind]
    rfl
  | absolute a => rfl

theorem takeBranch_getD (l : Text) (target : Option Int) :
    m.takeBranch l (some (target.getD (-1))) = m.takeBranch l target := by
  cases target <;> rfl

theorem branch_bind (c : Condition) (rs rt : Option Register) (l : Text) (target : Option Int) :
    m.branchAt (Operation.branch c rs rt l target).record =
      .ok (m.execute (.branch c rs rt l target)) := by
  have htaken : ∀ a b, (Operation.branch c rs rt l target).kind.branchTaken a b = c.holds a b := by
    intro a b
    cases c <;> rfl
  refine readAt_bind.trans (readAt_bind.trans ?_)
  simp only [Operation.record, Operation.fields, Fields.record, htaken, Operation.label,
    Operation.target?, takeBranch_getD]
  rfl

theorem perform_record (m : Machine) (o : Operation) :
    m.perform o.record = .ok (m.execute o) := by
  cases o with
  | li rd v => exact assignAt_bind
  | la rd a => exact assignAt_bind
  | move rd rs => exact readAt_bind.trans assignAt_bind
  | addi rd rs v => exact readAt_bind.trans assignAt_bind
  | arith op rd rs rt =>
    cases op with
    | add => exact readAt_bind.trans (readAt_bind.trans assignAt_bind)
    | sub => exact readAt_bind.trans (readAt_bind.trans assignAt_bind)
  | lw rd x => exact (addressAt_bind rfl).trans assignAt_bind
  | sw rs x => exact (addressAt_bind rfl).trans readAt_bind
  | branch c rs rt l target =>
    cases c with
    | equal => exact branch_bind .equal rs rt l target
    | different => exact branch_bind .different rs rt l target
  | jump l target => rfl
  | syscall =>
    have hv0 : (2 : Int) = Register.index (some Register.v0) := rfl
    have ha0 : (4 : Int) = Register.index (some Register.a0) := rfl
    show m.systemCallAt = .ok m.systemCall
    rw [systemCallAt, hv0, ha0, readAt_bind, readAt_bind, systemCall]
    cases Service.ofCode? (m.value (some Register.v0)) with
    | none => rfl
    | some s => cases s <;> rfl
  | defective d => cases d <;> rfl

theorem stepAt_records (m : Machine) : m.stepAt m.program.records = .ok m.step := by
  have hat : (if 0 ≤ m.pc then m.program.records[m.pc.toNat]? else none) =
      m.instruction?.map Instruction.record := by
    unfold instruction? Program.at? Program.records
    split <;> simp
  unfold stepAt step
  cases m.status with
  | ready =>
    dsimp only
    rw [hat, stepReady]
    cases m.instruction? with
    | none => rfl
    | some i =>
      by_cases hs : stepLimit ≤ m.steps
      · simp [hs]
      · simp only [Option.map_some, hs, if_false]
        exact perform_record m.countStep i.operation
  | halted => rfl
  | error => rfl

theorem stepNAt_records (n : Nat) (m : Machine) :
    stepNAt m.program.records n m = .ok (stepN n m) := by
  induction n generalizing m with
  | zero => rfl
  | succ n ih =>
    have hprogram := (step_origin m).2
    rw [stepNAt, stepAt_records]
    show stepNAt m.program.records n m.step = .ok (stepN n m.step)
    rw [← hprogram, ih]

end Agreement

/-- The registers of decoded records are numbers of the table or -1, and the
base of a based address is a number of the table. So no accessor refuses one,
however long their records are executed, and only registers but `$zero` come to
be touched. The records of a program are executed like its operations. -/
theorem register_numbers :
    (∀ (s : Symbols) (line : Text), (Instruction.decode s line).record.InRange) ∧
    (∀ code : List Record, (∀ x ∈ code, x.Decoded) → ∀ (n : Nat) (m : Machine),
      ∃ m', stepNAt code n m = .ok m' ∧ Gains m.touchedRegisters m'.touchedRegisters) ∧
    ∀ (n : Nat) (m : Machine), stepNAt m.program.records n m = .ok (stepN n m) := by
  refine ⟨fun s line => Record.Decoded.inRange ⟨s, line, rfl⟩, fun code hcode n m => ?_,
    stepNAt_records⟩
  exact stepNAt_safe (fun x hx => (hcode x hx).inRange) n m

/-- A load from a base, a move between names that are not in the table and a
line of no form, executed on a machine without a program. -/
theorem register_numbers_three_lines :
    let code := ["lw $t0, 4($sp)", "move $bad, $x", "nop"].map fun line =>
      (Instruction.decode {} (Text.ofString line)).record
    let m := start {} [] {}
    code.map (fun x => (x.rd, x.rs, x.base)) = [(8, -1, 29), (-1, -1, -1), (-1, -1, -1)] ∧
      (∀ x ∈ code, x.InRange) ∧
      ∃ m', stepNAt code 3 m = .ok m' ∧ m'.status = .error ∧
        Gains m.touchedRegisters m'.touchedRegisters := by
  intro code m
  have hdecoded : ∀ x ∈ code, x.Decoded := by
    intro x hx
    obtain ⟨line, -, rfl⟩ := List.mem_map.mp hx
    exact ⟨_, _, rfl⟩
  have hrange : ∀ x ∈ code, x.InRange := by
    intro x hx
    obtain ⟨s, line, rfl⟩ := hdecoded x hx
    exact register_numbers.1 s line
  obtain ⟨m', hrun, hgains⟩ := register_numbers.2.1 code hdecoded 3 m
  have hstatus : (stepNAt code 3 m).toOption.map status = some .error := by decide +kernel
  rw [hrun] at hstatus
  exact ⟨by decide +kernel, hrange, m', hrun, Option.some.inj hstatus, hgains⟩

/-- A record that was not decoded is refused. -/
example (m : Machine) : m.perform { kind := .move, rs := 32 } = .error ⟨32⟩ := rfl

end Machine

end MipsStepper
