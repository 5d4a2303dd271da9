import MipsStepper.Proofs.Termination

/-!
# A machine in another program

A machine can be placed in another program. With the strings of its own an
operation does there what it did before, so a run is decided by the
instructions it executes: a program of the same size that has these and any
others in between ends it alike. The instruction that the step limit stops is
not among them, and neither is one that only dead code would reach.
-/

set_option autoImplicit false

namespace MipsStepper
open Text (ofString)

namespace Program

def replace (p : Program) (index : Nat) (i : Instruction) : Program :=
  { p with instructions := p.instructions.set index i }

theorem replace_size (p : Program) (index : Nat) (i : Instruction) :
    (p.replace index i).size = p.size := by
  simp [replace, size]

theorem replace_at? (p : Program) {index : Nat} (i : Instruction) {pc : Int} (h : pc ≠ index) :
    (p.replace index i).at? pc = p.at? pc := by
  by_cases hpc : 0 ≤ pc
  · have hne : index ≠ pc.toNat := by omega
    simp [replace, at?, hpc, hne]
  · simp [at?, hpc]

end Program

namespace Machine

/-- The machine in another program, at an index and a step count of its own. -/
def placed (m : Machine) (source : Text) (p : Program) (pc steps : Int) : Machine :=
  { m with source := source, program := p, pc := pc, steps := steps }

def inProgram (m : Machine) (source : Text) (p : Program) : Machine :=
  m.placed source p m.pc m.steps

section Operations
variable {source : Text} {p : Program}

theorem action_placed {m : Machine} (hp : p.strings = m.program.strings) (pc steps : Int)
    (o : Operation) : (m.placed source p pc steps).action o = m.action o :=
  action_congr rfl hp fun _ _ => rfl

theorem act_placed (m : Machine) (x : Action) (pc steps : Int) :
    (m.placed source p pc steps).act x = (m.act x).placed source p (x.turn.pc pc) steps := rfl

/-- Of the program an operation reads only the strings, and none reads the step
count. -/
theorem execute_placed {m : Machine} (hp : p.strings = m.program.strings) (o : Operation)
    (steps : Int) :
    (m.placed source p m.pc steps).execute o =
      (m.execute o).placed source p (m.execute o).pc steps := by
  rw [execute_eq_act, action_placed hp, act_placed, execute_eq_act]
  rfl

theorem execute_inProgram {m : Machine} (hp : p.strings = m.program.strings) (o : Operation) :
    (m.inProgram source p).execute o = (m.execute o).inProgram source p := by
  rw [inProgram, execute_placed hp, inProgram, (execute_outcome m o).steps]

end Operations

section Runs

/-- The program has what a run of the machine needs of its own one: the size,
the strings, and the instruction wherever the run executes one. -/
structure Sustains (m : Machine) (p : Program) : Prop where
  size : p.size = m.program.size
  strings : p.strings = m.program.strings
  executed : ∀ k, (stepN k m).executes → p.at? (stepN k m).pc = m.program.at? (stepN k m).pc

variable {m : Machine} {source : Text} {p : Program}

theorem Sustains.step (h : m.Sustains p) : m.step.Sustains p := by
  have hprogram := (step_origin m).2
  constructor
  · rw [hprogram]
    exact h.size
  · rw [hprogram]
    exact h.strings
  · intro k hk
    rw [hprogram]
    exact h.executed (k + 1) hk

theorem Sustains.instruction?_eq_none_iff (h : m.Sustains p) :
    (m.inProgram source p).instruction? = none ↔ m.instruction? = none := by
  show p.at? m.pc = none ↔ m.program.at? m.pc = none
  rw [Program.at?_eq_none_iff, Program.at?_eq_none_iff, h.size]

/-- A step that executes nothing reads no instruction. It asks only whether
there is one, and this is decided by the size of the program. -/
theorem step_inProgram (h : m.Sustains p) :
    (m.inProgram source p).step = m.step.inProgram source p := by
  have hnone := @Sustains.instruction?_eq_none_iff m source p h
  have ht := step_transition m
  generalize m.step = m' at ht
  cases ht with
  | stopped hm => exact step_of_not_ready hm
  | finished hm hi => exact step_of_end hm (hnone.mpr hi)
  | expired hm hi hs =>
    have hfound : (m.inProgram source p).instruction? ≠ none := by
      intro hn
      simp [hnone.mp hn] at hi
    obtain ⟨i', hi'⟩ := Option.ne_none_iff_exists'.mp hfound
    have hstep := @step_of_instruction (m.inProgram source p) hm i' hi'
    exact hstep.trans (if_pos hs)
  | @performed hm i hi hs =>
    have hexecutes : m.executes := by simp [executes, hm, hi, hs]
    have hi' : (m.inProgram source p).instruction? = some i := (h.executed 0 hexecutes).trans hi
    have hstep := @step_of_instruction (m.inProgram source p) hm i hi'
    have hexecute := @execute_inProgram source p m.countStep h.strings i.operation
    exact (hstep.trans (if_neg (Int.not_le.mpr hs))).trans hexecute

theorem Loop.inProgram {last : Machine} {k : Nat} (h : Loop m k last) (hp : m.Sustains p) :
    Loop (m.inProgram source p) k (last.inProgram source p) := by
  induction h with
  | stop hm => exact .stop hm
  | @turn m last k hm _ ih =>
    have hrest := ih hp.step
    rw [← step_inProgram hp] at hrest
    have hm' : (m.inProgram source p).status = .ready := hm
    exact .turn hm' hrest

theorem run_inProgram (h : m.Sustains p) :
    (m.inProgram source p).run = m.run.inProgram source p := by
  obtain ⟨k, -, hloop⟩ := loop_run m
  exact run_eq_of_loop (hloop.inProgram h)

theorem replace_sustains {index : Nat} (i : Instruction)
    (h : ∀ k, (stepN k m).executes → (stepN k m).pc ≠ index) :
    m.Sustains (m.program.replace index i) where
  size := Program.replace_size m.program index i
  strings := rfl
  executed := fun k hk => Program.replace_at? m.program i (h k hk)

/-- A run depends only on the size and the strings of its program and on the
instructions it executes. One that it never executes can be replaced by any
other, be it one that fails. -/
theorem run_unexecuted (m : Machine) :
    (∀ p : Program, p.size = m.program.size → p.strings = m.program.strings →
      (∀ k, (stepN k m).executes → p.at? (stepN k m).pc = m.program.at? (stepN k m).pc) →
      run { m with program := p } = { m.run with program := p }) ∧
    ∀ (index : Nat) (i : Instruction),
      (∀ k, (stepN k m).executes → (stepN k m).pc ≠ index) →
      run { m with program := m.program.replace index i } =
        { m.run with program := m.program.replace index i } := by
  have hrun {p : Program} (h : m.Sustains p) :
      run { m with program := p } = { m.run with program := p } := by
    calc run { m with program := p }
      _ = (m.inProgram m.source p).run := rfl
      _ = m.run.inProgram m.source p := run_inProgram h
      _ = m.run.inProgram m.run.source p := by rw [(run_origin m).1]
      _ = { m.run with program := p } := rfl
  exact ⟨fun p hsize hstrings hexecuted => hrun ⟨hsize, hstrings, hexecuted⟩,
    fun index i h => hrun (replace_sustains i h)⟩

/-- A loop that is left, and a line that the jump behind it leaps over. The
line becomes an instruction that fails, and the labels go: the run is the same. -/
theorem run_unexecuted_leapt_over :
    let source := ofString
      "li $t0, 2\nloop: addi $t0, $t0, -1\nbne $t0, $zero, loop\nj end\nmove $t0, $t1\nend:"
    let m := create source {}
    let dead : Instruction := ⟨ofString "move $t0", .defective (.form (ofString "move $t0"))⟩
    let p := { m.program.replace 4 dead with symbols := {} }
    m.run.status = .halted ∧ m.run.steps = 6 ∧ p.size = m.program.size ∧
      p.strings = m.program.strings ∧
      (∀ k, (stepN k m).executes → p.at? (stepN k m).pc = m.program.at? (stepN k m).pc) ∧
      run { m with program := p } = { m.run with program := p } ∧
      (∀ k, (stepN k m).executes → (stepN k m).pc ≠ 4) ∧
      run { m with program := m.program.replace 4 dead } =
        { m.run with program := m.program.replace 4 dead } := by
  intro source m dead p
  obtain ⟨hstatus, hsteps, hstop, hfirst⟩ : m.run.status = .halted ∧ m.run.steps = 6 ∧
      (stepN 7 m).status ≠ .ready ∧ ∀ k < 7, (stepN k m).pc ≠ 4 := by decide +kernel
  have hleapt : ∀ k, (stepN k m).executes → (stepN k m).pc ≠ 4 := fun k hk =>
    hfirst k (lt_of_executes hstop hk)
  have hsize : p.size = m.program.size := Program.replace_size m.program 4 dead
  have hexecuted : ∀ k, (stepN k m).executes →
      p.at? (stepN k m).pc = m.program.at? (stepN k m).pc :=
    fun k hk => Program.replace_at? m.program dead (hleapt k hk)
  exact ⟨hstatus, hsteps, hsize, rfl, hexecuted,
    (run_unexecuted m).1 p hsize rfl hexecuted, hleapt, (run_unexecuted m).2 4 dead hleapt⟩

end Runs

end Machine

end MipsStepper
