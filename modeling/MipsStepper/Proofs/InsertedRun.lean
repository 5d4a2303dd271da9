import MipsStepper.Proofs.Insertion
import MipsStepper.Proofs.Placement

/-!
# Runs with one more instruction

The longer program is run beside the other one. Its machine has the same
registers, memory and output at all times and stands at the same
instruction, or at the new one where the other machine is past it. One step
is answered by one or two, so only the step limit can tell the runs apart.
-/

set_option autoImplicit false

namespace MipsStepper
open Text (ofString)

inductive Turn.Moved (n : Int) : Turn → Turn → Prop where
  | goTo {i i' : Int} (h : LeadsTo n i i') : Moved n (.goTo i) (.goTo i')
  | same {t : Turn} (h : ∀ i, t ≠ .goTo i) : Moved n t t

theorem Turn.Moved.status_eq {n : Int} {t t' : Turn} (h : Moved n t t') : t'.status = t.status := by
  cases h <;> rfl

theorem Turn.Moved.fault_eq {n : Int} {t t' : Turn} (h : Moved n t t') : t'.fault = t.fault := by
  cases h <;> rfl

namespace Machine

/-- The index stands for the program counter: it is that of the same
instruction, or that of the new one before it, which only a machine that is
still ready can be at. -/
def StandsAt (n : Int) (m : Machine) (pc : Int) : Prop :=
  pc = renumber n m.pc ∨ m.status = .ready ∧ m.pc = n ∧ pc = n

section Execution
variable {n : Int} {m : Machine} {source : Text} {p : Program}

theorem standsAt_goTo (hm : m.status = .ready) {i i' : Int} (h : LeadsTo n i i') :
    (m.goTo i).StandsAt n i' :=
  h.imp_right fun hi => ⟨hm, hi⟩

/-- The second machine executes its operation as the first one does. Both
have the same values, so they assign, store, print and stop alike. -/
def Alike (n : Int) (source : Text) (p : Program) (m : Machine) (o o' : Operation) : Prop :=
  ∃ pc, (m.execute o).StandsAt n pc ∧ ∀ steps,
    (m.placed source p (renumber n m.pc) steps).execute o' = (m.execute o).placed source p pc steps

theorem taken_moved (hn : 0 ≤ n) (l : Text) {t t' : Option Int}
    (ht : Option.Rel (LeadsTo n) t t') : Turn.Moved n (.taken l t) (.taken l t') := by
  cases ht with
  | none => exact .same (by simp [Turn.taken])
  | some hi =>
    simp only [Turn.taken, hi.neg_iff hn]
    split_ifs
    · exact .same (by simp)
    · exact .goTo hi

theorem turn_moved (hn : 0 ≤ n) {o o' : Operation} (h : o.Moved n o') :
    Turn.Moved n (m.turn o) (m.turn o') := by
  cases h with
  | branch ht =>
    simp only [turn]
    split_ifs
    · exact taken_moved hn _ ht
    · exact .same (by simp)
  | jump hi => exact .goTo hi
  | same hnone =>
    -- An operation without a target is one that does not leap.
    apply Turn.Moved.same
    intro i hi
    have hturns := turn_turns m o
    rw [hi] at hturns
    cases hturns with
    | leap hleap => simp [hleap.target?_eq] at hnone

theorem action_moved {o o' : Operation} (h : o.Moved n o') :
    m.action o' = { m.action o with turn := m.turn o' } := by
  cases h <;> rfl

theorem standsAt_act (hm : m.status = .ready) {x : Action} {t : Turn}
    (h : Turn.Moved n x.turn t) : (m.act x).StandsAt n (t.pc (renumber n m.pc)) := by
  obtain ⟨destination, value, access, printed, turn⟩ := x
  change Turn.Moved n turn t at h
  cases h with
  | goTo hi => exact hi.imp_right fun hi => ⟨hm, hi⟩
  | same hnone =>
    cases t with
    | next => exact (leadsTo_next n m.pc).imp_right fun hi => ⟨hm, hi⟩
    | goTo i => exact absurd rfl (hnone i)
    | halt => exact .inl rfl
    | fail f => exact .inl rfl

theorem execute_alike (hp : p.strings = m.program.strings) (hm : m.status = .ready) (hn : 0 ≤ n)
    {o o' : Operation} (h : o.Moved n o') : Alike n source p m o o' := by
  have hturn := @turn_moved n m hn o o' h
  refine ⟨(m.turn o').pc (renumber n m.pc), ?_, fun steps => ?_⟩
  · rw [execute_eq_act]
    exact standsAt_act hm hturn
  · rw [execute_eq_act, action_placed hp, act_placed, action_moved h, execute_eq_act]
    simp only [act, placed, action, hturn.status_eq, hturn.fault_eq]

end Execution

section Runs
variable {n : Int} {m : Machine} {source : Text} {p : Program}

theorem step_of_run (hm : m.status = .ready) {i : Instruction} (hi : m.instruction? = some i)
    (hlimit : m.run.fault ≠ some .stepLimit) : m.step = m.countStep.execute i.operation := by
  have ht := step_transition m
  rw [← run_step] at hlimit
  generalize m.step = m' at ht hlimit
  cases ht with
  | stopped h => exact absurd hm h
  | finished _ hnone => simp [hi] at hnone
  | expired _ _ _ =>
    rw [@run_of_not_ready (m.fail .stepLimit) nofun] at hlimit
    exact absurd rfl hlimit
  | performed _ hi' _ =>
    rw [Option.some.inj (hi.symm.trans hi')]

theorem step_idle (hp : m.program.Inserted n p) (hm : m.status = .ready) {steps : Int}
    (hlimit : (m.placed source p n steps).run.fault ≠ some .stepLimit) :
    (m.placed source p n steps).step = m.placed source p (n + 1) (steps + 1) :=
  @step_of_run (m.placed source p n steps) hm _ hp.idle hlimit

theorem step_alike (hp : m.program.Inserted n p) (hn : 0 ≤ n) (hm : m.status = .ready) {steps : Int}
    (hlimit : m.run.fault ≠ some .stepLimit)
    (hlimit' : (m.placed source p (renumber n m.pc) steps).run.fault ≠ some .stepLimit) :
    ∃ pc steps', m.step.StandsAt n pc ∧
      (m.placed source p (renumber n m.pc) steps).step = m.step.placed source p pc steps' := by
  have hmoved := hp.moved m.pc
  generalize hi : m.program.at? m.pc = found at hmoved
  generalize hi' : p.at? (renumber n m.pc) = found' at hmoved
  cases hmoved with
  | none =>
    refine ⟨renumber n m.pc, steps, ?_, ?_⟩
    · rw [step_of_end hm hi]
      exact .inl rfl
    · rw [step_of_end hm hi, @step_of_end (m.placed source p (renumber n m.pc) steps) hm hi']
      rfl
  | @some i i' hmoved =>
    have halike : Alike n source p m.countStep i.operation i'.operation :=
      @execute_alike n m.countStep source p hp.strings hm hn _ _ hmoved.operation
    obtain ⟨pc, hpc, hexecute⟩ := halike
    refine ⟨pc, steps + 1, ?_, ?_⟩
    · rw [step_of_run hm hi hlimit]
      exact hpc
    · rw [step_of_run hm hi hlimit,
        @step_of_run (m.placed source p (renumber n m.pc) steps) hm i' hi' hlimit']
      exact hexecute (steps + 1)

/-- Runs within the step limit end alike. The induction is on the turns of
the first run. The second one takes the idle step, if it stands there, and
then follows. -/
theorem run_alike {last : Machine} {k : Nat} (h : Loop m k last) (hp : m.program.Inserted n p)
    (hn : 0 ≤ n) {pc steps : Int} (hpc : m.StandsAt n pc) (hlimit : m.run.fault ≠ some .stepLimit)
    (hlimit' : (m.placed source p pc steps).run.fault ≠ some .stepLimit) :
    ∃ steps', (m.placed source p pc steps).run =
      last.placed source p (renumber n last.pc) steps' := by
  induction h generalizing pc steps with
  | @stop m hstop =>
    rcases hpc with rfl | ⟨hm, _⟩
    · exact ⟨steps, run_of_not_ready hstop⟩
    · exact absurd hm hstop
  | @turn m last k hm rest ih =>
    have hturn (steps : Int)
        (hlimit' : (m.placed source p (renumber n m.pc) steps).run.fault ≠ some .stepLimit) :
        ∃ steps', (m.placed source p (renumber n m.pc) steps).run =
          last.placed source p (renumber n last.pc) steps' := by
      obtain ⟨pc, steps', hpc, hstep⟩ := step_alike hp hn hm hlimit hlimit'
      rw [← run_step, hstep] at hlimit' ⊢
      rw [← run_step] at hlimit
      exact ih ((step_origin m).2 ▸ hp) hpc hlimit hlimit'
    rcases hpc with rfl | ⟨_, hat, rfl⟩
    · exact hturn steps hlimit'
    · have hnext : pc + 1 = renumber pc m.pc := by simp [renumber, hat]
      have hidle := step_idle hp hm hlimit'
      rw [← run_step, hidle, hnext] at hlimit' ⊢
      exact hturn (steps + 1) hlimit'

/-- An idle line between two lines of the text segment is one more entry of
the program and changes nothing else: runs that both end within the step limit
leave the same machine, with its program counter renumbered. -/
theorem run_insert (hload : load source = .ok p) {before after : List Text}
    (hsplit : source.splitOn '\n' = before ++ after)
    (hseg : before.foldl Draft.segmentAfter .text = .text) (o : Overrides) :
    let n : Int := (Draft.ofLines before).lines.length
    let source' := ['\n'].intercalate (before ++ idleLine :: after)
    let m := (create source o).run
    let m' := (create source' o).run
    ∃ p', load source' = .ok p' ∧ p.Inserted n p' ∧
      (m.fault ≠ some .stepLimit → m'.fault ≠ some .stepLimit →
        m' = { m with
          source := source', program := p', pc := renumber n m.pc, steps := m'.steps }) := by
  intro n source' m m'
  obtain ⟨p', hload', hp⟩ := load_insert hload hsplit hseg
  refine ⟨p', hload', hp, fun hlimit hlimit' => ?_⟩
  have hm : m = (start p source o).run := congrArg run (create_of_load hload o)
  have hm' : m' = ((start p source o).placed source' p' 0 0).run :=
    congrArg run (create_of_load hload' o)
  have hn : 0 ≤ n := Int.natCast_nonneg _
  have hstart : (start p source o).StandsAt n 0 :=
    @standsAt_goTo n (start p source o) rfl 0 0 (leadsTo_self hn)
  obtain ⟨k, -, hloop⟩ := loop_run (start p source o)
  rw [hm] at hlimit
  rw [hm'] at hlimit'
  obtain ⟨steps, hrun⟩ := run_alike hloop hp hn hstart hlimit hlimit'
  rw [hm', hm, hrun]
  rfl

/-- A loop whose head is at the place. The idle line is executed on the way
in and again on every way back, and the runs end alike. -/
theorem run_insert_loop_head :
    let before := [ofString "li $t0, 2", ofString "loop:"]
    let after := [ofString "addi $t0, $t0, -1", ofString "bne $t0, $zero, loop"]
    let source := ['\n'].intercalate (before ++ after)
    let source' := ['\n'].intercalate (before ++ idleLine :: after)
    let m := (create source {}).run
    let m' := (create source' {}).run
    source.splitOn '\n' = before ++ after ∧ before.foldl Draft.segmentAfter .text = .text ∧
      m.fault = none ∧ m'.fault = none ∧
      ∃ p p', load source = .ok p ∧ load source' = .ok p' ∧ p.Inserted 1 p' ∧
        m' = { m with
          source := source', program := p', pc := renumber 1 m.pc, steps := m'.steps } := by
  intro before after source source' m m'
  have hsplit : source.splitOn '\n' = before ++ after := by decide +kernel
  have hseg : before.foldl Draft.segmentAfter .text = .text := by decide +kernel
  have hfault : m.fault = none := by decide +kernel
  have hfault' : m'.fault = none := by decide +kernel
  have hload : load source = .ok (Draft.ofLines (before ++ after)).program :=
    load_of_lines (congrArg Draft.ofLines hsplit) (by decide +kernel)
  have hplace : (Draft.ofLines before).lines.length = 1 := by decide +kernel
  obtain ⟨p', hload', hp, hrun⟩ := run_insert hload hsplit hseg {}
  rw [hplace] at hp hrun
  exact ⟨hsplit, hseg, hfault, hfault', _, p', hload, hload', hp,
    hrun (by rw [hfault]; nofun) (by rw [hfault']; nofun)⟩

end Runs

end Machine

end MipsStepper
