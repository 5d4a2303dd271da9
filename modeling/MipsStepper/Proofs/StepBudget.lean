import MipsStepper.Proofs.Placement

/-!
# The step count as a budget

No operation reads the step count. A machine with another count takes the same
steps as long as the limit leaves it some, and ends alike if these are enough
for the run. If they are not, it is stopped where the last of them has led. The
end of the program needs no step, so that it is found under any count.
-/

set_option autoImplicit false

namespace MipsStepper.Machine
open Text (ofString)

def TimedOut (m : Machine) : Prop :=
  m.status = .error ∧ m.error = ofString "MIPS execution timed out."

def withSteps (m : Machine) (k : Int) : Machine := { m with steps := k }

section Steps
variable {m : Machine} {k : Int}

theorem fail_stepLimit_timedOut (m : Machine) : (m.fail .stepLimit).TimedOut := ⟨rfl, rfl⟩

theorem execute_withSteps (m : Machine) (o : Operation) (k : Int) :
    (m.withSteps k).execute o = (m.execute o).withSteps k := by
  obtain ⟨hsource, hprogram⟩ := (execute_outcome m o).origin
  calc (m.withSteps k).execute o
    _ = (m.execute o).placed m.source m.program (m.execute o).pc k := execute_placed rfl o k
    _ = (m.execute o).placed (m.execute o).source (m.execute o).program (m.execute o).pc k := by
      rw [hsource, hprogram]
    _ = (m.execute o).withSteps k := rfl

theorem step_withSteps (h : m.executes) (hk : k < stepLimit) :
    (m.withSteps k).step = m.step.withSteps (k + 1) := by
  obtain ⟨i, hi, hstep⟩ := step_of_executes h
  have hm := ready_of_executes h
  have hother := @step_of_instruction (m.withSteps k) hm i hi
  calc (m.withSteps k).step
    _ = (m.countStep.withSteps (k + 1)).execute i.operation :=
      hother.trans (if_neg (Int.not_le.mpr hk))
    _ = (m.countStep.execute i.operation).withSteps (k + 1) := execute_withSteps _ _ _
    _ = m.step.withSteps (k + 1) := by rw [hstep]

theorem step_withSteps_spent (h : m.executes) (hk : stepLimit ≤ k) :
    (m.withSteps k).step = (m.withSteps k).fail .stepLimit := by
  obtain ⟨i, hi, -⟩ := step_of_executes h
  have hm := ready_of_executes h
  have hother := @step_of_instruction (m.withSteps k) hm i hi
  exact hother.trans (if_pos hk)

/-- A step that executes nothing and is not stopped by the limit needs none. -/
theorem step_withSteps_idle (h : m.executes = false) (hm : m.status = .ready)
    (hstep : ¬ m.step.TimedOut) (k : Int) : (m.withSteps k).step = m.step.withSteps k := by
  have ht := step_transition m
  generalize m.step = m' at ht hstep
  cases ht with
  | stopped hstopped => exact absurd hm hstopped
  | finished _ hi => exact @step_of_end (m.withSteps k) hm hi
  | expired _ _ _ => exact absurd (fail_stepLimit_timedOut m) hstep
  | performed _ hi hs => simp [executes, hm, hi, hs] at h

end Steps

section Runs
variable {m last : Machine} {calls : Nat} {k : Int}

theorem Loop.of_not_executes (h : Loop m.step calls last) (hx : m.executes = false) :
    calls = 0 ∧ last = m.step :=
  h.unique (.stop (step_of_not_executes hx).1)

theorem Loop.withSteps (h : Loop m calls last) (hlast : ¬ last.TimedOut)
    (hk : executions calls m = 0 ∨ k + executions calls m ≤ stepLimit) :
    Loop (m.withSteps k) calls (last.withSteps (k + executions calls m)) := by
  induction h generalizing k with
  | @stop m hm =>
    have hcount : k + (executions 0 m : Int) = k := Int.add_zero k
    rw [hcount]
    exact .stop hm
  | @turn m last calls hm rest ih =>
    rw [executions_succ] at hk ⊢
    cases hx : m.executes with
    | true =>
      rw [hx, Bool.toNat_true] at hk
      have hstep := @step_withSteps m k hx (by omega)
      have hrest := ih hlast (show _ ∨ k + 1 + _ ≤ _ by omega)
      rw [← hstep] at hrest
      have hcount : k + ((executions calls m.step + 1 : Nat) : Int) =
          k + 1 + executions calls m.step := by omega
      rw [Bool.toNat_true, hcount]
      exact .turn hm hrest
    | false =>
      obtain ⟨rfl, rfl⟩ := rest.of_not_executes hx
      have hcount : k + ((executions 0 m.step + false.toNat : Nat) : Int) = k := Int.add_zero k
      rw [hcount]
      refine .turn hm ?_
      rw [step_withSteps_idle hx hm hlast]
      exact .stop (step_of_not_executes hx).1

/-- With too few steps left for the run, all that are left are taken. The
machine is stopped at the next instruction, which the run does execute. -/
theorem Loop.run_withSteps_spent (h : Loop m calls last) (hn : executions calls m ≠ 0)
    (hk : stepLimit < k + executions calls m) :
    (m.withSteps k).run =
      ((Machine.stepN (stepLimit - k).toNat m).withSteps (max k stepLimit)).fail .stepLimit := by
  induction h generalizing k with
  | stop _ => exact absurd rfl hn
  | @turn m last calls hm rest ih =>
    rw [executions_succ] at hn hk
    cases hx : m.executes with
    | false =>
      obtain ⟨rfl, -⟩ := rest.of_not_executes hx
      rw [hx] at hn
      exact absurd rfl hn
    | true =>
      rw [hx, Bool.toNat_true] at hk
      by_cases hspent : stepLimit ≤ k
      · have hleft : (stepLimit - k).toNat = 0 := by omega
        rw [← run_step, step_withSteps_spent hx hspent, hleft, Int.max_eq_left hspent]
        exact run_of_not_ready nofun
      · have hleft : (stepLimit - k).toNat = (stepLimit - (k + 1)).toNat + 1 := by omega
        have hmax : max k stepLimit = max (k + 1) stepLimit := by omega
        rw [← run_step, step_withSteps hx (by omega), hleft, hmax]
        exact ih (by omega) (by omega)

/-- The step count only bounds a run. Under any count, the run is the same and
counts on from there, if it executes nothing or the limit leaves it steps
enough. Otherwise it times out where the steps that are left have led it. -/
theorem run_budget (m : Machine) (hlast : ¬ m.run.TimedOut) :
    ∃ calls, Loop m calls m.run ∧
      let n := executions calls m
      m.run.steps - m.steps = n ∧
      ∀ k : Int,
        (n = 0 ∨ k + n ≤ stepLimit →
          run { m with steps := k } = { m.run with steps := k + n }) ∧
        (¬ (n = 0 ∨ k + n ≤ stepLimit) →
          let reached := stepN (max 0 (stepLimit - k)).toNat m
          (run { m with steps := k }).TimedOut ∧
            run { m with steps := k } =
              { reached with
                steps := max k stepLimit, status := .error, fault := some .stepLimit }) := by
  obtain ⟨calls, -, hloop⟩ := loop_run m
  refine ⟨calls, hloop, ?_⟩
  intro n
  have hcount := stepN_steps calls m
  rw [← hloop.stepN.1] at hcount
  refine ⟨by omega, fun k => ⟨fun hk => ?_, fun hk => ?_⟩⟩
  · exact run_eq_of_loop (hloop.withSteps hlast hk)
  · rw [not_or] at hk
    have hleft : (max 0 (stepLimit - k)).toNat = (stepLimit - k).toNat := by omega
    have hrun : run { m with steps := k } =
        ((stepN (stepLimit - k).toNat m).withSteps (max k stepLimit)).fail .stepLimit :=
      hloop.run_withSteps_spent hk.1 (by omega)
    rw [hleft, hrun]
    exact ⟨fail_stepLimit_timedOut _, rfl⟩

/-- A loop of seven instructions, the last of which exits. It may be the last
one that the limit allows, and it is not executed with one step less. -/
theorem run_budget_last_step :
    let m := create (ofString
      "li $t0, 2\nup: addi $t0, $t0, -1\nbne $t0, $zero, up\nli $v0, 10\nsyscall") {}
    ¬ m.run.TimedOut ∧ m.run.status = .halted ∧
      run { m with steps := stepLimit - 7 } = { m.run with steps := stepLimit } ∧
      (run { m with steps := stepLimit - 6 }).TimedOut ∧
      run { m with steps := stepLimit - 6 } =
        { stepN 6 m with steps := stepLimit, status := .error, fault := some .stepLimit } := by
  intro m
  obtain ⟨hstatus, hsteps⟩ : m.run.status = .halted ∧ m.run.steps - m.steps = 7 := by decide +kernel
  have hlast : ¬ m.run.TimedOut := fun h => by simp [TimedOut, hstatus] at h
  obtain ⟨calls, -, hcount, hbudget⟩ := run_budget m hlast
  have hn : executions calls m = 7 := by omega
  simp only [hn] at hbudget
  have henough := (hbudget (stepLimit - 7)).1 (by omega)
  obtain ⟨htimedOut, hspent⟩ := (hbudget (stepLimit - 6)).2 (by omega)
  exact ⟨hlast, hstatus, henough, htimedOut, hspent⟩

end Runs

end MipsStepper.Machine
