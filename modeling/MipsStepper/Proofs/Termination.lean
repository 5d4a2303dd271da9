import MipsStepper.Proofs.Step

/-!
# Termination of runs

The loop "while ready, step" is a relation of its own, without a bound on its
turns. Every ready machine counts a step or stops, so the steps left below
the limit bound the loop, and the bounded run is what the loop leaves. A run
absorbs the steps taken before it and runs once only.
-/

set_option autoImplicit false

namespace MipsStepper.Machine

/-- The loop "while ready, step": where it starts, its step calls and where
it ends. -/
inductive Loop : Machine → Nat → Machine → Prop where
  | stop {m : Machine} (h : m.status ≠ .ready) : Loop m 0 m
  | turn {m last : Machine} {k : Nat} (h : m.status = .ready) (rest : Loop m.step k last) :
      Loop m (k + 1) last

def executes (m : Machine) : Bool :=
  m.status = .ready ∧ m.instruction?.isSome ∧ m.steps < stepLimit

def executions (k : Nat) (m : Machine) : Nat :=
  (List.range k).countP fun i => (stepN i m).executes

theorem ready_of_executes {m : Machine} (h : m.executes) : m.status = .ready := by
  simp only [executes, decide_eq_true_eq] at h
  exact h.1

theorem steps_lt_of_executes {m : Machine} (h : m.executes) : m.steps < stepLimit := by
  simp only [executes, decide_eq_true_eq] at h
  exact h.2.2

theorem toNat_executes_le (m : Machine) :
    (m.executes.toNat : Int) ≤ max 0 (stepLimit - m.steps) := by
  cases h : m.executes with
  | false => exact Int.le_max_left _ _
  | true =>
    have hlt := steps_lt_of_executes h
    rw [Bool.toNat_true]
    omega

theorem executions_succ (k : Nat) (m : Machine) :
    executions (k + 1) m = executions k m.step + m.executes.toNat := by
  cases h : m.executes <;>
    simp [executions, List.range_succ_eq_map, Function.comp_def, stepN, h]

theorem step_of_executes {m : Machine} (h : m.executes) :
    ∃ i, m.instruction? = some i ∧ m.step = m.countStep.execute i.operation := by
  simp only [executes, decide_eq_true_eq] at h
  obtain ⟨hm, _, hs⟩ := h
  have ht := step_transition m
  generalize m.step = m' at ht
  cases ht with
  | stopped h' => exact absurd hm h'
  | finished _ hi => simp_all
  | expired _ _ hs' => omega
  | @performed _ i hi _ => exact ⟨i, hi, rfl⟩

theorem step_of_not_executes {m : Machine} (h : m.executes = false) :
    m.step.status ≠ .ready ∧ m.step.steps = m.steps := by
  have ht := step_transition m
  generalize m.step = m' at ht
  cases ht with
  | stopped hm => exact ⟨hm, rfl⟩
  | finished _ _ => exact ⟨nofun, rfl⟩
  | expired _ _ _ => exact ⟨nofun, rfl⟩
  | performed hm hi hs => simp [executes, hm, hi, hs] at h

theorem step_steps (m : Machine) : m.step.steps = m.steps + m.executes.toNat := by
  cases h : m.executes with
  | false => exact (step_of_not_executes h).2.trans (Int.add_zero m.steps).symm
  | true =>
    obtain ⟨i, _, hstep⟩ := step_of_executes h
    rw [hstep]
    exact (execute_outcome m.countStep i.operation).steps

theorem executes_of_step_ready {m : Machine} (h : m.step.status = .ready) : m.executes := by
  cases hx : m.executes with
  | false => exact absurd h (step_of_not_executes hx).1
  | true => rfl

theorem lt_of_executes {m : Machine} {n k : Nat} (hn : (stepN n m).status ≠ .ready)
    (hk : (stepN k m).executes) : k < n := by
  by_cases h : k < n
  · exact h
  · obtain ⟨j, rfl⟩ := Nat.exists_eq_add_of_le (Nat.le_of_not_lt h)
    rw [stepN_add, stepN_of_not_ready j hn] at hk
    simp [executes, hn] at hk

theorem stepN_steps (k : Nat) (m : Machine) :
    (stepN k m).steps = m.steps + executions k m := by
  induction k generalizing m with
  | zero => simp [stepN, executions]
  | succ k ih =>
    rw [stepN, ih, step_steps, executions_succ]
    push_cast
    omega

theorem step_steps_le (m : Machine) : m.step.steps ≤ max m.steps stepLimit := by
  have h := toNat_executes_le m
  rw [step_steps]
  omega

theorem stepN_steps_le (k : Nat) (m : Machine) :
    (stepN k m).steps ≤ max m.steps stepLimit := by
  induction k generalizing m with
  | zero => exact Int.le_max_left _ _
  | succ k ih =>
    have hr := ih m.step
    have hs := step_steps_le m
    rw [stepN]
    omega

theorem Loop.stepN {m last : Machine} {k : Nat} (h : Loop m k last) :
    last = Machine.stepN k m ∧ last.status ≠ .ready ∧
      ∀ i < k, (Machine.stepN i m).status = .ready := by
  induction h with
  | stop h => exact ⟨rfl, h, by simp⟩
  | @turn m last k h _ ih =>
    obtain ⟨hlast, hstop, hready⟩ := ih
    refine ⟨hlast, hstop, fun i hi => ?_⟩
    cases i with
    | zero => exact h
    | succ i => exact hready i (by omega)

theorem Loop.unique {m a b : Machine} {j k : Nat} (ha : Loop m j a) (hb : Loop m k b) :
    j = k ∧ a = b := by
  induction ha generalizing k with
  | stop h =>
    cases hb with
    | stop _ => exact ⟨rfl, rfl⟩
    | turn h' _ => exact absurd h' h
  | turn h _ ih =>
    cases hb with
    | stop h' => exact absurd h h'
    | turn _ rest =>
      obtain ⟨hj, hab⟩ := ih rest
      exact ⟨congrArg (· + 1) hj, hab⟩

/-- The bound counts the steps that are left. A turn that finds no step left
is the last one, since it does not leave the machine ready. -/
theorem loop_runFor (n : Nat) (m : Machine) (h : m.stepsLeft < n) :
    ∃ k ≤ n, Loop m k (runFor n m) := by
  induction n generalizing m with
  | zero => omega
  | succ n ih =>
    by_cases hm : m.status = .ready
    · have hrun : runFor (n + 1) m = runFor n m.step := by rw [runFor, hm]
      rw [hrun]
      by_cases hs : m.step.status = .ready
      · have hx := executes_of_step_ready hs
        have hcount := step_steps m
        have hlt := steps_lt_of_executes hx
        rw [hx, Bool.toNat_true] at hcount
        obtain ⟨k, hk, hl⟩ := ih m.step (by unfold stepsLeft at h ⊢; omega)
        exact ⟨k + 1, by omega, .turn hm hl⟩
      · rw [runFor_eq_stepN, stepN_of_not_ready n hs]
        exact ⟨1, by omega, .turn hm (.stop hs)⟩
    · rw [runFor_eq_stepN, stepN_of_not_ready _ hm]
      exact ⟨0, by omega, .stop hm⟩

theorem loop_run (m : Machine) : ∃ k ≤ m.stepsLeft + 1, Loop m k m.run :=
  loop_runFor (m.stepsLeft + 1) m (by omega)

theorem run_eq_of_loop {m last : Machine} {k : Nat} (h : Loop m k last) : m.run = last := by
  obtain ⟨j, _, hj⟩ := loop_run m
  exact (hj.unique h).2

theorem run_of_not_ready {m : Machine} (h : m.status ≠ .ready) : m.run = m :=
  run_eq_of_loop (.stop h)

theorem run_status (m : Machine) : m.run.status ≠ .ready := by
  obtain ⟨k, _, hk⟩ := loop_run m
  exact hk.stepN.2.1

theorem run_last_step {m : Machine} (h : m.status = .ready) :
    ∃ j, (stepN j m).status = .ready ∧ m.run = (stepN j m).step := by
  obtain ⟨k, _, hloop⟩ := loop_run m
  obtain ⟨hlast, hstop, hready⟩ := hloop.stepN
  cases k with
  | zero =>
    rw [hlast] at hstop
    exact absurd h hstop
  | succ j => exact ⟨j, hready j (by omega), hlast.trans (stepN_succ j m)⟩

theorem run_origin (m : Machine) : m.run.source = m.source ∧ m.run.program = m.program := by
  obtain ⟨k, _, hloop⟩ := loop_run m
  rw [hloop.stepN.1]
  exact stepN_origin k m

theorem run_step (m : Machine) : m.step.run = m.run := by
  by_cases h : m.status = .ready
  · obtain ⟨k, _, hk⟩ := loop_run m.step
    exact (run_eq_of_loop (.turn h hk)).symm
  · rw [step_of_not_ready h]

theorem run_stepN (j : Nat) (m : Machine) : (stepN j m).run = m.run := by
  induction j generalizing m with
  | zero => rfl
  | succ j ih => rw [stepN, ih, run_step]

theorem run_run (m : Machine) : m.run.run = m.run := run_of_not_ready (run_status m)

/-- Every run ends, from any machine. It is the least iterate of the step
that is not ready, it is bounded by the steps that are left, and it counts
exactly the instructions it executes. -/
theorem run_terminates (m : Machine) :
    ∃ k : Nat, Loop m k m.run ∧
      m.run = stepN k m ∧ m.run.status ≠ .ready ∧ (∀ i < k, (stepN i m).status = .ready) ∧
      (m.status ≠ .ready → k = 0) ∧ (k : Int) ≤ max 0 (stepLimit - m.steps) + 1 ∧
      m.run.steps ≤ max m.steps stepLimit ∧ m.run.steps - m.steps = executions k m ∧
      (∀ j, (stepN j m).run = m.run) ∧ m.run.run = m.run := by
  obtain ⟨k, hk, hloop⟩ := loop_run m
  obtain ⟨heq, hstop, hready⟩ := hloop.stepN
  have hzero : m.status ≠ .ready → k = 0 := fun h => (hloop.unique (.stop h)).1
  have hbound : (k : Int) ≤ max 0 (stepLimit - m.steps) + 1 := by
    unfold stepsLeft at hk
    omega
  have hsteps := stepN_steps_le k m
  have hcount := stepN_steps k m
  rw [← heq] at hsteps hcount
  exact ⟨k, hloop, heq, hstop, hready, hzero, hbound, hsteps, by omega,
    fun j => run_stepN j m, run_run m⟩

end MipsStepper.Machine
