import MipsStepper.Machine.Step

/-!
# Whole runs

A run steps until the machine is no longer ready. Each step of a ready
machine either counts one step or stops, so the steps that are left below the
limit, and one more to notice the limit, are enough.
-/

set_option autoImplicit false

namespace MipsStepper.Machine

def runFor : Nat → Machine → Machine
  | 0, m => m
  | n + 1, m =>
    match m.status with
    | .ready => runFor n m.step
    | .halted => m
    | .error => m

def stepsLeft (m : Machine) : Nat := (stepLimit - m.steps).toNat

def run (m : Machine) : Machine := runFor (m.stepsLeft + 1) m

theorem runFor_eq_stepN (n : Nat) (m : Machine) : runFor n m = stepN n m := by
  induction n generalizing m with
  | zero => rfl
  | succ n ih =>
    cases hs : m.status with
    | ready => rw [runFor, hs, stepN, ← ih]
    | halted => rw [runFor, hs, stepN_of_not_ready _ (by simp [hs])]
    | error => rw [runFor, hs, stepN_of_not_ready _ (by simp [hs])]

end MipsStepper.Machine
