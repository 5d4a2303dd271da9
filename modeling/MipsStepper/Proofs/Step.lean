import Mathlib.Tactic.SplitIfs
import MipsStepper.Machine.Run
import MipsStepper.Proofs.Actions

/-!
# What a step can do

An operation goes on, exits or is refused, and a step does nothing, ends at
the end of the program, stops at the limit or performs one operation. Every
law of runs is read off these two case lists, so that no later proof unfolds
an operation.
-/

set_option autoImplicit false

namespace MipsStepper.Machine

/-- What no operation that goes on can change. -/
structure Frame (m m' : Machine) : Prop where
  source : m'.source = m.source
  program : m'.program = m.program
  status : m'.status = m.status
  fault : m'.fault = m.fault
  steps : m'.steps = m.steps
  zero : m'.registers.cells.get Register.zero = m.registers.cells.get Register.zero

/-- The operations that fail on a machine, with the fault they leave. -/
inductive Refused (m : Machine) : Operation → Fault → Prop where
  | defect (d : Defect) : Refused m (.defective d) (.defect d)
  | label {c : Condition} {rs rt : Option Register} {l : Text} {target : Option Int}
      (taken : c.holds (m.value rs) (m.value rt)) (missing : ∀ i, target = some i → i < 0) :
      Refused m (.branch c rs rt l target) (.unknownLabel l)
  | service (unknown : Service.ofCode? (m.value (some Register.v0)) = none) :
      Refused m .syscall (.unsupportedService (m.value (some Register.v0)))

/-- A jump, or a branch whose condition holds, with its label and the index
that it leads to. -/
inductive Leaps (m : Machine) : Operation → Text → Int → Prop where
  | branch {c : Condition} {rs rt : Option Register} {l : Text} {index : Int}
      (taken : c.holds (m.value rs) (m.value rt)) :
      Leaps m (.branch c rs rt l (some index)) l index
  | jump {l : Text} {index : Int} : Leaps m (.jump l index) l index

inductive Turns (m : Machine) (o : Operation) : Turn → Prop where
  | next : Turns m o .next
  | leap {l : Text} {index : Int} (h : Leaps m o l index) : Turns m o (.goTo index)
  | exit (ho : o = .syscall) (hv : m.value (some Register.v0) = 10) : Turns m o .halt
  | refused {f : Fault} (h : Refused m o f) : Turns m o (.fail f)

inductive Outcome (m : Machine) (o : Operation) : Machine → Prop where
  | refused {f : Fault} (h : Refused m o f) : Outcome m o (m.fail f)
  | exit (ho : o = .syscall) (hv : m.value (some Register.v0) = 10) : Outcome m o m.halt
  | next {m' : Machine} (frame : Frame m m')
      (hpc : m'.pc = m.pc + 1 ∨ ∃ l, Leaps m o l m'.pc) : Outcome m o m'

theorem Leaps.target?_eq {m : Machine} {o : Operation} {l : Text} {index : Int}
    (h : Leaps m o l index) : o.target? = some index := by
  cases h <;> rfl

theorem write_get (f : RegisterFile) {destination : Option Register} (v : Word) {r : Register}
    (h : destination.filter (fun d => d ≠ Register.zero) ≠ some r) :
    (f.write destination v).cells.get r = f.cells.get r := by
  cases destination with
  | none => rfl
  | some d =>
    by_cases hd : d = Register.zero
    · simp [RegisterFile.write, hd]
    · have hne : d ≠ r := by
        rintro rfl
        simp [Option.filter, hd] at h
      simp [RegisterFile.write, RegisterFile.get_set, hd, hne]

theorem get_zero_write (f : RegisterFile) (r : Option Register) (v : Word) :
    (f.write r v).cells.get Register.zero = f.cells.get Register.zero := by
  apply write_get
  simp [Option.filter_eq_some_iff]

theorem act_frame (m : Machine) {x : Action} (hstatus : x.turn.status m.status = m.status)
    (hfault : x.turn.fault m.fault = m.fault) : Frame m (m.act x) :=
  ⟨rfl, rfl, hstatus, hfault, rfl, get_zero_write m.registers _ _⟩

theorem serviceOfCode_exit {code : Word} (h : Service.ofCode? code = some .exit) : code = 10 := by
  unfold Service.ofCode? at h
  split_ifs at h with h1 h4 h10 h11 <;> simp_all

theorem serviceOfCode_none {code : Word} (h : Service.ofCode? code = none) :
    code ∉ [1, 4, 10, 11] := by
  unfold Service.ofCode? at h
  split_ifs at h with h1 h4 h10 h11
  simp [h1, h4, h10, h11]

theorem Refused.execute_eq {m : Machine} {o : Operation} {f : Fault} (h : Refused m o f) :
    m.execute o = m.fail f := by
  cases h with
  | defect d => rfl
  | @label c rs rt l target taken missing =>
    rw [execute, if_pos taken]
    cases target with
    | none => rfl
    | some n => simp [takeBranch, missing n rfl]
  | service unknown => simp [execute, systemCall, unknown]

theorem execute_exit {m : Machine} (hv : m.value (some Register.v0) = 10) :
    m.execute .syscall = m.halt := by
  simp [execute, systemCall, Service.ofCode?, hv, serve, serveWith]

theorem taken_turns {m : Machine} {c : Condition} {rs rt : Option Register} {l : Text}
    {target : Option Int} (taken : c.holds (m.value rs) (m.value rt)) :
    Turns m (.branch c rs rt l target) (.taken l target) := by
  unfold Turn.taken
  split
  · split_ifs with hi
    · exact .refused (.label taken (by simpa using hi))
    · exact .leap (.branch taken)
  · exact .refused (.label taken nofun)

/-- The case list of operations. Only a taken branch and a jump set the
program counter to anything but the next index. -/
theorem turn_turns (m : Machine) (o : Operation) : Turns m o (m.turn o) := by
  cases o with
  | branch c rs rt l target =>
    simp only [turn]
    split_ifs with taken
    · exact taken_turns taken
    · exact .next
  | jump l target => exact .leap .jump
  | syscall =>
    simp only [turn]
    split
    · rename_i hs
      exact .exit rfl (serviceOfCode_exit hs)
    · exact .next
    · rename_i hs
      exact .refused (.service hs)
  | defective d => exact .refused (.defect d)
  | _ => exact .next

theorem execute_outcome (m : Machine) (o : Operation) : Outcome m o (m.execute o) := by
  have hact := execute_eq_act m o
  have hreason := turn_turns m o
  have hframe (hstatus : (m.turn o).status m.status = m.status)
      (hfault : (m.turn o).fault m.fault = m.fault) : Frame m (m.execute o) := by
    rw [hact]
    exact act_frame m hstatus hfault
  have hpc : (m.execute o).pc = (m.turn o).pc m.pc := by
    rw [hact]
    rfl
  generalize m.turn o = t at hreason hframe hpc
  cases hreason with
  | next => exact .next (hframe rfl rfl) (.inl hpc)
  | @leap l index h => exact .next (hframe rfl rfl) (.inr ⟨l, hpc ▸ h⟩)
  | exit ho hv =>
    subst ho
    rw [execute_exit hv]
    exact .exit rfl hv
  | refused h =>
    rw [h.execute_eq]
    exact .refused h

theorem Outcome.steps {m m' : Machine} {o : Operation} (h : Outcome m o m') :
    m'.steps = m.steps := by
  cases h with
  | refused _ => rfl
  | exit _ _ => rfl
  | next frame _ => exact frame.steps

theorem Outcome.origin {m m' : Machine} {o : Operation} (h : Outcome m o m') :
    m'.source = m.source ∧ m'.program = m.program := by
  cases h with
  | refused _ => exact ⟨rfl, rfl⟩
  | exit _ _ => exact ⟨rfl, rfl⟩
  | next frame _ => exact ⟨frame.source, frame.program⟩

inductive Transition (m : Machine) : Machine → Prop where
  | stopped (h : m.status ≠ .ready) : Transition m m
  | finished (h : m.status = .ready) (hi : m.instruction? = none) : Transition m m.halt
  | expired (h : m.status = .ready) {i : Instruction} (hi : m.instruction? = some i)
      (hs : stepLimit ≤ m.steps) : Transition m (m.fail .stepLimit)
  | performed (h : m.status = .ready) {i : Instruction} (hi : m.instruction? = some i)
      (hs : m.steps < stepLimit) : Transition m (m.countStep.execute i.operation)

theorem step_transition (m : Machine) : Transition m m.step := by
  by_cases h : m.status = .ready
  · have hstep : m.step = m.stepReady := by simp [step, h]
    rw [hstep, stepReady]
    cases hi : m.instruction? with
    | none => exact .finished h hi
    | some i =>
      by_cases hs : stepLimit ≤ m.steps
      · simp only [hs, if_true]
        exact .expired h hi hs
      · simp only [hs, if_false]
        exact .performed h hi (by omega)
  · rw [step_of_not_ready h]
    exact .stopped h

theorem step_of_end {m : Machine} (hm : m.status = .ready) (hi : m.instruction? = none) :
    m.step = m.halt := by
  simp [step, hm, stepReady, hi]

theorem step_of_instruction {m : Machine} (hm : m.status = .ready) {i : Instruction}
    (hi : m.instruction? = some i) :
    m.step = if stepLimit ≤ m.steps then m.fail .stepLimit else m.countStep.execute i.operation := by
  simp [step, hm, stepReady, hi]

theorem step_origin (m : Machine) : m.step.source = m.source ∧ m.step.program = m.program := by
  have ht := step_transition m
  generalize m.step = m' at ht
  cases ht with
  | stopped _ => exact ⟨rfl, rfl⟩
  | finished _ _ => exact ⟨rfl, rfl⟩
  | expired _ _ _ => exact ⟨rfl, rfl⟩
  | @performed _ i _ _ => exact (execute_outcome m.countStep i.operation).origin

theorem stepN_origin (n : Nat) (m : Machine) :
    (stepN n m).source = m.source ∧ (stepN n m).program = m.program := by
  induction n generalizing m with
  | zero => exact ⟨rfl, rfl⟩
  | succ n ih =>
    have hn := ih m.step
    have hs := step_origin m
    exact ⟨hn.1.trans hs.1, hn.2.trans hs.2⟩

theorem stepN_succ (n : Nat) (m : Machine) : stepN (n + 1) m = (stepN n m).step :=
  stepN_add n 1 m

end MipsStepper.Machine
