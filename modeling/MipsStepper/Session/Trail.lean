import MipsStepper.Machine.Run
import MipsStepper.Session.View

/-!
# Trails

A trail is a loaded program with the snapshots of its execution so far, the
current one apart from the earlier ones, which are kept newest first. Stepping
and running add snapshots, going back drops them, and the first one stays.
-/

set_option autoImplicit false

namespace MipsStepper
open Text (ofString)

structure Trail where
  source : Text
  program : Program
  current : Machine
  past : List Machine := []

namespace Trail

def fresh (source : Text) (program : Program) (o : Overrides) : Trail where
  source := source
  program := program
  current := Machine.start program source o

def restart (t : Trail) (o : Overrides) : Trail := fresh t.source t.program o

def history (t : Trail) : List Machine := t.past.reverse ++ [t.current]

def size (t : Trail) : Nat := t.past.length + 1

def push (t : Trail) (m : Machine) : Trail := { t with current := m, past := t.current :: t.past }

/-- Up to `n` steps, each with its instruction and its effects told. A machine
that is not ready stops the series. -/
def step : Nat → Trail → Trail × Text
  | 0, t => (t, [])
  | n + 1, t =>
    match t.current.status with
    | .ready =>
      let after := t.current.step
      let (last, told) := step n (t.push after)
      (last, t.current.traceLine ++ Machine.transition t.current after ++ told)
    | s => (t, ofString "Machine is " ++ s.name ++ ['\n'])

def run (t : Trail) : Trail × Text :=
  (t.push t.current.run, Machine.transition t.current t.current.run)

def rewind : Nat → Trail → Trail
  | 0, t => t
  | n + 1, t =>
    match t.past with
    | [] => t
    | m :: older => rewind n { t with current := m, past := older }

def back (n : Nat) (t : Trail) : Trail × Text :=
  let earlier := t.rewind n
  (earlier, ofString "Rewound " ++ decimal (t.size - earlier.size) ++ ofString " step(s), pc = " ++
    decimal earlier.current.pc ++ ['\n'])

theorem history_push (t : Trail) (m : Machine) : (t.push m).history = t.history ++ [m] := by
  simp [history, push]

theorem length_history (t : Trail) : t.history.length = t.size := by
  simp [history, size]

end Trail

end MipsStepper
