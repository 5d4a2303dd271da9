import MipsStepper.Assembly.Load
import MipsStepper.Memory
import MipsStepper.RegisterFile

/-!
# Machine states

A machine is one point of an execution, a value with the whole program in it.
Overrides set registers and memory cells of the initial state. They are keyed
by the texts that name a register or an address and are applied in the order
of these texts, so that of two spellings of one address the later stands. A
source that fails to load gives a machine that has failed already.
-/

set_option autoImplicit false

namespace MipsStepper
open Text (ofString)

inductive Status where
  | ready
  | halted
  | error
deriving DecidableEq

def Status.name : Status → Text
  | .ready => ofString "ready"
  | .halted => ofString "halted"
  | .error => ofString "error"

inductive Fault where
  | load (error : LoadError)
  | stepLimit
  | defect (defect : Defect)
  | unknownLabel (label : Text)
  | unsupportedService (code : Word)
deriving DecidableEq

def Fault.message : Fault → Text
  | .load e => e.message
  | .stepLimit => ofString "MIPS execution timed out."
  | .defect d => d.message
  | .unknownLabel l => ofString "Unknown label: " ++ l
  | .unsupportedService c => ofString "Unsupported syscall: " ++ c.decimal

structure Machine where
  source : Text
  program : Program
  registers : RegisterFile := .zeroed
  memory : Memory := .empty
  output : Text := []
  status : Status := .ready
  fault : Option Fault := none
  pc : Int := 0
  steps : Int := 0
  touchedRegisters : List Register := []
  touchedMemory : List Word := []

structure Overrides where
  registers : Std.ExtTreeMap Text Word compare := ∅
  memory : Std.ExtTreeMap Text Word compare := ∅

namespace Overrides

/-- The entries that name a register other than `$zero`, on a cleared file. -/
def registerFile (o : Overrides) : RegisterFile :=
  o.registers.toList.foldl (fun f entry => f.write (Register.named? entry.1) entry.2) .zeroed

def applyAddress (m : Memory) (entry : Text × Word) : Memory :=
  (Literal.read? entry.1).elim m fun a => m.write a entry.2

def initialMemory (o : Overrides) : Memory := o.memory.toList.foldl applyAddress .empty

end Overrides

namespace Machine

def start (program : Program) (source : Text) (o : Overrides) : Machine where
  source := source
  program := program
  registers := o.registerFile
  memory := o.initialMemory

def create (source : Text) (o : Overrides) : Machine :=
  match load source with
  | .ok program => start program source o
  | .error e =>
    { source := source, program := {}, status := .error, fault := some (.load e) }

theorem create_of_load {source : Text} {p : Program} (h : load source = .ok p) (o : Overrides) :
    create source o = start p source o := by
  simp [create, h]

def instruction? (m : Machine) : Option Instruction := m.program.at? m.pc

def error (m : Machine) : Text := (m.fault.map Fault.message).getD []

end Machine

end MipsStepper
