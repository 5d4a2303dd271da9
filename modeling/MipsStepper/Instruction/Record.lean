import MipsStepper.Instruction

/-!
# Instructions as records

The fields of an instruction are those of its operation side by side. One that
the form of the instruction has no operand for is as it stands in `Fields`. In
a record they are flat: a register is its number, -1 for none, and the mode,
the base and the offset of an address are fields of their own. Nothing keeps a
number of a record within the register table.
-/

set_option autoImplicit false

namespace MipsStepper

structure Fields where
  kind : Kind
  rd : Option Register := none
  rs : Option Register := none
  rt : Option Register := none
  immediate : Word := 0
  memOperand? : Option MemOperand := none
  label : Text := []
  target : Int := -1
  error : Text := []
deriving DecidableEq

def Operation.fields (o : Operation) : Fields where
  kind := o.kind
  rd := o.rd
  rs := o.rs
  rt := o.rt
  immediate := o.immediate
  memOperand? := o.memOperand?
  label := o.label
  target := o.target?.getD (-1)
  error := (o.defect?.map Defect.message).getD []

def Instruction.fields (i : Instruction) : Fields := i.operation.fields

inductive AddressMode where
  | based
  | absolute
deriving DecidableEq

structure Record where
  kind : Kind
  rd : Int := -1
  rs : Int := -1
  rt : Int := -1
  immediate : Word := 0
  mode : AddressMode := .absolute
  base : Int := -1
  offset : Word := 0
  label : Text := []
  target : Int := -1
  defect? : Option Defect := none
deriving DecidableEq

namespace MemOperand

def mode : MemOperand → AddressMode
  | .based _ _ => .based
  | .absolute _ => .absolute

def base : MemOperand → Option Register
  | .based _ r => some r
  | .absolute _ => none

def offset : MemOperand → Word
  | .based n _ => n
  | .absolute a => a

end MemOperand

def Fields.record (x : Fields) (defect? : Option Defect) : Record where
  kind := x.kind
  rd := Register.index x.rd
  rs := Register.index x.rs
  rt := Register.index x.rt
  immediate := x.immediate
  mode := x.memOperand?.elim .absolute MemOperand.mode
  base := Register.index (x.memOperand?.bind MemOperand.base)
  offset := x.memOperand?.elim 0 MemOperand.offset
  label := x.label
  target := x.target
  defect? := defect?

def Operation.record (o : Operation) : Record := o.fields.record o.defect?

def Instruction.record (i : Instruction) : Record := i.operation.record

end MipsStepper
