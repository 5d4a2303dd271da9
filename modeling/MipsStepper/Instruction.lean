import MipsStepper.Numeral
import MipsStepper.Register

/-!
# Instructions

An instruction is a line of assembly text with the operation it denotes. A
line that denotes nothing executable carries a defect instead, which is
reported only when the line is reached. Operand registers are optional: a
well-formed name outside the register table is no register.
-/

set_option autoImplicit false

namespace MipsStepper
open Text (ofString)

inductive Kind where
  | li | la | move
  | addi | add | sub
  | lw | sw
  | beq | bne | j
  | syscall
  | invalid
  | unsupported
deriving DecidableEq

namespace Kind

def all : List Kind :=
  [.li, .la, .move, .addi, .add, .sub, .lw, .sw, .beq, .bne, .j, .syscall, .invalid, .unsupported]

def name : Kind → Text
  | .li => ofString "li"
  | .la => ofString "la"
  | .move => ofString "move"
  | .addi => ofString "addi"
  | .add => ofString "add"
  | .sub => ofString "sub"
  | .lw => ofString "lw"
  | .sw => ofString "sw"
  | .beq => ofString "beq"
  | .bne => ofString "bne"
  | .j => ofString "j"
  | .syscall => ofString "syscall"
  | .invalid => ofString "invalid"
  | .unsupported => ofString "unknown"

def named? (t : Text) : Option Kind := all.find? fun k => k.name = t

end Kind

inductive ArithOp where
  | add
  | sub
deriving DecidableEq

def ArithOp.apply : ArithOp → Word → Word → Word
  | .add, a, b => a + b
  | .sub, a, b => a - b

/-- What the arithmetic unit puts out, zero when no operation is selected. -/
def ArithOp.output (op : Option ArithOp) (a b : Word) : Word :=
  op.elim 0 fun o => o.apply a b

inductive Condition where
  | equal
  | different
deriving DecidableEq

def Condition.holds : Condition → Word → Word → Bool
  | .equal, a, b => a = b
  | .different, a, b => a ≠ b

def Kind.condition? : Kind → Option Condition
  | .beq => some .equal
  | .bne => some .different
  | _ => none

def Kind.branchTaken (k : Kind) (a b : Word) : Bool :=
  k.condition?.any fun c => c.holds a b

inductive MemOperand where
  | based (offset : Word) (base : Register)
  | absolute (address : Word)
deriving DecidableEq

/-- Why a line denotes nothing executable: an operand that resolves to
nothing, or a line of no known form. -/
inductive Defect where
  | immediate (token : Text)
  | dataLabel (label : Text)
  | memoryOperand (operand : Text)
  | label (label : Text)
  | form (line : Text)
deriving DecidableEq

def Defect.message : Defect → Text
  | .immediate t => ofString "Invalid immediate value: " ++ t
  | .dataLabel l => ofString "Unknown data label: " ++ l
  | .memoryOperand x => ofString "Invalid memory operand: " ++ x
  | .label l => ofString "Unknown label: " ++ l
  | .form t => ofString "Unsupported instruction: " ++ t

inductive Operation where
  | li (rd : Option Register) (value : Word)
  | la (rd : Option Register) (address : Word)
  | move (rd rs : Option Register)
  | addi (rd rs : Option Register) (value : Word)
  | arith (op : ArithOp) (rd rs rt : Option Register)
  | lw (rd : Option Register) (source : MemOperand)
  | sw (rs : Option Register) (target : MemOperand)
  | branch (condition : Condition) (rs rt : Option Register) (label : Text) (target : Option Int)
  | jump (label : Text) (target : Int)
  | syscall
  | defective (defect : Defect)
deriving DecidableEq

namespace Operation

def kind : Operation → Kind
  | .li .. => .li
  | .la .. => .la
  | .move .. => .move
  | .addi .. => .addi
  | .arith .add .. => .add
  | .arith .sub .. => .sub
  | .lw .. => .lw
  | .sw .. => .sw
  | .branch .equal .. => .beq
  | .branch .different .. => .bne
  | .jump .. => .j
  | .syscall => .syscall
  | .defective (.form _) => .unsupported
  | .defective _ => .invalid

def rd : Operation → Option Register
  | .li rd _ => rd
  | .la rd _ => rd
  | .move rd _ => rd
  | .addi rd _ _ => rd
  | .arith _ rd _ _ => rd
  | .lw rd _ => rd
  | _ => none

def rs : Operation → Option Register
  | .move _ rs => rs
  | .addi _ rs _ => rs
  | .arith _ _ rs _ => rs
  | .sw rs _ => rs
  | .branch _ rs _ _ _ => rs
  | _ => none

def rt : Operation → Option Register
  | .arith _ _ _ rt => rt
  | .branch _ _ rt _ _ => rt
  | _ => none

def immediate : Operation → Word
  | .li _ v => v
  | .la _ a => a
  | .addi _ _ v => v
  | _ => 0

def memOperand? : Operation → Option MemOperand
  | .lw _ x => some x
  | .sw _ x => some x
  | _ => none

def label : Operation → Text
  | .branch _ _ _ l _ => l
  | .jump l _ => l
  | _ => []

def target? : Operation → Option Int
  | .branch _ _ _ _ t => t
  | .jump _ t => some t
  | _ => none

def defect? : Operation → Option Defect
  | .defective d => some d
  | _ => none

end Operation

structure Instruction where
  text : Text
  operation : Operation
deriving DecidableEq

def Instruction.error (i : Instruction) : Text := (i.operation.defect?.map Defect.message).getD []

theorem Kind.named?_name (k : Kind) : Kind.named? k.name = some k := by
  cases k <;> decide +kernel

theorem Operation.exists_defect {o : Operation} (h : o.kind = .invalid ∨ o.kind = .unsupported) :
    ∃ d, o = .defective d := by
  cases o with
  | defective d => exact ⟨d, rfl⟩
  | arith op rd rs rt => cases op <;> simp [Operation.kind] at h
  | branch c rs rt l target => cases c <;> simp [Operation.kind] at h
  | _ => simp [Operation.kind] at h

theorem Defect.message_ne_nil (d : Defect) : d.message ≠ [] := by
  cases d <;> simp [Defect.message, Text.ofString_eq]

end MipsStepper
