import MipsStepper.Instruction.Operand

/-!
# Decoding

A line is a mnemonic, in any case, and after at least one blank its operands.
Each form fixes the number and the shapes of its operands and gives `none`
to a line of another form. Decoding never fails: a line of no form, or with
an operand that resolves to nothing, becomes a defective operation.
-/

set_option autoImplicit false

namespace MipsStepper

namespace Operation

def ofResolved {α : Type} (operand : Option α) (build : α → Operation) (defect : Defect) :
    Operation :=
  operand.elim (.defective defect) build

open Operand

def li? : List Text → Option Operation
  | [d, v] =>
    if isRegister d && isImmediate v then
      some (ofResolved (Literal.read? v) (.li (Register.named? d)) (.immediate v))
    else none
  | _ => none

def la? (s : Symbols) : List Text → Option Operation
  | [d, l] =>
    if isRegister d && isLabel l then
      some (ofResolved (s.address? l) (.la (Register.named? d)) (.dataLabel l))
    else none
  | _ => none

def move? : List Text → Option Operation
  | [d, r] =>
    if isRegister d && isRegister r then some (.move (Register.named? d) (Register.named? r))
    else none
  | _ => none

def addi? : List Text → Option Operation
  | [d, r, v] =>
    if isRegister d && isRegister r && isImmediate v then
      some (ofResolved (Literal.read? v) (.addi (Register.named? d) (Register.named? r))
        (.immediate v))
    else none
  | _ => none

def arith? (op : ArithOp) : List Text → Option Operation
  | [d, r, t] =>
    if isRegister d && isRegister r && isRegister t then
      some (.arith op (Register.named? d) (Register.named? r) (Register.named? t))
    else none
  | _ => none

/-- The address operand is all that follows the first comma. -/
def access? (s : Symbols) (build : Option Register → MemOperand → Operation) (t : Text) :
    Option Operation :=
  match t.dropWhile (· ≠ ',') with
  | [] => none
  | _ :: tail =>
    let r := Text.trim (t.takeWhile (· ≠ ','))
    let x := Text.trim tail
    if isRegister r && x ≠ [] then
      some (ofResolved (memory? s x) (build (Register.named? r)) (.memoryOperand x))
    else none

/-- A branch to a label that is nowhere defined is no defect. It matters only
when the branch is taken. -/
def branch? (s : Symbols) (condition : Condition) : List Text → Option Operation
  | [r, t, l] =>
    if isRegister r && isRegister t && isLabel l then
      some (.branch condition (Register.named? r) (Register.named? t) l (s.index? l))
    else none
  | _ => none

def jump? (s : Symbols) (t : Text) : Option Operation :=
  if isLabel t then some (ofResolved (s.index? t) (.jump t) (.label t)) else none

def withOperands? (s : Symbols) (t : Text) : Kind → Option Operation
  | .li => li? (Operand.list t)
  | .la => la? s (Operand.list t)
  | .move => move? (Operand.list t)
  | .addi => addi? (Operand.list t)
  | .add => arith? .add (Operand.list t)
  | .sub => arith? .sub (Operand.list t)
  | .lw => access? s .lw t
  | .sw => access? s .sw t
  | .beq => branch? s .equal (Operand.list t)
  | .bne => branch? s .different (Operand.list t)
  | .j => jump? s t
  | _ => none

def withoutOperands? : Kind → Option Operation
  | .syscall => some .syscall
  | _ => none

def ofText? (s : Symbols) (line : Text) : Option Operation :=
  (Kind.named? (Text.lower (line.takeWhile fun c => !Text.isBlank c))).bind fun k =>
    match line.dropWhile fun c => !Text.isBlank c with
    | [] => withoutOperands? k
    | tail => withOperands? s (Text.trim tail) k

end Operation

def Instruction.decode (s : Symbols) (line : Text) : Instruction :=
  let t := Text.trim line
  ⟨t, (Operation.ofText? s t).getD (.defective (.form t))⟩

theorem Instruction.decode_trim (s : Symbols) (line : Text) :
    decode s (Text.trim line) = decode s line := by
  simp only [decode, Text.trim_trim]

end MipsStepper
