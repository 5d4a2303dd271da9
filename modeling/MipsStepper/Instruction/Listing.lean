import MipsStepper.Instruction

/-!
# Canonical instruction text

An executable instruction is listed from its operation alone, with decimal
immediates and hexadecimal addresses. A defective one is listed as it was
written.
-/

set_option autoImplicit false

namespace MipsStepper
open Text (ofString)

def MemOperand.listing : MemOperand → Text
  | .based offset base => offset.decimal ++ '(' :: base.name ++ [')']
  | .absolute a => a.hex

namespace Operation

def operandTexts : Operation → List Text
  | .li rd v => [Register.operandName rd, v.decimal]
  | .la rd a => [Register.operandName rd, a.hex]
  | .move rd rs => [Register.operandName rd, Register.operandName rs]
  | .addi rd rs v => [Register.operandName rd, Register.operandName rs, v.decimal]
  | .arith _ rd rs rt =>
    [Register.operandName rd, Register.operandName rs, Register.operandName rt]
  | .lw rd x => [Register.operandName rd, x.listing]
  | .sw rs x => [Register.operandName rs, x.listing]
  | .branch _ rs rt l _ => [Register.operandName rs, Register.operandName rt, l]
  | .jump l _ => [l]
  | .syscall => []
  | .defective _ => []

def listing (o : Operation) : Text :=
  match o.operandTexts with
  | [] => o.kind.name
  | xs => o.kind.name ++ ' ' :: (ofString ", ").intercalate xs

end Operation

def Instruction.listing (i : Instruction) : Text :=
  match i.operation with
  | .defective _ => i.text
  | o => o.listing

end MipsStepper
