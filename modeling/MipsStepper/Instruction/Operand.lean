import MipsStepper.Symbols
import MipsStepper.Instruction

/-!
# Operands

The shapes of operand tokens, and what a token of each shape denotes. The
shape is decided first: a token of the wrong shape means that the line is of
another form, a token of the right shape that denotes nothing is a defect.
-/

set_option autoImplicit false

namespace MipsStepper

namespace Operand

def isRegister : Text → Bool
  | '$' :: c :: t => (c :: t).all Text.isWordChar
  | _ => false

def isLabelStart (c : Char) : Bool := c.isAlpha || c = '_' || c = '.' || c = '$'

def isLabelChar (c : Char) : Bool := Text.isWordChar c || c = '.' || c = '$'

def isLabel : Text → Bool
  | c :: t => isLabelStart c && t.all isLabelChar
  | [] => false

def isImmediate (t : Text) : Bool := t ≠ [] && t.all fun c => !Text.isBlank c && c ≠ ','

/-- The operands of a line, split at every comma. An empty one counts. -/
def list (t : Text) : List Text := (t.splitOn ',').map Text.trim

/-- The cut of `front(inner)` at the last opening parenthesis. The closing
one ends the text and the front is not empty. -/
def parenthesized? (t : Text) : Option (Text × Text) :=
  match t.reverse with
  | ')' :: r =>
    match r.dropWhile (· ≠ '(') with
    | '(' :: c :: front => some ((c :: front).reverse, (r.takeWhile (· ≠ '(')).reverse)
    | _ => none
  | _ => none

def absolute? (s : Symbols) (t : Text) : Option MemOperand :=
  ((s.address? t).or (Literal.read? t)).map MemOperand.absolute

def based? (offset base : Text) : Option MemOperand :=
  match Literal.read? offset, Register.named? base with
  | some n, some r => some (.based n r)
  | _, _ => none

/-- A parenthesized register token commits to the based form, whether or not
its register and offset exist. -/
def memory? (s : Symbols) (t : Text) : Option MemOperand :=
  match parenthesized? t with
  | some (front, inner) => if isRegister inner then based? front inner else absolute? s t
  | none => absolute? s t

end Operand

end MipsStepper
