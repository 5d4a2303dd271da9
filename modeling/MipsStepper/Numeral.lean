import MipsStepper.Text
import MipsStepper.Word

/-!
# Numerals

Words are written in signed decimal or as zero-padded hexadecimal bit
patterns. They are read from literals: a text that is wholly a hexadecimal
literal is read as one, any other text counts by its longest signed decimal
front. The digits are shifted into a 32-bit accumulator, from the left, which
is negated in the end if the literal has a minus sign. `Literal.value` is the
number that a literal stands for, of whatever size.
-/

set_option autoImplicit false

namespace MipsStepper

def decimal : Int → Text
  | .ofNat n => Nat.toDigits 10 n
  | .negSucc n => '-' :: Nat.toDigits 10 (n + 1)

def hexadecimal (width n : Nat) : Text :=
  '0' :: 'x' :: (Nat.toDigits 16 n).leftpad width '0'

def Word.decimal (w : Word) : Text := MipsStepper.decimal w.toInt

def Word.hex (w : Word) : Text := hexadecimal 8 w.bits

/-- A literal as it is written: a sign, a base and the values of the digits. -/
structure Literal where
  negative : Bool
  base : Nat
  digits : List Nat
deriving DecidableEq

namespace Literal

def hexDigit? (c : Char) : Option Nat :=
  if '0' ≤ c ∧ c ≤ '9' then some (c.toNat - '0'.toNat)
  else if 'a' ≤ c ∧ c ≤ 'f' then some (c.toNat - 'a'.toNat + 10)
  else if 'A' ≤ c ∧ c ≤ 'F' then some (c.toNat - 'A'.toNat + 10)
  else none

def hexDigits? : Text → Option (List Nat)
  | [] => some []
  | c :: t => (hexDigit? c).bind fun d => (hexDigits? t).map (d :: ·)

def hexMagnitude? : Text → Option (List Nat)
  | '0' :: x :: c :: t => if x = 'x' ∨ x = 'X' then hexDigits? (c :: t) else none
  | _ => none

def hex? : Text → Option Literal
  | '-' :: t => (hexMagnitude? t).map fun ds => ⟨true, 16, ds⟩
  | t => (hexMagnitude? t).map fun ds => ⟨false, 16, ds⟩

def decimalMagnitude? (t : Text) : Option (List Nat) :=
  match t.takeWhile Char.isDigit with
  | [] => none
  | front => some (front.map fun c => c.toNat - '0'.toNat)

def decimal? : Text → Option Literal
  | '-' :: t => (decimalMagnitude? t).map fun ds => ⟨true, 10, ds⟩
  | '+' :: t => (decimalMagnitude? t).map fun ds => ⟨false, 10, ds⟩
  | t => (decimalMagnitude? t).map fun ds => ⟨false, 10, ds⟩

def ofText? (t : Text) : Option Literal :=
  (hex? (Text.trim t)).or (decimal? (Text.trim t))

def magnitude (l : Literal) : Nat := l.digits.foldl (fun n d => n * l.base + d) 0

def value (l : Literal) : Int := if l.negative then -(l.magnitude : Int) else l.magnitude

def accumulator (l : Literal) : UInt32 :=
  l.digits.foldl (fun a d => a * UInt32.ofNat l.base + UInt32.ofNat d) 0

/-- The word that a literal is read as. No number beyond 32 bits is formed. -/
def word (l : Literal) : Word := (if l.negative then 0 - l.accumulator else l.accumulator).toInt32

def read? (t : Text) : Option Word := (ofText? t).map word

theorem accumulator_eq (l : Literal) : l.accumulator = UInt32.ofNat l.magnitude := by
  have hfold : ∀ (ds : List Nat) (n : Nat),
      ds.foldl (fun a d => a * UInt32.ofNat l.base + UInt32.ofNat d) (UInt32.ofNat n) =
        UInt32.ofNat (ds.foldl (fun n d => n * l.base + d) n) := by
    intro ds
    induction ds with
    | nil => exact fun n => rfl
    | cons d ds ih =>
      intro n
      rw [List.foldl_cons, List.foldl_cons, ← ih, UInt32.ofNat_add, UInt32.ofNat_mul]
  exact hfold l.digits 0

/-- Wrapping at every digit and at the sign is wrapping once in the end. -/
theorem word_eq (l : Literal) : l.word = Word.wrap l.value := by
  unfold word value
  rw [accumulator_eq]
  cases l.negative with
  | false => exact (Word.wrap_natCast l.magnitude).symm
  | true =>
    show (0 - UInt32.ofNat l.magnitude).toInt32 = Word.wrap (-(l.magnitude : Int))
    rw [UInt32.zero_sub, UInt32.toInt32_neg, Word.wrap_neg, Word.wrap_natCast]

end Literal

end MipsStepper
