import MipsStepper.Text

/-!
# Storage directives

Two directives take room in the data segment. A string takes its bytes and a
terminating zero byte, a list of words takes four bytes for each word that is
not blank, and at least four.
-/

set_option autoImplicit false

namespace MipsStepper
open Text (ofString)

inductive Directive where
  | asciiz (payload : Text)
  | word (count : Nat)
deriving DecidableEq

namespace Directive

def size : Directive → Nat
  | .asciiz payload => Text.byteLength payload + 1
  | .word count => 4 * max 1 count

def argument? (keyword t : Text) : Option Text :=
  if Text.startsWith keyword t then
    match t.drop keyword.length with
    | c :: tail => if Text.isBlank c then some (tail.dropWhile Text.isBlank) else none
    | [] => none
  else none

def expandNewlines : Text → Text
  | '\\' :: 'n' :: t => '\n' :: expandNewlines t
  | c :: t => c :: expandNewlines t
  | [] => []

def expandQuotes : Text → Text
  | '\\' :: '"' :: t => '"' :: expandQuotes t
  | c :: t => c :: expandQuotes t
  | [] => []

/-- Newlines are expanded before quotes, each over the whole text. No other
escape is known and a backslash does not escape itself. -/
def unescape (t : Text) : Text := expandQuotes (expandNewlines t)

/-- The text between an opening quote and the last character, which is a
quote too. -/
def quoted? : Text → Option Text
  | '"' :: t =>
    match t.reverse with
    | '"' :: inner => some inner.reverse
    | _ => none
  | _ => none

def payload? (t : Text) : Option Text :=
  ((argument? (ofString ".asciiz") t).bind quoted?).map unescape

def wordCount? (t : Text) : Option Nat :=
  match argument? (ofString ".word") t with
  | none => none
  | some values =>
    if Text.trim values = [] then none
    else some ((values.splitOn ',').countP fun v => Text.trim v ≠ [])

def ofText? (t : Text) : Option Directive :=
  ((payload? t).map .asciiz).or ((wordCount? t).map .word)

theorem size_pos (d : Directive) : 0 < d.size := by
  cases d with
  | asciiz payload => exact Nat.succ_pos _
  | word count =>
    simp only [size]
    omega

end Directive

end MipsStepper
