import MipsStepper.Assembly.Directive
import MipsStepper.Instruction.Operand
import MipsStepper.Symbols

/-!
# Reading source lines

The first of two passes over a source. It collects the instruction lines as
they are written, gives every label its index or address, and lays out the
data segment. A label prefix is split off once: what follows it is an
instruction or a directive, whichever the segment holds.
-/

set_option autoImplicit false

namespace MipsStepper
open Text (ofString)

inductive Segment where
  | text
  | data
deriving DecidableEq

def dataBase : Word := 0x10010000

structure Draft where
  segment : Segment := .text
  lines : List Text := []
  symbols : Symbols := {}
  strings : Std.ExtTreeMap Word Text compare := ∅
  cursor : Word := dataBase

namespace Draft

def strip (raw : Text) : Text := Text.trim (raw.takeWhile (· ≠ '#'))

def isGlobal (line : Text) : Bool :=
  Text.startsWith (ofString ".globl") line &&
    ((line.drop 6).head?.all fun c => !Text.isWordChar c)

def labelled? (line : Text) : Option (Text × Text) :=
  match line.dropWhile Operand.isLabelChar with
  | ':' :: rest =>
    let name := line.takeWhile Operand.isLabelChar
    if Operand.isLabel name then some (name, Text.trim rest) else none
  | _ => none

def define (d : Draft) (label : Text) : Draft :=
  match d.segment with
  | .text => { d with symbols := d.symbols.defineLabel label d.lines.length }
  | .data => { d with symbols := d.symbols.defineDataLabel label d.cursor }

def store (d : Draft) : Directive → Draft
  | .asciiz payload =>
    { d with
      strings := d.strings.insert d.cursor payload
      cursor := Word.wrap (d.cursor.toInt + (Directive.asciiz payload).size) }
  | .word count => { d with cursor := Word.wrap (d.cursor.toInt + (Directive.word count).size) }

/-- Places a line that is neither blank nor labelled. Directives that take no
room are ignored. -/
def place (d : Draft) (line : Text) : Draft :=
  match d.segment with
  | .text => { d with lines := d.lines ++ [line] }
  | .data => (Directive.ofText? line).elim d d.store

def content (d : Draft) (line : Text) : Draft :=
  match labelled? line with
  | some (label, []) => d.define label
  | some (label, rest) => (d.define label).place rest
  | none => d.place line

def read (d : Draft) (raw : Text) : Draft :=
  let line := strip raw
  if line = [] then d
  else if line = ofString ".text" then { d with segment := .text }
  else if line = ofString ".data" then { d with segment := .data }
  else if isGlobal line then d
  else d.content line

/-- The draft of a whole source. A blank line does nothing, so it is all one
whether the last line is closed by a newline. -/
def ofSource (source : Text) : Draft := (source.splitOn '\n').foldl read {}

end Draft

end MipsStepper
