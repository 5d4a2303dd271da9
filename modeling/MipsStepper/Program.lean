import MipsStepper.Symbols
import MipsStepper.Instruction

/-!
# Programs

A program is its instructions in order, the symbol tables they were decoded
with, and the strings of its data segment by start address. It never changes
once it is loaded.
-/

set_option autoImplicit false

namespace MipsStepper

structure Program where
  instructions : List Instruction := []
  symbols : Symbols := {}
  strings : Std.ExtTreeMap Word Text compare := ∅

namespace Program

def size (p : Program) : Nat := p.instructions.length

def at? (p : Program) (pc : Int) : Option Instruction :=
  if 0 ≤ pc then p.instructions[pc.toNat]? else none

def string? (p : Program) (a : Word) : Option Text := p.strings[a]?

theorem at?_eq_none_iff (p : Program) (pc : Int) : p.at? pc = none ↔ pc < 0 ∨ p.size ≤ pc := by
  unfold at? size
  split <;> simp <;> omega

end Program

end MipsStepper
