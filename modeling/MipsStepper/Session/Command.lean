import MipsStepper.Numeral

/-!
# Inspector commands

A command line is a verb, under any of its names and in any case, and its
arguments. Further words are ignored. A verb with too few arguments is a
misuse, answered by its usage. Counts that are not numbers are taken as one,
and negative counts as zero.
-/

set_option autoImplicit false

namespace MipsStepper
open Text (ofString)

inductive Verb where
  | quit | help | load | run | step | back | reset
  | regs | reg | mem | set | setmem
  | symbols | list | output | status
deriving DecidableEq

namespace Verb

def all : List Verb :=
  [.quit, .help, .load, .run, .step, .back, .reset, .regs, .reg, .mem, .set, .setmem,
    .symbols, .list, .output, .status]

def names : Verb → List String
  | .quit => ["quit", "exit", "q"]
  | .help => ["help", "h", "?"]
  | .load => ["load", "l"]
  | .run => ["run", "r"]
  | .step => ["step", "s"]
  | .back => ["back", "b"]
  | .reset => ["reset"]
  | .regs => ["regs", "registers"]
  | .reg => ["reg"]
  | .mem => ["mem", "memory", "m"]
  | .set => ["set"]
  | .setmem => ["setmem"]
  | .symbols => ["symbols", "sym"]
  | .list => ["list", "disasm", "d"]
  | .output => ["output", "out", "o"]
  | .status => ["status", "pc"]

def named? (t : Text) : Option Verb := all.find? fun v => t ∈ v.names.map ofString

end Verb

inductive Command where
  | blank
  | quit
  | help
  | load (file : Text)
  | run
  | step (count : Nat)
  | back (count : Nat)
  | reset
  | registers
  | register (name : Text)
  | memory
  | words (address : Text) (count : Nat)
  | setRegister (name value : Text)
  | setMemory (address value : Text)
  | symbols
  | list
  | output
  | status
  | misuse (usage : Text)
  | unknown (verb : Text)
deriving DecidableEq

namespace Command

def repetitions : List Text → Nat
  | [] => 1
  | t :: _ => ((Literal.read? t).getD 1).toInt.toNat

/-- The number of words to show, eight unless a positive number is given. -/
def wordCount : List Text → Nat
  | [] => 8
  | t :: _ =>
    match Literal.read? t with
    | some n => if 0 < n then n.toInt.toNat else 8
    | none => 8

def ofVerb (args : List Text) : Verb → Command
  | .quit => .quit
  | .help => .help
  | .load =>
    match args with
    | file :: _ => .load file
    | [] => .misuse (ofString "load <filename>")
  | .run => .run
  | .step => .step (repetitions args)
  | .back => .back (repetitions args)
  | .reset => .reset
  | .regs => .registers
  | .reg =>
    match args with
    | name :: _ => .register name
    | [] => .misuse (ofString "reg <register>")
  | .mem =>
    match args with
    | address :: rest => .words address (wordCount rest)
    | [] => .memory
  | .set =>
    match args with
    | name :: value :: _ => .setRegister name value
    | _ => .misuse (ofString "set <register> <value>")
  | .setmem =>
    match args with
    | address :: value :: _ => .setMemory address value
    | _ => .misuse (ofString "setmem <address> <value>")
  | .symbols => .symbols
  | .list => .list
  | .output => .output
  | .status => .status

def ofLine (line : Text) : Command :=
  match Text.words line with
  | [] => .blank
  | w :: args =>
    match Verb.named? (Text.lower w) with
    | some v => ofVerb args v
    | none => .unknown (Text.lower w)

end Command

end MipsStepper
