import MipsStepper.Session.Command
import MipsStepper.Session.Trail

/-!
# Inspector sessions

A session is the overrides of the initial state and, once a program is
loaded, its trail. Overrides outlive every load and reset. A load that fails
changes nothing, and an override that is refused changes nothing either.
-/

set_option autoImplicit false

namespace MipsStepper
open Text (ofString)

structure Session where
  overrides : Overrides := {}
  trail : Option Trail := none

/-- What a command leaves behind: the session, the text it printed, and
whether the inspector goes on. -/
structure Reply where
  session : Session
  output : Text := []
  running : Bool := true

def helpText : Text := ofString
  "Commands:
  load <file>           Load assembly file
  run                   Run until halt or error
  step [n]              Execute n instructions (default 1)
  back [n]              Rewind n steps (default 1)
  reset                 Restart from the initial state
  regs                  Show all registers
  reg <name>            Show single register
  mem [addr] [n]        Show used memory, or n words from addr
  set <reg> <value>     Set initial register value and reset
  setmem <addr> <value> Set initial memory word and reset
  symbols               Show labels
  list                  Disassemble the program
  output                Show program output
  status                Show pc, steps and status
  quit                  Exit emulator
"

def LoadError.report (e : LoadError) : Text :=
  ofString "Load failed:\n  " ++ e.message ++ ['\n']

namespace Session

def history (s : Session) : List Machine := s.trail.elim [] Trail.history

def current? (s : Session) : Option Machine := s.trail.map Trail.current

def install (s : Session) (source : Text) (program : Program) : Session :=
  { s with trail := some (Trail.fresh source program s.overrides) }

def loadSource (s : Session) (source : Text) : Except LoadError Session :=
  (load source).map (s.install source)

def loadFile (s : Session) (files : Files) (name : Text) : Reply :=
  match MipsStepper.loadFile files name with
  | .ok (source, p) =>
    { session := s.install source p
      output := ofString "Loaded " ++ decimal p.size ++ ofString " instructions, " ++
        decimal p.symbols.dataLabels.size ++ ofString " data labels\n" }
  | .error e => { session := s, output := e.report }

def notLoaded : Text := ofString "No program loaded\n"

def move (s : Session) (f : Trail → Trail × Text) : Reply :=
  match s.trail with
  | none => { session := s, output := notLoaded }
  | some t => { session := { s with trail := some (f t).1 }, output := (f t).2 }

def look (s : Session) (f : Machine → Text) : Reply :=
  { session := s, output := s.trail.elim notLoaded fun t => f t.current }

def reset (s : Session) : Reply :=
  s.move fun t => (t.restart s.overrides, ofString "Reset complete\n")

def fullName : Text → Text
  | [] => []
  | c :: t => if c = '$' then c :: t else '$' :: c :: t

def registerText (name : Text) (m : Machine) : Text :=
  match Register.named? (fullName name) with
  | some r => m.registers.line r
  | none => ofString "Unknown register: " ++ name ++ ['\n']

/-- A data label is looked up before the text is tried as a number. -/
def wordsText (address : Text) (count : Nat) (m : Machine) : Text :=
  match (m.program.symbols.address? address).or (Literal.read? address) with
  | some a => m.memory.wordTable a count
  | none => ofString "Invalid address: " ++ address ++ ['\n']

/-- New overrides, with which a loaded program starts again. -/
def override (s : Session) (o : Overrides) (told : Text) : Reply :=
  let s' := { s with overrides := o }
  match s.trail with
  | none => { session := s', output := told }
  | some _ => { s'.reset with output := told ++ s'.reset.output }

def refuse (s : Session) (reason word : Text) : Reply :=
  { session := s, output := reason ++ word ++ ['\n'] }

def setRegister (s : Session) (name value : Text) : Reply :=
  match (Register.named? (fullName name)).filter (· ≠ Register.zero) with
  | none => s.refuse (ofString "Cannot set register: ") name
  | some r =>
    match Literal.read? value with
    | none => s.refuse (ofString "Invalid value: ") value
    | some v =>
      s.override { s.overrides with registers := s.overrides.registers.insert r.name v }
        (ofString "Initial " ++ r.name ++ ofString " = " ++ v.decimal ++ ['\n'])

/-- The override is kept under the text of the address, not its value. -/
def setMemory (s : Session) (address value : Text) : Reply :=
  match Literal.read? address with
  | none => s.refuse (ofString "Invalid address: ") address
  | some a =>
    match Literal.read? value with
    | none => s.refuse (ofString "Invalid value: ") value
    | some v =>
      s.override { s.overrides with memory := s.overrides.memory.insert address v }
        (ofString "Initial [" ++ a.hex ++ ofString "] = " ++ v.decimal ++ ['\n'])

def perform (s : Session) (files : Files) : Command → Reply
  | .blank => { session := s }
  | .quit => { session := s, running := false }
  | .help => { session := s, output := helpText }
  | .load file => s.loadFile files file
  | .run => s.move Trail.run
  | .step n => s.move (Trail.step n)
  | .back n => s.move (Trail.back n)
  | .reset => s.reset
  | .registers => s.look fun m => m.registers.table m.touchedRegisters
  | .register name => s.look (registerText name)
  | .memory => s.look fun m => m.memory.table m.touchedMemory
  | .words address n => s.look (wordsText address n)
  | .setRegister name value => s.setRegister name value
  | .setMemory address value => s.setMemory address value
  | .symbols => s.look fun m => m.program.labelTable
  | .list => s.look fun m => m.program.listingText m.pc
  | .output => s.look fun m => Text.endLine m.output
  | .status => s.look Machine.statusText
  | .misuse usage => s.refuse (ofString "Usage: ") usage
  | .unknown verb =>
    s.refuse (ofString "Unknown command: ") (verb ++ ofString ". Type 'help' for commands.")

def execute (s : Session) (files : Files) (line : Text) : Reply :=
  s.perform files (Command.ofLine line)

end Session

end MipsStepper
