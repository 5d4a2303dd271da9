import MipsStepper.Session

/-!
# The command line

A program file is run to its end, with its output on one stream and its
failure on the other, or it is opened in the inspector, which answers the
lines of its input one by one until the input ends or a line asks to quit.
-/

set_option autoImplicit false

namespace MipsStepper
open Text (ofString)

namespace CommandLine

structure Options where
  batch : Bool := false
  file : Text := []
deriving DecidableEq

/-- The options, of which the last file name counts, or `none` as soon as
help is asked for. -/
def options? : Options → List Text → Option Options
  | o, [] => some o
  | o, arg :: rest =>
    if arg = ofString "--run" ∨ arg = ofString "-r" then options? { o with batch := true } rest
    else if arg = ofString "--help" ∨ arg = ofString "-h" then none
    else options? { o with file := arg } rest

structure Outcome where
  exitCode : UInt32 := 0
  stdout : Text := []
  stderr : Text := []
deriving DecidableEq

def usage (program : Text) : Text := ofString "Usage: " ++ program ++ ofString " [--run] [file]\n"

def failureLine (m : Machine) : Text :=
  ofString "Error at [" ++ decimal m.pc ++ ofString "]: " ++ m.error ++ ['\n']

def report (last : Machine) : Outcome :=
  match last.status with
  | .error => { exitCode := 1, stdout := last.output, stderr := failureLine last }
  | _ => { stdout := last.output }

def batch (files : Files) (file : Text) : Outcome :=
  match loadFile files file with
  | .error e => { exitCode := 1, stderr := e.message ++ ['\n'] }
  | .ok (source, program) => report (Machine.start program source {}).run

def welcome : Text := ofString "\nMIPS Emulator\nType 'help' for commands\n\n"

def goodbye : Text := ofString "Goodbye!\n"

def prompt (s : Session) : Text :=
  match s.current? with
  | none => ofString "[no program] > "
  | some m => '[' :: m.status.name ++ ' ' :: decimal m.pc ++ ofString "] > "

def opening (files : Files) (file : Text) : Reply :=
  if file = [] then { session := {}, output := welcome }
  else
    let r := Session.loadFile {} files file
    { r with output := r.output ++ welcome }

def dialogue (files : Files) : Session → List Text → Text
  | s, [] => prompt s ++ goodbye
  | s, line :: rest =>
    let r := s.execute files line
    prompt s ++ r.output ++ if r.running then dialogue files r.session rest else goodbye

def interactive (files : Files) (file stdin : Text) : Outcome :=
  let r := opening files file
  { stdout := r.output ++ dialogue files r.session (Text.lines stdin) }

def run (files : Files) (args : List Text) (stdin : Text)
    (program : Text := ofString "mipsemu") : Outcome :=
  match options? {} args with
  | none => { stdout := usage program }
  | some o =>
    if o.batch then
      if o.file = [] then { exitCode := 1, stdout := usage program } else batch files o.file
    else interactive files o.file stdin

end CommandLine

end MipsStepper
