import MipsStepper.CommandLine
import MipsStepper.Inspector

/-!
# The program

The outer layer: it reads files and standard input, and prints what the
command line and the inspector answer.
-/

set_option autoImplicit false

namespace MipsStepper.Console

def put (t : Text) : IO Unit := do
  let out ← IO.getStdout
  out.putStr (String.ofList t)
  out.flush

/-- The files of a disk on which only one name is looked up. -/
def filesWith (name : Text) : IO Files := do
  let key := name.takeWhile (· ≠ '\x00')
  let contents ← try
      let s ← IO.FS.readFile (String.ofList key)
      pure (some s.toList)
    catch _ => pure none
  return fun n => if n = key then contents else none

def filesFor : Command → IO Files
  | .load file => filesWith file
  | _ => return fun _ => none

partial def converse (i : Inspector) : IO Unit := do
  put (CommandLine.prompt i.session)
  match Text.lines (← (← IO.getStdin).getLine).toList with
  | [] => put CommandLine.goodbye
  | line :: _ =>
    let r := i.execute (← filesFor (Command.ofLine line)) line
    put r.output
    if r.returned then converse r.inspector else put CommandLine.goodbye

def inspect (file : Text) : IO UInt32 := do
  let r := CommandLine.opening (← filesWith file) file
  put r.output
  converse { session := r.session }
  return 0

def conclude (o : CommandLine.Outcome) : IO UInt32 := do
  put o.stdout
  (← IO.getStderr).putStr (String.ofList o.stderr)
  return o.exitCode

end MipsStepper.Console

open MipsStepper in
def main (args : List String) : IO UInt32 := do
  let args := args.map String.toList
  match CommandLine.options? {} args with
  | none => Console.conclude (CommandLine.run (fun _ => none) args [])
  | some o =>
    if o.batch then
      Console.conclude (CommandLine.run (← Console.filesWith o.file) args [])
    else
      Console.inspect o.file
