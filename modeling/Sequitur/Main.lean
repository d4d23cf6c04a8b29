import Sequitur.CommandLine

/-!
The command `sequitur`: reads the files it is given, checks them and prints the report.
-/

namespace Sequitur.CommandLine

/-- The text of a file, if there is one and it is text. -/
def readText (name : String) : IO (Option String) := do
  try return String.fromUTF8? (← IO.FS.readBinFile name) catch _ => return none

/-- What the files of a command line hold, and standard input if it is one of them. -/
def readFiles (o : Options) : IO (List (String × Option String) × Option String) := do
  let names := o.files.filter (· != "-")
  let texts ← names.mapM fun name => return (name, ← readText name)
  let stdin ← if o.files.contains "-" then readStdin else pure (some "")
  return (texts, stdin)
where
  readStdin : IO (Option String) := do
    try return String.fromUTF8? (← (← IO.getStdin).readBinToEnd) catch _ => return none

def failureText : Status → Option String
  | .success => none
  | .invalid n => some ("Error: Invalid(" ++ toString n ++ ")")
  | .unreadable => some "Error: Io"
  | .usage => some "Usage: sequitur [--print] [--trace] [--suggest] [--quiet] [--jobs [N]] FILE..."

end Sequitur.CommandLine

open Sequitur.CommandLine in
def main (args : List String) : IO UInt32 := do
  let (texts, stdin) ← match Options.ofArgs? args with
    | some o => readFiles o
    | none => pure ([], none)
  let outcome := run (fun name => (texts.lookup name).join) stdin args
  let stdout ← IO.getStdout
  stdout.putStr outcome.output
  stdout.flush
  if let some message := failureText outcome.status then IO.eprintln message
  return outcome.status.exitCode.toUInt32
