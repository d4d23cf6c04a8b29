/-!
Options of the command line. Short options can share one dash; the number of jobs is optional and can
be attached or be the next argument. A flag may be given once only, and there has to be a file.
-/

namespace Sequitur.CommandLine

structure Options where
  /-- Print the declarations. -/
  print : Bool := false
  /-- Print the goals left after every proof step. -/
  trace : Bool := false
  /-- Print suggestions for proof steps. -/
  suggest : Bool := false
  /-- Print nothing. -/
  quiet : Bool := false
  /-- How many files to read at a time; `some none` leaves the number open. -/
  jobs : Option (Option Nat) := none
  files : List String := []
deriving DecidableEq, Repr

/-- An argument by its form. -/
inductive Argument where
  /-- `--`, after which there are only files. -/
  | endOfOptions
  /-- `--name` or `--name=value`. -/
  | long (name : List Char) (value : Option (List Char))
  /-- `-abc`. -/
  | short (flags : List Char)
  /-- Anything else, a lone dash included. -/
  | plain (text : String)
deriving DecidableEq, Repr

namespace Argument

def ofText (s : String) : Argument :=
  match s.toList with
  | ['-', '-'] => .endOfOptions
  | '-' :: '-' :: cs =>
    match cs.dropWhile (· != '=') with
    | [] => .long cs none
    | _ :: value => .long (cs.takeWhile (· != '=')) (some value)
  | '-' :: c :: cs => .short (c :: cs)
  | _ => .plain s

end Argument

/-- A number below 2 ^ 64 in decimal digits, a plus sign allowed in front. -/
def readCount? (cs : List Char) : Option Nat :=
  let digits := match cs with
    | '+' :: ds => ds
    | ds => ds
  if digits.isEmpty || !digits.all Char.isDigit then none
  else
    let n := digits.foldl (fun n d => 10 * n + (d.toNat - '0'.toNat)) 0
    if n < Nat.pow 2 64 then some n else none

namespace Options

def setJobs (o : Options) (jobs : Option Nat) : Option Options :=
  if o.jobs.isSome then none else some { o with jobs := some jobs }

def setQuiet (o : Options) : Option Options :=
  if o.quiet then none else some { o with quiet := true }

/-- Options after short flags, and whether the last one waits for a number. -/
def readShort (o : Options) : List Char → Option (Options × Bool)
  | [] => some (o, false)
  | 'q' :: flags => do (← o.setQuiet).readShort flags
  | ['j'] => some (o, true)
  | 'j' :: '=' :: count => do return (← o.setJobs (some (← readCount? count)), false)
  | 'j' :: count => do return (← o.setJobs (some (← readCount? count)), false)
  | _ => none

/-- Options after a long flag, and whether it waits for a number. -/
def readLong (o : Options) (name : String) (value : Option (List Char)) : Option (Options × Bool) :=
  match name, value with
  | "print", none => if o.print then none else some ({ o with print := true }, false)
  | "trace", none => if o.trace then none else some ({ o with trace := true }, false)
  | "suggest", none => if o.suggest then none else some ({ o with suggest := true }, false)
  | "quiet", none => do return (← o.setQuiet, false)
  | "jobs", none => some (o, true)
  | "jobs", some count => do return (← o.setJobs (some (← readCount? count)), false)
  | _, _ => none

/-- Options after further arguments; `waiting` says that the next one can be a number of jobs. -/
def readAll (o : Options) (waiting : Bool) : List String → Option Options
  | [] => if waiting then o.setJobs none else some o
  | arg :: args => do
    match Argument.ofText arg, waiting with
    | .plain count, true => (← o.setJobs (some (← readCount? count.toList))).readAll false args
    | .plain file, false => readAll { o with files := o.files ++ [file] } false args
    | .endOfOptions, _ =>
      let o ← if waiting then o.setJobs none else some o
      return { o with files := o.files ++ args }
    | .short flags, _ =>
      let o ← if waiting then o.setJobs none else some o
      let (o, waiting) ← o.readShort flags
      o.readAll waiting args
    | .long name value, _ =>
      let o ← if waiting then o.setJobs none else some o
      let (o, waiting) ← o.readLong (String.ofList name) value
      o.readAll waiting args

/-- The options that arguments stand for; `none` if they are not used as they should be. -/
def ofArgs? (args : List String) : Option Options := do
  let o ← ({} : Options).readAll false args
  if o.files.isEmpty || o.files.contains "" then none else some o

end Options

end Sequitur.CommandLine
