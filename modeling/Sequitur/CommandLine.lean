import Sequitur.CommandLine.Options
import Sequitur.Decl.Printer
import Sequitur.Document

/-!
The checker as a command. Files are checked in order, each seeing those before it. All of them are
read before anything is printed.
-/

namespace Sequitur.CommandLine

/-- A file with its text. -/
structure Source where
  path : String
  text : String
deriving DecidableEq, Repr

/-- The text of a file, if it can be read. -/
abbrev Reading := String → Option String

/-- The sources of file names, if all can be read. A lone dash stands for standard input, which is used
up by the first one. -/
def readSources (read : Reading) (stdin : Option String) : List String → Option (List Source)
  | [] => some []
  | name :: names =>
    if name = "-" then do
      let source : Source := ⟨"<stdin>", ← stdin⟩
      return source :: (← readSources read (some "") names)
    else do
      let source : Source := ⟨name, ← read name⟩
      return source :: (← readSources read stdin names)

/-- Checks sources in order; `imports` are the tables of those before. -/
def checkSources (imports : List Table) : List Source → List (Source × Document)
  | [] => []
  | s :: sources =>
    let doc := Document.check imports 5 s.text
    (s, doc) :: checkSources (imports ++ [doc.table]) sources

/-- The lines of a text; a line feed ends a line. -/
def lines : List Char → List (List Char)
  | [] => []
  | c :: cs =>
    if c = '\n' then [] :: lines cs
    else
      match lines cs with
      | [] => [[c]]
      | line :: rest => (c :: line) :: rest

def diagnosticLine (path : String) (d : Diagnostic) : String :=
  let label := if d.fault.isSyntactic then "syntax error" else "error"
  path ++ ":" ++ d.span.start.render ++ ": " ++ label ++ ": " ++ d.fault.message

def traceLines (t : Thm) : List String :=
  t.rule.name.text :: (t.proof.zip t.trace).flatMap fun (s, goals) =>
    ("  " ++ s.render .source) ::
      if goals.isEmpty then ["    Q.E.D."] else (Term.texts goals).map ("    |- " ++ ·)

def declLines (o : Options) (d : Decl) : List String :=
  (if o.print then [d.render .source] else []) ++
    match d with
    | .thm t => if o.trace then traceLines t else []
    | _ => []

def suggestionLines (path : String) (s : Suggestion) : List String :=
  (path ++ ":" ++ s.span.start.render ++ ": suggestion: " ++ s.text) ::
    (lines s.doc.toList).map fun line => "  " ++ String.ofList line

/-- What is printed about a file. -/
def report (o : Options) (path : String) (doc : Document) : List String :=
  if o.quiet then []
  else
    doc.diagnostics.map (diagnosticLine path) ++ doc.decls.flatMap (declLines o) ++
      if o.suggest then doc.suggestions.flatMap (suggestionLines path) else []

inductive Status where
  | success
  /-- The number of diagnostics of all files. -/
  | invalid (diagnostics : Nat)
  | unreadable
  | usage
deriving DecidableEq, Repr

def Status.exitCode : Status → Nat
  | .success => 0
  | .invalid _ | .unreadable => 1
  | .usage => 2

structure Outcome where
  status : Status
  output : String := ""
deriving DecidableEq, Repr

/-- Checks sources and reports on them. -/
def checkAll (o : Options) (sources : List Source) : Outcome :=
  let checked := checkSources [] sources
  let count := checked.foldr (fun (_, doc) n => doc.diagnostics.length + n) 0
  { status := if count = 0 then .success else .invalid count
    output := String.join <| checked.flatMap fun (s, doc) => (report o s.path doc).map (· ++ "\n") }

/-- Runs the command on arguments, a file system and standard input. -/
def run (read : Reading) (stdin : Option String) (args : List String) : Outcome :=
  match Options.ofArgs? args with
  | none => { status := .usage }
  | some o =>
    match readSources read stdin o.files with
    | none => { status := .unreadable }
    | some sources => checkAll o sources

end Sequitur.CommandLine
