import Sequitur.Document

/-!
Projects: files in a fixed order, each of which may refer to those before it. Checking a file replaces
what was known about it and leaves the files after it alone.
-/

namespace Sequitur

inductive ProjectError where
  | unknownFile (name : String)
deriving DecidableEq, Repr

def ProjectError.message : ProjectError → String
  | .unknownFile name => "file " ++ name ++ " is not part of the project"

structure ProjectFile where
  name : String
  /-- What the file declares, once it was checked. -/
  table : Option Table := none

structure Project where
  files : List ProjectFile
  searchLimit : Nat := 5

namespace Project

def ofNames (names : List String) : Project := { files := names.map fun name => { name } }

/-- The first file of a name. -/
def file? (p : Project) (name : String) : Option ProjectFile :=
  p.files.find? (·.name == name)

/-- What a file declares; `none` also if the file is unknown. -/
def table? (p : Project) (name : String) : Option Table :=
  (p.file? name).bind (·.table)

/-- The tables of the checked files before a file. -/
def imports (p : Project) (name : String) : Except ProjectError (List Table) :=
  if (p.file? name).isSome then
    .ok ((p.files.takeWhile (·.name != name)).filterMap (·.table))
  else .error (.unknownFile name)

/-- Sets what the first file of a name declares. -/
def setTable (name : String) (table : Table) : List ProjectFile → List ProjectFile
  | [] => []
  | f :: fs =>
    if f.name == name then { f with table := some table } :: fs else f :: setTable name table fs

/-- Checks a file and keeps what it declares. -/
def check (p : Project) (name text : String) : Except ProjectError (Document × Project) := do
  let doc := Document.check (← p.imports name) p.searchLimit text
  return (doc, { p with files := setTable name doc.table p.files })

end Project

end Sequitur
