import Sequitur.Block.Declare
import Sequitur.Block.Reader
import Sequitur.Token.Scan

/-!
Checked files. Checking never fails: a document holds what its text declares, everything found wrong
with it, its tokens with what is known about them, and suggestions for its proofs.
-/

namespace Sequitur

namespace Suggestion

/-- The display of a step that would replace another: what it says, and the changes to earlier lines
that go with it. -/
def describe (step alternative : Step) : List String :=
  [step.head.text ++ "(" ++ ", ".intercalate (Term.texts alternative.args) ++ ") \x7b"] ++
    (Term.texts alternative.targets).map ("|- " ++ ·) ++
    (Term.texts alternative.assumptions).map ("-| " ++ ·) ++
    (if alternative.violations.isEmpty then []
      else ["diff " ++ " ".intercalate (alternative.violations.map fun (a, b) =>
        "(" ++ a ++ "," ++ b ++ ")")]) ++
    ["\x7d"] ++
    alternative.edits.map fun e => e.oldText ++ " : " ++ e.newTermText

/-- To write an alternative in the place of a step. -/
def replace (step alternative : Step) : Suggestion :=
  { span := step.span
    text := step.head.text ++ "(" ++ ", ".intercalate (Term.keys alternative.args) ++ ")"
    doc := "\n".intercalate (describe step alternative)
    edits := alternative.edits }

/-- The suggestions for a declaration, in the order of its proof. -/
def ofDecl : Decl → List Suggestion
  | .thm t => t.nameSuggestions ++ (t.proof.zip t.alternatives).flatMap fun (s, alts) => alts.map (replace s)
  | _ => []

end Suggestion

structure Document where
  table : Table
  /-- By place. -/
  diagnostics : List Diagnostic
  tokens : Array Token
  suggestions : List Suggestion

namespace Document

def decls (d : Document) : List Decl := d.table.decls

/-- Notes a diagnostic at its token, unless the token has one. -/
def flag (tokens : Array Token) (d : Diagnostic) : Array Token :=
  tokens.modify d.token fun t => { t with fault := t.fault.or (some d.fault) }

/-- Checks a token stream. The scope's own table is where its declarations start from. -/
def ofTokens (scope : Scope) (tokens : List Token) : Document :=
  let checked : Noted Table := do
    let blocks ← Block.readAll tokens
    Block.declareAll scope blocks
  let diagnostics := Diagnostic.sort checked.notes.diagnostics
  { table := checked.value
    diagnostics
    tokens := diagnostics.foldl flag (Mark.applyAll checked.notes.marks tokens.toArray)
    suggestions := checked.value.decls.flatMap Suggestion.ofDecl }

/-- Checks a text that may refer to the declarations of `imports`. -/
def check (imports : List Table) (searchLimit : Nat) (text : String) : Document :=
  ofTokens { imports, searchLimit } (Token.scan text)

end Document

end Sequitur
