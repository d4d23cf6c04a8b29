import Sequitur.Distinct

/-!
Declarations that were checked: types, terms, axioms and theorems. Beside its proof a theorem keeps the
trace, which has the goals that are left after each step, and for a step that achieved nothing the steps
that would have.
-/

namespace Sequitur

structure TypeDecl where
  name : Token.Ref
  span : Span
deriving DecidableEq, Repr

/-- The assumptions entail the targets, for all instances of the parameters that keep the distinctness
conditions. -/
structure Rule where
  name : Token.Ref
  params : List Param
  targets : List Term
  assumptions : List Term
  /-- The distinctness conditions as declared. -/
  groups : List (List String)
  span : Span

namespace Rule

def paramNames (r : Rule) : List String := r.params.map (·.name.text)

def distinct (r : Rule) : Distinct := .ofGroups r.groups

end Rule

/-- A change to the text of a proof. -/
structure Edit where
  span : Span
  oldText : String
  newText : String
  /-- The text of the term that `newText` spells. -/
  newTermText : String
deriving DecidableEq, Repr

/-- A replacement offered to whoever writes the proof. -/
structure Suggestion where
  span : Span
  text : String
  doc : String
  /-- Further changes to make together with the replacement. -/
  edits : List Edit
deriving DecidableEq, Repr

/-- A rule applied to arguments, with what it then says. -/
structure Step where
  head : Token.Ref
  args : List Term
  span : Span
  rule : Rule
  targets : List Term
  assumptions : List Term
  distinct : Distinct
  /-- Whether there is a hole in the arguments. -/
  usesHole : Bool
  /-- The distinctness conditions that do not hold in the theorem. -/
  violations : List (String × String)
  /-- The changes to earlier lines that go with the step. -/
  edits : List Edit

structure Thm where
  rule : Rule
  proof : List Step
  /-- The goals left after each step. -/
  trace : List (List Term)
  /-- The steps to take in the place of each step, if that achieved nothing. -/
  alternatives : List (List Step)
  /-- Rules whose names resemble those that are not declared. -/
  nameSuggestions : List Suggestion

namespace Thm

/-- The goals left at the end of the proof. -/
def openGoals (t : Thm) : List Term :=
  t.trace.getLast?.getD t.rule.targets

def isProved (t : Thm) : Bool := t.openGoals.isEmpty

end Thm

inductive Decl where
  | type (decl : TypeDecl)
  | term (decl : TermDecl)
  | axm (rule : Rule)
  | thm (thm : Thm)

namespace Decl

def name : Decl → Token.Ref
  | .type d => d.name
  | .term d => d.name
  | .axm r => r.name
  | .thm t => t.rule.name

def span : Decl → Span
  | .type d => d.span
  | .term d => d.span
  | .axm r => r.span
  | .thm t => t.rule.span

def term? : Decl → Option TermDecl
  | .term d => some d
  | _ => none

def rule? : Decl → Option Rule
  | .axm r => some r
  | .thm t => some t.rule
  | _ => none

end Decl

end Sequitur
