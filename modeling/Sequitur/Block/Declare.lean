import Sequitur.Proof.Replay

/-!
From blocks to declarations. A block that does not check is left out, so later blocks cannot refer to
it; a theorem whose statement checks is kept even if its proof does not.
-/

namespace Sequitur

namespace Scope

/-- The table with one more declaration. -/
def declare (scope : Scope) (d : Decl) : Noted Table :=
  match scope.table.insert d with
  | .ok table => pure table
  | .error (.reinsertion _) => do
    Noted.fault .nameTaken d.name
    return scope.table

end Scope

namespace TypeBlock

def declareNames (scope : Scope) (span : Span) : List Token.Ref → Noted Table
  | [] => pure scope.table
  | name :: names => do
    let table ← if ← scope.checkFresh name then scope.declare (.type ⟨name, span⟩) else pure scope.table
    declareNames { scope with table } span names

def declare (scope : Scope) (b : TypeBlock) : Noted Table :=
  declareNames scope b.span b.names

end TypeBlock

namespace TermBlock

def declare (scope : Scope) (b : TermBlock) : Noted Table := do
  if !(← scope.checkType b.type) then return scope.table
  if !(← scope.checkFresh b.name) then return scope.table
  if !(← scope.checkParams [] b.params) then return scope.table
  let names := b.params.map (·.name.text)
  b.content.forM fun token => if names.contains token.text then Noted.refine token .argName else pure ()
  let template := Template.ofForm names (b.content.map (·.text))
  scope.declare (.term ⟨b.type, b.name, b.params, template, b.span⟩)

end TermBlock

namespace RuleBlock

/-- The terms of statements; stops at the first that does not check. Each gets its text as a
comment. -/
def statements (scope : Scope) (params : List Param) : List Expr → Noted (Option (List Term))
  | [] => pure (some [])
  | e :: es => do
    match ← e.elaborate scope params with
    | none => return none
    | some t => do
      Noted.comment t.head t.text
      return (← statements scope params es).map (t :: ·)

/-- The rule that a block states, if it checks. -/
def rule? (scope : Scope) (b : RuleBlock) : Noted (Option Rule) := do
  if !(← scope.checkFresh b.name) then return none
  if !(← scope.checkParams [] b.params) then return none
  match ← statements scope b.params b.targets with
  | none => return none
  | some targets =>
    match ← statements scope b.params b.assumptions with
    | none => return none
    | some assumptions =>
      return some ⟨b.name, b.params, targets, assumptions, b.distinct.map (·.map (·.text)), b.span⟩

def declare (scope : Scope) (b : RuleBlock) : Noted Table := do
  match ← b.rule? scope with
  | none => return scope.table
  | some rule => scope.declare (.axm rule)

end RuleBlock

namespace ThmBlock

def declare (scope : Scope) (b : ThmBlock) : Noted Table := do
  match ← b.rule? scope with
  | none => return scope.table
  | some rule => do
    let thm ← Thm.prove scope rule b.proof
    if !thm.isProved then Noted.fault .notProved rule.name
    scope.declare (.thm thm)

end ThmBlock

namespace Block

def declare (scope : Scope) : Block → Noted Table
  | .types b => b.declare scope
  | .term b => b.declare scope
  | .axm b => b.declare scope
  | .thm b => b.declare scope

/-- Each block sees what those before it declare. -/
def declareAll (scope : Scope) : List Block → Noted Table
  | [] => pure scope.table
  | b :: blocks => do
    let table ← b.declare scope
    declareAll { scope with table } blocks

end Block

end Sequitur
