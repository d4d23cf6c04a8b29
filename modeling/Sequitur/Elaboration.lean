import Sequitur.Block
import Sequitur.Hole.Table
import Sequitur.Table

/-!
Elaboration of expressions to terms. The statement of a rule is elaborated strictly: whatever does
not resolve fails. An argument of a proof step is elaborated leniently: whatever does not resolve
becomes a hole, and an unknown name becomes a hole that later arguments can refer to.
-/

namespace Sequitur

namespace Scope

variable (scope : Scope)

/-- Whether a name may be introduced. -/
def checkFresh (name : Token.Ref) : Noted Bool :=
  if name.text = Keyword.distinct.text then do
    Noted.fault .distinctIsKeyword name
    return false
  else if (scope.find? name.text).isSome then do
    Noted.fault .nameTaken name
    return false
  else pure true

/-- Whether a token refers to a type. -/
def checkType (type : Token.Ref) : Noted Bool :=
  match scope.find? type.text with
  | some (.type _) => pure true
  | some _ => do
    Noted.fault .notType type
    return false
  | none => do
    Noted.fault .typeUndefined type
    return false

/-- Whether parameters can stand in a declaration; stops at the first that cannot. `seen` holds the
names of those before. -/
def checkParams (seen : List String) : List Param → Noted Bool
  | [] => pure true
  | p :: ps => do
    if !(← scope.checkType p.type) then return false
    if !(← scope.checkFresh p.name) then return false
    if seen.contains p.name.text then
      Noted.fault .paramTaken p.name
      return false
    checkParams (p.name.text :: seen) ps

end Scope

/-- Whether a name has as many arguments as it wants. -/
def checkArity (head : Token.Ref) (want got : Nat) : Noted Bool :=
  if got = want then pure true
  else do
    Noted.fault (if want < got then .tooManyArgs else .tooFewArgs) head
    return false

namespace TermDecl

/-- The kind of name that a term declaration introduces. -/
def nameKind (d : TermDecl) : Token.Kind :=
  if d.params.isEmpty then .constName else .termName

end TermDecl

namespace Expr

/-- The arguments, if all of them are there and have the types of the parameters. -/
def typedArgs : List (Option Term) → List Param → Option (List Term)
  | some t :: ts, p :: ps =>
    if t.type = p.type.text then (typedArgs ts ps).map (t :: ·) else none
  | none :: _, _ :: _ => none
  | _, _ => some []

variable (scope : Scope) (params : List Param)

mutual
/-- Strict elaboration. All arguments are elaborated even if one of them fails. -/
def elaborate : Expr → Noted (Option Term)
  | ⟨head, args, span⟩ =>
    match Param.find? params head.text with
    | some param => do
      Noted.refine head .argName
      if args.isEmpty then return some (.var head span param)
      Noted.fault .tooManyArgs head
      return none
    | none =>
      match scope.term? head.text with
      | none => do
        Noted.fault .termUndefined head
        return none
      | some decl => do
        if !(← checkArity head decl.params.length args.length) then return none
        Noted.refine head decl.nameKind
        match typedArgs (← elaborateAll args) decl.params with
        | some args => return some (.app head span decl args)
        | none => do
          Noted.fault .argTypeMismatch head
          return none
def elaborateAll : List Expr → Noted (List (Option Term))
  | [] => pure []
  | e :: es => do
    let t ← elaborate e
    let ts ← elaborateAll es
    return t :: ts
end

end Expr

/-- Elaboration that can leave holes. -/
abbrev Filling := StateT HoleTable Noted

namespace Filling

def get? (name : String) : Filling (Option Term) := do
  return (← get).get? name

def add (t : Term) : Filling Term := do
  modify (·.add t)
  return t

/-- A hole of a name of its own in the place of an argument. -/
def fresh (token : Token.Ref) (span : Span) (param : Param) : Filling Term := do
  add ((← get).freshTerm token span param)

/-- A hole that later arguments can refer to by the name it was written with. -/
def named (head : Token.Ref) (span : Span) (param : Param) : Filling Term := add (.hole head span param)

def useAt (name : String) (span : Span) : Filling Unit := modify (·.useAt name span)

end Filling

namespace Expr

variable (scope : Scope) (params : List Param)

mutual
/-- Lenient elaboration of an argument in the place of the parameter `want`. -/
def fill (want : Param) : Expr → Filling Term
  | ⟨head, args, span⟩ => do
    match Param.find? params head.text with
    | some param => do
      Noted.refine head .argName
      if !args.isEmpty then Noted.fault .tooManyArgs head
      if param.type.text = want.type.text then return .var head span param
      Noted.fault .argTypeMismatch head
      Filling.fresh head span want
    | none =>
      match ← Filling.get? head.text with
      | some hole => do
        if hole.type = want.type.text then
          if !args.isEmpty then Noted.fault .tooManyArgs head
          Filling.useAt head.text span
          return hole
        Noted.fault .argTypeMismatch head
        Filling.fresh head span want
      | none =>
        match scope.find? head.text with
        | none => do
          Noted.fault .termUndefined head
          Filling.named head span want
        | some (.term decl) => do
          if decl.type.text != want.type.text then
            Noted.fault .argTypeMismatch head
            Filling.fresh head span want
          else if !(← checkArity head decl.params.length args.length) then
            Filling.fresh head span want
          else do
            Noted.refine head decl.nameKind
            return .app head span decl (← fillAll decl.params args)
        | some _ => do
          Noted.fault .termUndefined head
          Filling.fresh head span want
/-- Arguments in the places of parameters, as far as both go. -/
def fillAll : List Param → List Expr → Filling (List Term)
  | _, [] => pure []
  | [], _ :: _ => pure []
  | want :: wants, e :: es => do
    let t ← fill want e
    let ts ← fillAll wants es
    return t :: ts
end

end Expr

end Sequitur
