import Sequitur.Decl.Printer
import Sequitur.Elaboration
import Sequitur.Proof.Goals

/-!
Replay of proofs. All steps of a proof are elaborated first, then they are taken one after another on
the goals of the theorem. A step that proves no goal is recorded as useless and leaves the goals as
they are; for such a step, the candidates that would make it useful are worked out as alternatives.
-/

namespace Sequitur

namespace Rule

/-- The distinctness conditions of an applied rule that a theorem with the rule `r` does not grant. -/
def violations (r : Rule) (required : Distinct) : List (String × String) :=
  required.violations r.distinct (.ofList r.paramNames)

end Rule

namespace Step

/-- The rule of a name, with the kind of name it is. -/
def rule? (scope : Scope) (name : String) : Option (Token.Kind × Rule) :=
  match scope.find? name with
  | some (.axm rule) => some (.axiomName, rule)
  | some (.thm thm) => some (.thmName, thm.rule)
  | _ => none

/-- The arguments of a step, one for each parameter of its rule. Where arguments run out there are
holes; further arguments are not looked at. -/
def fillArgs (scope : Scope) (params : List Param) (head : Token.Ref) :
    List Param → List Expr → Filling (List Term)
  | [], _ => pure []
  | want :: wants, [] => do
    let t ← Filling.fresh head (.empty head.span.stop) want
    let ts ← fillArgs scope params head wants []
    return t :: ts
  | want :: wants, e :: es => do
    let t ← e.fill scope params want
    let ts ← fillArgs scope params head wants es
    return t :: ts

/-- A rule applied to one argument for each of its parameters, in the proof of a theorem. -/
def apply (thm rule : Rule) (head : Token.Ref) (span : Span) (args : List Term) : Step :=
  let σ : Subst := .ofList (rule.paramNames.zip args)
  let distinct := Distinct.instantiate rule.groups σ
  { head, args, span, rule
    targets := rule.targets.map (Term.subst σ)
    assumptions := rule.assumptions.map (Term.subst σ)
    distinct
    usesHole := args.any Term.hasHole
    violations := thm.violations distinct
    edits := [] }

/-- A step as written; `none` if it names no rule. -/
def elaborate? (scope : Scope) (thm : Rule) (e : Expr) : Filling (Option Step) :=
  match rule? scope e.head.text with
  | none => do
    Noted.fault .ruleUndefined e.head
    Noted.refine e.head .unresolved
    return none
  | some (kind, rule) => do
    let _ ← checkArity e.head rule.params.length e.args.length
    Noted.refine e.head kind
    let args ← fillArgs scope thm.params e.head rule.params e.args
    let step := apply thm rule e.head e.span args
    step.violations.forM fun _ => Noted.fault .distinctViolated e.head
    return some step

/-- Rules to name in place of one that is not declared. -/
def nameSuggestions (scope : Scope) (head : Token.Ref) : List Suggestion :=
  (scope.search head.text).map fun d =>
    { span := head.span, text := d.name.text, doc := d.render .display, edits := [] }

/-- The steps of a proof, and the rules to name in place of those that are not declared. -/
def elaborateAll (scope : Scope) (thm : Rule) : List Expr → Filling (List Step × List Suggestion)
  | [] => pure ([], [])
  | e :: es => do
    let step ← elaborate? scope thm e
    let (steps, suggestions) ← elaborateAll scope thm es
    match step with
    | some step => return (step :: steps, suggestions)
    | none => return (steps, nameSuggestions scope e.head ++ suggestions)

/-- The changes that a substitution makes to a hole: where it was first written and where it was
referred to, unless that is inside the step. A hole is only changed if it was written on an earlier
line than the step. -/
def holeEdits (step : Step) (σ : Subst) (hole : Hole) : List Edit :=
  if hole.span.isEmpty || step.span.start.line ≤ hole.span.stop.line then []
  else
    match σ.get? hole.name with
    | none => []
    | some t =>
      if t.key = hole.name then []
      else
        let inStep := fun (s : Span) => step.span.start.placeLE s.start && s.stop.placeLE step.span.stop
        (hole.span :: hole.uses.filter (!inStep ·)).map fun span =>
          { span, oldText := hole.name, newText := t.key, newTermText := t.text }

/-- A step under a substitution; `none` if that changes neither an argument nor an earlier line. -/
def instantiate? (thm : Rule) (holes : Holes) (step : Step) (σ : Subst) : Option Step :=
  let args := step.args.map (Term.subst σ)
  let edits := List.flatMap (holeEdits step σ) holes
  if edits.isEmpty && Term.keys args == Term.keys step.args then none
  else
    let distinct := step.distinct.reinstantiate σ
    some { step with
      args
      targets := step.targets.map (Term.subst σ)
      assumptions := step.assumptions.map (Term.subst σ)
      distinct
      usesHole := args.any Term.hasHole
      violations := thm.violations distinct
      edits }

/-- The steps that would be useful in the place of one that is not. -/
def alternatives (thm : Rule) (holes : Holes) (current : List Term) (step : Step) : List Step :=
  (candidates current step.targets step.assumptions thm.assumptions).filterMap
    (instantiate? thm holes step)

/-- What is said beside a step about the goals it leaves. -/
def comment (step : Step) (goals : List Term) : String :=
  step.head.text ++ " => " ++
    if goals.isEmpty then "Q.E.D." else "; ".intercalate ((Term.texts goals).map ("|- " ++ ·))

/-- Takes steps one after another. Gives the goals left after each, and the alternatives to each. -/
def replay (thm : Rule) (holes : Holes) (current : List Term) :
    List Step → Noted (List (List Term) × List (List Step))
  | [] => pure ([], [])
  | step :: steps =>
    match Goals.advance (.ofList (Term.keys thm.assumptions)) current step.targets step.assumptions with
    | some goals => do
      Noted.comment step.head (step.comment goals)
      let (trace, alternatives) ← replay thm holes goals steps
      return (goals :: trace, [] :: alternatives)
    | none => do
      Noted.fault .stepUseless step.head
      let (trace, alternatives) ← replay thm holes current steps
      return (current :: trace, step.alternatives thm holes current :: alternatives)

end Step

namespace Thm

/-- A theorem with its proof. -/
def prove (scope : Scope) (rule : Rule) (proof : List Expr) : Noted Thm := do
  let ((steps, nameSuggestions), table) ← (Step.elaborateAll scope rule proof).run ∅
  let (trace, alternatives) ← Step.replay rule table.holes rule.targets steps
  return { rule, proof := steps, trace, alternatives, nameSuggestions }

end Thm

end Sequitur
