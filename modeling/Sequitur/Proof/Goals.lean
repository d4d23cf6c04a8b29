import Sequitur.Term.Unifier

/-!
Goals of a proof. A proof runs backwards: a step that proves some of the current goals replaces them
by its assumptions. What the theorem itself assumes is never a goal.
-/

namespace Sequitur

namespace Goals

/-- The assumptions of a step that become goals: those that are neither assumed nor a goal already. -/
def added (assumed : NameSet) (seen : List String) : List Term → List Term
  | [] => []
  | a :: as =>
    if assumed.contains a.key || seen.contains a.key then added assumed seen as
    else a :: added assumed (a.key :: seen) as

/-- The goals after a step with the given targets and assumptions; `none` if it proves none of the
current ones. -/
def advance (assumed : NameSet) (current targets assumptions : List Term) : Option (List Term) :=
  let proved := Term.keys targets
  if current.any fun t => proved.contains t.key then
    let rest := current.filter fun t => !proved.contains t.key && !assumed.contains t.key
    some (added assumed (Term.keys rest) assumptions ++ rest)
  else none

end Goals

namespace Candidate

/-- The bindings of a substitution, spelled out. -/
def signature (σ : Subst) : String :=
  String.join (σ.toList.map fun (x, t) => x ++ "=" ++ t.key ++ ";")

/-- How many holes a substitution fills with something other than a hole. -/
def filled (σ : Subst) : Nat := σ.values.countP (!·.isHole)

/-- How many holes a substitution merely identifies with another. -/
def renamed (σ : Subst) : Nat := σ.values.countP (·.isHole)

/-- The substitution that fills more holes comes first, then the one that renames fewer. -/
def rankLE (σ τ : Subst) : Bool :=
  filled τ < filled σ || (filled σ == filled τ && renamed σ ≤ renamed τ)

/-- Of substitutions with the same signature keeps the first; `seen` holds signatures to drop. -/
def dedup (seen : NameSet) : List Subst → List Subst
  | [] => []
  | σ :: σs =>
    let sig := signature σ
    if seen.contains sig then dedup seen σs else σ :: dedup (seen.insert sig) σs

/-- Substitutions that also make an assumption agree with a hypothesis, and bind more that way. -/
def extensions (assumptions hyps : List Term) (σ : Subst) : List Subst :=
  assumptions.flatMap fun a =>
    hyps.filterMap fun h => (Term.unify σ a h).filter fun τ => σ.size < τ.size

/-- All substitutions found, goal by goal. -/
def found (current targets assumptions hyps : List Term) : List Subst :=
  current.flatMap fun goal =>
    targets.flatMap fun target =>
      match Term.unify ∅ target goal with
      | some σ => σ :: extensions assumptions hyps σ
      | none => []

end Candidate

/-- Substitutions under which a target of a step is a current goal, the most informative first. -/
def candidates (current targets assumptions hyps : List Term) : List Subst :=
  (Candidate.dedup ∅ (Candidate.found current targets assumptions hyps)).mergeSort Candidate.rankLE

end Sequitur
