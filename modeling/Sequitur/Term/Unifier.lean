import Sequitur.Term

/-!
Unification of terms with holes.

The state holds the terms that holes are bound to, classes of holes that were identified with one
another, and for each bound hole the holes its term holds. A hole is bound or identified only if that
makes no hole depend on itself, where the holes of a class count as one. A failed attempt may leave
bindings and classes behind.

One step calls unification again on terms that are already in the state or parts of the given ones.
How deep that goes is bounded by `depthBound`: along a chain of calls that neither binds nor
identifies nor records a dependency, no pair of subterms comes twice.
-/

namespace Sequitur

structure Unifier where
  bindings : Subst := ∅
  /-- Disjoint sets of identified holes. -/
  classes : List NameSet := []
  /-- The holes that the term of a hole holds. -/
  deps : NameMap NameSet := ∅

namespace Unifier

variable (u : Unifier)

/-- The holes identified with `v`, itself included. -/
def members (v : String) : NameSet :=
  (u.classes.find? (·.contains v)).getD (.ofList [v])

theorem self_mem_members (v : String) : v ∈ u.members v := by
  unfold members
  cases h : u.classes.find? (·.contains v) with
  | none => simp
  | some c => simpa using List.find?_some h

/-- Whether two holes were identified, or are one. -/
def sameClass (v w : String) : Bool := (u.members v).contains w

theorem sameClass_self (v : String) : u.sameClass v v = true :=
  NameSet.contains_iff.2 (u.self_mem_members v)

/-- The term `v` is bound to, or else the first one bound in its class. -/
def binding? (v : String) : Option Term :=
  (u.bindings.get? v).or ((u.members v).toList.findSome? u.bindings.get?)

def depsOf (v : String) : NameSet := (u.deps.get? v).getD ∅

/-- The holes that those of a set depend on directly, with their classes. -/
def succs (s : NameSet) : NameSet :=
  (s.toList.flatMap fun p => (u.depsOf p).toList).foldr (fun c r => u.members c ∪ r) ∅

/-- Adds to `seen` the holes within some number of steps from `front`, which `seen` includes. -/
def reach : Nat → NameSet → NameSet → NameSet
  | 0, seen, _ => seen
  | n + 1, seen, front =>
    let new := (u.succs front).filter (!seen.contains ·)
    if new.isEmpty then seen else reach n (seen ∪ new) new

/-- The holes that `v` depends on, through any number of bindings. A shortest chain passes each hole
with dependencies once, so their number is enough steps. -/
def below (v : String) : NameSet :=
  let direct := u.succs (u.members v)
  u.reach u.deps.size direct direct

def depends (v w : String) : Bool := (u.below v).contains w

/-- Identifies two holes, and so their classes. -/
def merge (v w : String) : Unifier :=
  let touched := u.classes.filter fun c => c.contains v || c.contains w
  let others := u.classes.filter fun c => !(c.contains v || c.contains w)
  { u with classes := others ++ [touched.foldl (· ∪ ·) (.ofList [v, w])] }

def addDeps (v : String) (ws : NameSet) : Unifier :=
  { u with deps := u.deps.insert v (u.depsOf v ∪ ws) }

/-- Whether binding `v` to a term with the holes `ws` would make it depend on itself. -/
def wouldCycle (v : String) (ws : NameSet) : Bool :=
  ws.toList.any fun w => u.sameClass v w || u.depends w v

/-- Binds `v` to `t`, unifying with `rec` if `v` is bound already. -/
def bind (rec : Term → Term → Unifier → Option (Bool × Unifier)) (v : String) (t : Term) :
    Option (Bool × Unifier) :=
  let ws := t.holeNames
  if u.wouldCycle v ws then some (false, u)
  else
    match u.binding? v with
    | some old => (rec old t u).map fun (ok, u) => if ok then (true, u.addDeps v ws) else (false, u)
    | none => some (true, { u with bindings := u.bindings.insert v t }.addDeps v ws)

/-- Identifies two holes, unifying with `rec` if both are bound. -/
def identify (rec : Term → Term → Unifier → Option (Bool × Unifier)) (v w : String) :
    Option (Bool × Unifier) :=
  if v = w then some (true, u)
  else if u.depends v w || u.depends w v then some (false, u)
  else
    match u.binding? v, u.binding? w with
    | some s, some t => (rec s t u).map fun (ok, u) => if ok then (true, u.merge v w) else (false, u)
    | _, _ => some (true, u.merge v w)

/-- Unifies pair after pair and stops at the first that fails. -/
def unifyPairs (rec : Term → Term → Unifier → Option (Bool × Unifier)) :
    List (Term × Term) → Unifier → Option (Bool × Unifier)
  | [], u => some (true, u)
  | (s, t) :: pairs, u =>
    match rec s t u with
    | some (true, u) => unifyPairs rec pairs u
    | result => result

/-- Unification to a depth of calls; `none` if that is not enough. -/
def unifyWithin : Nat → Term → Term → Unifier → Option (Bool × Unifier)
  | 0, _, _, _ => none
  | n + 1, s, t, u =>
    match s.isHole, t.isHole with
    | true, true => u.identify (unifyWithin n) s.key t.key
    | true, false => u.bind (unifyWithin n) s.key t
    | false, true => u.bind (unifyWithin n) t.key s
    | false, false =>
      if s.head.text = t.head.text ∧ s.args.length = t.args.length then
        unifyPairs (unifyWithin n) (s.args.zip t.args) u
      else some (false, u)

/-- The number of subterms in play, the holes of the state included. -/
def weight (s t : Term) : Nat :=
  s.size + t.size + Term.sizes u.bindings.values + u.bindings.size +
    u.classes.foldr (fun c n => c.toList.length + n) 0 +
    u.deps.toList.foldr (fun e n => 1 + e.2.toList.length + n) 0

/-- Pairs of subterms, times the number of times that the state can change. -/
def depthBound (s t : Term) : Nat := Nat.pow (u.weight s t + 1) 4

/-- Makes two terms equal, if that is possible. -/
def unify (s t : Term) : Bool × Unifier :=
  (unifyWithin (u.depthBound s t) s t u).getD (false, u)

/-- As `unify`, where an absent term agrees with everything. -/
def unify? : Option Term → Option Term → Bool × Unifier
  | some s, some t => u.unify s t
  | _, _ => (true, u)

/-- Binds the holes of a class: to the term one of them is bound to, or else to the least of them. -/
def closeClass (node? : String → Option Term) (σ : Subst) (c : NameSet) : Subst :=
  match c.toList.findSome? σ.get? with
  | some t => c.toList.foldl (fun σ v => σ.insert v t) σ
  | none =>
    match c.toList.head?.bind node? with
    | some t => (c.toList.filter (· != t.key)).foldl (fun σ v => σ.insert v t) σ
    | none => σ

/-- Substitutes a substitution into its own terms, again and again, while that replaces anything. -/
def resolveWithin : Nat → Subst → Subst
  | 0, σ => σ
  | n + 1, σ =>
    if σ.values.all fun t => (t.subst? σ).isNone then σ
    else resolveWithin n (σ.map fun _ t => t.subst σ)

/-- Stopping early makes no difference. -/
theorem resolveWithin_succ (n : Nat) (σ : Subst) :
    resolveWithin (n + 1) σ = resolveWithin n (σ.map fun _ t => t.subst σ) := by
  rw [resolveWithin]
  split
  · next h =>
    have hσ : (σ.map fun _ t => t.subst σ) = σ := NameMap.map_eq_self fun e he =>
      Term.subst_eq_self (Option.isNone_iff_eq_none.1 (List.all_eq_true.1 h e.2 (List.mem_map_of_mem he)))
    rw [hσ]
    cases n with
    | zero => rfl
    | succ n => rw [resolveWithin, if_pos h]
  · rfl

/-- The substitution that a state stands for; `node?` gives the hole of a name. -/
def finish (node? : String → Option Term) : Subst :=
  let σ := u.classes.foldl (closeClass node?) u.bindings
  resolveWithin (σ.size + 1) σ

end Unifier

namespace Term

/-- The first hole of a name in a list of terms. -/
def findHole? (ts : List Term) (name : String) : Option Term :=
  (holesAll ts).find? (·.key == name)

/-- The substitution that makes `s` and `t` equal, on top of the bindings of `base`. -/
def unify (base : Subst) (s t : Term) : Option Subst :=
  match ({ bindings := base } : Unifier).unify s t with
  | (true, u) => some (u.finish (findHole? (s :: t :: base.values)))
  | (false, _) => none

end Term

end Sequitur
