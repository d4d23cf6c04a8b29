import Sequitur.Name.Map
import Sequitur.Param
import Sequitur.Template

/-!
Terms: parameters, holes and applications of declared terms. A hole is an argument still to be found;
it goes by its name alone.

Every term has a *key*, its canonical spelling in the language itself, and a *text*, its spelling by
the templates of its declarations. Terms count as equal if their keys are. Substitution goes by keys
too: it looks up the key of every subterm, from the outside in, so it replaces holes, parameters and
whole subterms alike.
-/

namespace Sequitur

structure TermDecl where
  type : Token.Ref
  name : Token.Ref
  params : List Param
  template : Template
  span : Span
deriving DecidableEq, Repr

/-- The head and the span say where a term was written; they play no role for what it means. -/
inductive Term where
  | var (head : Token.Ref) (span : Span) (param : Param)
  /-- A hole of the type of a parameter. -/
  | hole (head : Token.Ref) (span : Span) (param : Param)
  | app (head : Token.Ref) (span : Span) (decl : TermDecl) (args : List Term)
deriving Repr

namespace Term

def head : Term → Token.Ref
  | .var head _ _ | .hole head _ _ | .app head _ _ _ => head

def span : Term → Span
  | .var _ span _ | .hole _ span _ | .app _ span _ _ => span

def args : Term → List Term
  | .var .. | .hole .. => []
  | .app _ _ _ args => args

/-- The name of the term's type. -/
def type : Term → String
  | .var _ _ param | .hole _ _ param => param.type.text
  | .app _ _ decl _ => decl.type.text

def isHole : Term → Bool
  | .hole .. => true
  | _ => false

/-- `name`, or `name(k1,k2)`. -/
def appKey (name : String) (keys : List String) : String :=
  if keys.isEmpty then name else name ++ "(" ++ ",".intercalate keys ++ ")"

mutual
def key : Term → String
  | .var _ _ param => param.name.text
  | .hole head _ _ => head.text
  | .app _ _ decl args => appKey decl.name.text (keys args)
def keys : List Term → List String
  | [] => []
  | t :: ts => key t :: keys ts
end

mutual
def text : Term → String
  | .var _ _ param => param.name.text
  | .hole head _ _ => head.text
  | .app _ _ decl args => decl.template.render (texts args)
def texts : List Term → List String
  | [] => []
  | t :: ts => text t :: texts ts
end

mutual
/-- The holes of a term, from left to right. -/
def holes : Term → List Term
  | .var .. => []
  | .hole head span param => [.hole head span param]
  | .app _ _ _ args => holesAll args
def holesAll : List Term → List Term
  | [] => []
  | t :: ts => holes t ++ holesAll ts
end

mutual
/-- The subterms without arguments, from left to right. -/
def leaves : Term → List Term
  | .var head span param => [.var head span param]
  | .hole head span param => [.hole head span param]
  | .app head span decl [] => [.app head span decl []]
  | .app _ _ _ (t :: ts) => leaves t ++ leavesAll ts
def leavesAll : List Term → List Term
  | [] => []
  | t :: ts => leaves t ++ leavesAll ts
end

mutual
/-- The number of subterms. -/
def size : Term → Nat
  | .var .. | .hole .. => 1
  | .app _ _ _ args => 1 + sizes args
def sizes : List Term → Nat
  | [] => 0
  | t :: ts => size t + sizes ts
end

def hasHole (t : Term) : Bool := !t.holes.isEmpty

/-- The names of the holes of a term. -/
def holeNames (t : Term) : NameSet := .ofList (keys t.holes)

/-- The names at the leaves of a term, constants among them. -/
def leafNames (t : Term) : NameSet := .ofList (keys t.leaves)

theorem keys_eq_map (ts : List Term) : keys ts = ts.map key := by
  induction ts with
  | nil => rfl
  | cons t ts ih => simp [keys, ih]

theorem texts_eq_map (ts : List Term) : texts ts = ts.map text := by
  induction ts with
  | nil => rfl
  | cons t ts ih => simp [texts, ih]

theorem holesAll_eq_flatMap (ts : List Term) : holesAll ts = ts.flatMap holes := by
  induction ts with
  | nil => rfl
  | cons t ts ih => simp [holesAll, ih]

theorem leavesAll_eq_flatMap (ts : List Term) : leavesAll ts = ts.flatMap leaves := by
  induction ts with
  | nil => rfl
  | cons t ts ih => simp [leavesAll, ih]

theorem size_pos (t : Term) : 0 < t.size := by
  cases t <;> simp only [size] <;> omega

end Term

/-- A map from keys to the terms put in their place. -/
abbrev Subst := NameMap Term

namespace Term

mutual
/-- The key of a term, and the term with its subterms replaced; `none` if none is. A term is made from
what its arguments give, so that no key is spelled twice. -/
def replace (σ : Subst) : Term → String × Option Term
  | .var _ _ param => (param.name.text, σ.get? param.name.text)
  | .hole head _ _ => (head.text, σ.get? head.text)
  | .app head span decl args =>
    let replaced := replaceAll σ args
    let key := appKey decl.name.text replaced.1
    (key, (σ.get? key).or (replaced.2.map (.app head span decl)))
def replaceAll (σ : Subst) : List Term → List String × Option (List Term)
  | [] => ([], none)
  | t :: ts =>
    let first := replace σ t
    let rest := replaceAll σ ts
    (first.1 :: rest.1,
      if first.2.isNone && rest.2.isNone then none else some (first.2.getD t :: rest.2.getD ts))
end

/-- The term under a substitution, if that replaces anything in it. -/
def subst? (σ : Subst) (t : Term) : Option Term := (replace σ t).2

def subst (σ : Subst) (t : Term) : Term := (subst? σ t).getD t

mutual
theorem fst_replace (σ : Subst) : ∀ t : Term, (replace σ t).1 = t.key
  | .var .. | .hole .. => rfl
  | .app _ _ decl args => congrArg (appKey decl.name.text) (fst_replaceAll σ args)
theorem fst_replaceAll (σ : Subst) : ∀ ts : List Term, (replaceAll σ ts).1 = keys ts
  | [] => rfl
  | t :: ts => by rw [replaceAll, keys, fst_replace σ t, fst_replaceAll σ ts]
end

theorem getD_snd_replaceAll (σ : Subst) (ts : List Term) :
    (replaceAll σ ts).2.getD ts = ts.map (subst σ) := by
  induction ts with
  | nil => rfl
  | cons t ts ih =>
    rw [List.map_cons, ← ih]
    simp only [replaceAll, subst, subst?]
    cases (replace σ t).2 <;> cases (replaceAll σ ts).2 <;> rfl

@[simp] theorem subst_var (σ : Subst) (head : Token.Ref) (span : Span) (param : Param) :
    subst σ (.var head span param) = (σ.get? param.name.text).getD (.var head span param) := rfl

@[simp] theorem subst_hole (σ : Subst) (head : Token.Ref) (span : Span) (param : Param) :
    subst σ (.hole head span param) = (σ.get? head.text).getD (.hole head span param) := rfl

/-- A term whose key is mapped is replaced as a whole; otherwise its arguments are looked at. -/
theorem subst_app (σ : Subst) (head : Token.Ref) (span : Span) (decl : TermDecl) (args : List Term) :
    subst σ (.app head span decl args) =
      (σ.get? (key (.app head span decl args))).getD (.app head span decl (args.map (subst σ))) := by
  rw [← getD_snd_replaceAll, ← fst_replace σ]
  simp only [subst, subst?, replace]
  cases σ.get? (appKey decl.name.text (replaceAll σ args).1) with
  | some t => rfl
  | none => cases (replaceAll σ args).2 <;> rfl

theorem subst_eq_self {σ : Subst} {t : Term} (h : subst? σ t = none) : subst σ t = t := by
  rw [subst, h, Option.getD_none]

end Term

end Sequitur
