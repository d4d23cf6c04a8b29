import Sequitur.Term

/-!
Distinctness conditions: pairs of names that must be instantiated by terms without a common leaf.

A pair is kept under its lesser name. A name may be paired with itself, which no instantiation can
meet. What conditions say is read off by `Distinct.has`, and every operation has a lemma about it.
-/

namespace Sequitur

/-- For each name the names it is paired with. -/
structure Distinct where
  partners : NameMap NameSet

namespace Distinct

instance : EmptyCollection Distinct := ⟨⟨∅⟩⟩

def partnersOf (d : Distinct) (a : String) : NameSet := (d.partners.get? a).getD ∅

/-- `b` is among the partners of `a`. -/
def has (d : Distinct) (a b : String) : Bool := (d.partnersOf a).contains b

/-- The pairs as they are kept, in order. -/
def pairs (d : Distinct) : List (String × String) :=
  d.partners.toList.flatMap fun (a, bs) => bs.toList.map fun b => (a, b)

def insertOrdered (d : Distinct) (a b : String) : Distinct :=
  ⟨d.partners.insert a ((d.partnersOf a).insert b)⟩

/-- The lesser of two names and then the other. -/
def ordered (a b : String) : String × String := if a ≤ b then (a, b) else (b, a)

/-- Adds a pair, the lesser name first. -/
def insert (d : Distinct) (a b : String) : Distinct :=
  d.insertOrdered (ordered a b).1 (ordered a b).2

theorem has_insertOrdered {d : Distinct} {a b x y : String} :
    (d.insertOrdered a b).has x y = true ↔ x = a ∧ y = b ∨ d.has x y = true := by
  simp only [has, partnersOf, insertOrdered, NameMap.get?_insert]
  by_cases hx : x = a
  · subst hx
    simp
  · simp [hx]

theorem has_insert {d : Distinct} {a b x y : String} :
    (d.insert a b).has x y = true ↔ (x, y) = ordered a b ∨ d.has x y = true := by
  rw [insert, has_insertOrdered, Prod.mk.injEq]

/-- Adds all pairs of a name of one set with a name of another. -/
def insertProduct (d : Distinct) (as bs : NameSet) : Distinct :=
  as.toList.foldl (fun d a => bs.toList.foldl (fun d b => d.insert a b) d) d

theorem has_foldl_insert {d : Distinct} {a x y : String} {bs : List String} :
    (bs.foldl (fun d b => d.insert a b) d).has x y = true ↔
      (∃ b ∈ bs, (x, y) = ordered a b) ∨ d.has x y = true := by
  induction bs generalizing d with
  | nil => simp
  | cons b bs ih => simp [ih, has_insert, or_assoc, or_left_comm]

theorem has_insertProduct {d : Distinct} {as bs : NameSet} {x y : String} :
    (d.insertProduct as bs).has x y = true ↔
      (∃ a ∈ as, ∃ b ∈ bs, (x, y) = ordered a b) ∨ d.has x y = true := by
  suffices ∀ l : List String,
      (l.foldl (fun d a => bs.toList.foldl (fun d b => d.insert a b) d) d).has x y = true ↔
        (∃ a ∈ l, ∃ b ∈ bs, (x, y) = ordered a b) ∨ d.has x y = true from this as.toList
  intro l
  induction l generalizing d with
  | nil => simp
  | cons a l ih => simp [ih, has_foldl_insert, or_assoc, or_left_comm]

/-- Adds all pairs of names from sets at two different places of a list. -/
def insertAcross (d : Distinct) : List NameSet → Distinct
  | [] => d
  | s :: rest => insertAcross (rest.foldl (fun d t => d.insertProduct s t) d) rest

/-- The pairs that groups of names stand for: any two places of one group. -/
def ofGroups (groups : List (List String)) : Distinct :=
  groups.foldl (fun d group => d.insertAcross (group.map fun x => .ofList [x])) ∅

/-- What groups demand once the names are replaced by terms: any leaf of one against any leaf of
another. Names without a term are left out. -/
def instantiate (groups : List (List String)) (σ : Subst) : Distinct :=
  groups.foldl (fun d group => d.insertAcross (group.filterMap fun x => (σ.get? x).map Term.leafNames)) ∅

/-- What conditions demand once names are replaced by terms. Names without a term stay. -/
def reinstantiate (d : Distinct) (σ : Subst) : Distinct :=
  let leaves := fun x => ((σ.get? x).map Term.leafNames).getD (.ofList [x])
  d.pairs.foldl (fun e (a, b) => e.insertProduct (leaves a) (leaves b)) ∅

/-- The required pairs that do not hold where `declared` pairs of the parameters may be assumed: a
name paired with itself, and a pair of parameters that is not declared. -/
def violations (required declared : Distinct) (params : NameSet) : List (String × String) :=
  required.partners.toList.flatMap fun (a, bs) =>
    let self := if bs.contains a then [(a, a)] else []
    let undeclared := bs.toList.filter fun b =>
      params.contains a && b != a && params.contains b && !declared.has a b
    self ++ undeclared.map fun b => (a, b)

end Distinct

end Sequitur
