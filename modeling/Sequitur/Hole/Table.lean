import Sequitur.Hole

/-!
The holes of one proof as they are created: their terms in order of creation, a map from names to places in
this list, and apart from it the places that refer to a name. A counter says where the search for a made-up
name starts.
-/

namespace Sequitur

namespace Holes

def nameAt (type : String) (i : Nat) : String := "?" ++ type ++ toString i

/-- The first name that is not taken, from number `i` on, or the last one tried. -/
def probe (taken : String → Bool) (type : String) : Nat → Nat → String
  | 0, i => nameAt type i
  | tries + 1, i => if taken (nameAt type i) then probe taken type tries (i + 1) else nameAt type i

end Holes

structure HoleTable where
  /-- The number from which names are made up. -/
  index : Nat := 0
  /-- In order of creation. -/
  terms : List Term := []
  /-- Where the hole of a name is in `terms`. -/
  byName : NameMap Nat := ∅
  /-- Later places that refer to a name, in order. -/
  uses : NameMap (List Span) := ∅

namespace HoleTable

instance : EmptyCollection HoleTable := ⟨{}⟩

/-- The least name `?Tn` that denotes no hole, where `n` is at least the index. As many tries as there are
names find it. -/
def nextName (v : HoleTable) (type : String) : String :=
  Holes.probe v.byName.contains type v.byName.size v.index

def get? (v : HoleTable) (name : String) : Option Term :=
  (v.byName.get? name).bind fun i => v.terms[i]?

def add (v : HoleTable) (t : Term) : HoleTable where
  index := v.index + 1
  terms := v.terms ++ [t]
  byName := v.byName.insert t.key v.terms.length
  uses := v.uses

/-- A hole of a name of its own, for lack of an argument at a token. -/
def freshTerm (v : HoleTable) (token : Token.Ref) (span : Span) (param : Param) : Term :=
  .hole ⟨token.index, v.nextName param.type.text, span⟩ span param

/-- The later places that refer to a name. -/
def usesOf (v : HoleTable) (name : String) : List Span := (v.uses.get? name).getD []

/-- Notes another place that refers to a name. -/
def useAt (v : HoleTable) (name : String) (span : Span) : HoleTable :=
  { v with uses := v.uses.insert name (v.usesOf name ++ [span]) }

/-- The hole of a term, with the later places that refer to it. -/
def hole? (v : HoleTable) : Term → Option Hole
  | .hole head span param => some { head, span, param, uses := v.usesOf head.text }
  | .var .. | .app .. => none

def holes (v : HoleTable) : Holes := v.terms.filterMap v.hole?

end HoleTable

end Sequitur
