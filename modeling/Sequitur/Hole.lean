import Sequitur.Term

/-!
The holes of one proof. A hole comes from an unknown name, which later arguments can refer to, or
from an argument that is missing or unusable, which gets a name of its own. No two holes share a name.
-/

namespace Sequitur

structure Hole where
  head : Token.Ref
  span : Span
  param : Param
  /-- Later places that refer to the hole, in order. -/
  uses : List Span := []
deriving DecidableEq, Repr

namespace Hole

def name (h : Hole) : String := h.head.text

def term (h : Hole) : Term := .hole h.head h.span h.param

end Hole

/-- In order of creation. -/
abbrev Holes := List Hole

end Sequitur
