import Sequitur.Token

/-!
Typed parameters of terms and rules.
-/

namespace Sequitur

/-- A parameter with its type, `T x`. -/
structure Param where
  type : Token.Ref
  name : Token.Ref
deriving DecidableEq, Repr, Inhabited

namespace Param

def render (p : Param) : String := p.type.text ++ " " ++ p.name.text

/-- The parameter of a name. -/
def find? (params : List Param) (name : String) : Option Param :=
  List.find? (·.name.text == name) params

/-- `(T1 x1, T2 x2)`. -/
def renderList (params : List Param) : String :=
  "(" ++ ", ".intercalate (params.map render) ++ ")"

end Param

end Sequitur
