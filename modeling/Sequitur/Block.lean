import Sequitur.Expr
import Sequitur.Param

/-!
Blocks of a source text: declarations as written, before any name is resolved.
-/

namespace Sequitur

structure TypeBlock where
  keyword : Token.Ref
  names : List Token.Ref
  span : Span
deriving Repr

structure TermBlock where
  keyword : Token.Ref
  type : Token.Ref
  name : Token.Ref
  params : List Param
  /-- The words of the term's form; its name if it has none. -/
  content : List Token.Ref
  span : Span
deriving Repr

/-- What axioms and theorems have in common. -/
structure RuleBlock where
  keyword : Token.Ref
  name : Token.Ref
  params : List Param
  targets : List Expr
  assumptions : List Expr
  /-- Groups of parameters that must be pairwise distinct. -/
  distinct : List (List Token.Ref)
  span : Span
deriving Repr

structure ThmBlock extends RuleBlock where
  proof : List Expr
deriving Repr

inductive Block where
  | types (block : TypeBlock)
  | term (block : TermBlock)
  | axm (block : RuleBlock)
  | thm (block : ThmBlock)
deriving Repr

namespace RuleBlock

def render (b : RuleBlock) : String :=
  b.name.text ++ Param.renderList b.params ++ " \x7b" ++
    String.join (b.distinct.map fun group => "\n  diff (" ++ ", ".intercalate (group.map (·.text)) ++ ")") ++
    String.join (b.assumptions.map ("\n  -| " ++ ·.render)) ++
    String.join (b.targets.map ("\n  |- " ++ ·.render)) ++ "\n\x7d"

end RuleBlock

namespace Block

def span : Block → Span
  | .types b => b.span
  | .term b => b.span
  | .axm b => b.span
  | .thm b => b.span

def render : Block → String
  | .types b => "type " ++ " ".intercalate (b.names.map (·.text))
  | .term b =>
    let params := ", ".intercalate (b.params.map Param.render)
    "term " ++ b.type.text ++ " " ++ b.name.text ++
      (if b.params.isEmpty then "" else "(" ++ params ++ ")") ++
      " \x7b" ++ " ".intercalate (b.content.map (·.text)) ++ "\x7d"
  | .axm b => "axiom " ++ b.render
  | .thm b =>
    "thm " ++ b.render ++ " = \x7b" ++ String.join (b.proof.map ("\n  " ++ ·.render)) ++ "\n\x7d"

end Block

end Sequitur
