import Sequitur.Decl

/-!
Printing of declarations. The source form spells terms by their keys and can be read again. The
display form spells them by their texts and leaves proofs out.
-/

namespace Sequitur

inductive Form where
  | source
  | display
deriving DecidableEq, Repr

def Term.render : Form → Term → String
  | .source => Term.key
  | .display => Term.text

namespace TermDecl

def render (d : TermDecl) : String :=
  "term " ++ d.type.text ++ " " ++ d.name.text ++
    (if d.params.isEmpty then "" else Param.renderList d.params) ++
    " \x7b" ++ d.template.render (d.params.map (·.name.text)) ++ "\x7d"

end TermDecl

namespace Rule

def renderGroup (group : List String) : String := " (" ++ ", ".intercalate group ++ ")"

def render (form : Form) (r : Rule) : String :=
  r.name.text ++ Param.renderList r.params ++ " \x7b\n" ++
    String.join (r.targets.map fun t => "  |- " ++ t.render form ++ "\n") ++
    String.join (r.assumptions.map fun t => "  -| " ++ t.render form ++ "\n") ++
    (if r.groups.isEmpty then "" else "  diff" ++ String.join (r.groups.map renderGroup) ++ "\n") ++
    "\x7d"

end Rule

namespace Step

/-- In display form only the first argument is spelled by its text. -/
def render (form : Form) (s : Step) : String :=
  match s.args with
  | [] => s.head.text
  | t :: ts => s.head.text ++ "(" ++ ", ".intercalate (t.render form :: Term.keys ts) ++ ")"

end Step

namespace Decl

def render (form : Form) : Decl → String
  | .type d => "type " ++ d.name.text
  | .term d => d.render
  | .axm r => "axiom " ++ r.render form
  | .thm t =>
    match form with
    | .source =>
      "thm " ++ t.rule.render .source ++ " = \x7b" ++
        String.join (t.proof.map fun s => "\n  " ++ s.render .source) ++ "\n\x7d"
    | .display => "thm " ++ t.rule.render .display

end Decl

end Sequitur
