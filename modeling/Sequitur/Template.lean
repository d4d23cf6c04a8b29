import Sequitur.Text.Alphanumeric

/-!
Templates: how a term is written out. The form of a term declaration is cut into its parameters and
the literal text between them; a template writes a term out by putting the texts of its arguments in
the places of the parameters.

A word of the form that is a parameter stands for it as a whole. Any other word is cut into runs of
word characters and runs of other characters, and a run that is a parameter stands for it.
-/

namespace Sequitur

/-- A piece of a template. -/
inductive Fragment where
  | text (s : String)
  /-- The argument at a position. -/
  | arg (i : Nat)
deriving DecidableEq, Repr

/-- The text of one fragment; an argument that is not there leaves no text. -/
def Fragment.render (args : List String) : Fragment → String
  | .text s => s
  | .arg i => args.getD i ""

abbrev Template := List Fragment

namespace Template

/-- The longest runs of characters that are all word characters or all not. -/
def runs : List Char → List (List Char)
  | [] => []
  | c :: cs =>
    match runs cs with
    | (d :: run) :: rest =>
      if isWordChar c = isWordChar d then (c :: d :: run) :: rest else [c] :: (d :: run) :: rest
    | rest => [c] :: rest

/-- The pieces of a word of a form. -/
def pieces (params : List String) (word : String) : List String :=
  if params.contains word then [word] else (runs word.toList).map String.ofList

/-- Puts a piece in front of a template; literal text joins the text after it. -/
def cons (params : List String) (piece : String) (t : Template) : Template :=
  match params.idxOf? piece with
  | some i => .arg i :: t
  | none =>
    match t with
    | .text s :: t => .text (piece ++ s) :: t
    | t => .text piece :: t

/-- The template of a form, given as its words, over parameters. -/
def ofForm (params : List String) (form : List String) : Template :=
  (form.flatMap (pieces params)).foldr (cons params) []

def render (t : Template) (args : List String) : String :=
  String.join (t.map (Fragment.render args))

end Template

end Sequitur
