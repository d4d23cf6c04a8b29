import Sequitur.Fault
import Sequitur.Text.Position

/-!
Tokens of a source text. The scanner tells five kinds apart; reading blocks and elaborating them
refine words into the kind of name they turn out to be.
-/

namespace Sequitur

inductive Keyword where
  | typeDecl
  | termDecl
  | axiomDecl
  | thmDecl
  | target
  | assume
  | distinct
deriving DecidableEq, Repr, Inhabited

namespace Keyword

def text : Keyword → String
  | .typeDecl => "type"
  | .termDecl => "term"
  | .axiomDecl => "axiom"
  | .thmDecl => "thm"
  | .target => "|-"
  | .assume => "-|"
  | .distinct => "diff"

def all : List Keyword :=
  [.typeDecl, .termDecl, .axiomDecl, .thmDecl, .target, .assume, .distinct]

def ofText? (s : String) : Option Keyword :=
  all.find? (·.text == s)

/-- The four keywords that open a block. -/
def startsBlock : Keyword → Bool
  | .typeDecl | .termDecl | .axiomDecl | .thmDecl => true
  | _ => false

/-- The three keywords that open a statement of a rule's body. -/
def startsStatement (k : Keyword) : Bool := !k.startsBlock

theorem ofText?_text (k : Keyword) : ofText? k.text = some k := by
  cases k <;> decide

end Keyword

namespace Token

inductive Kind where
  | keyword
  | word
  | comment
  | separator
  /-- Blanks and line ends. -/
  | blank
  | typeName
  | argName
  | termName
  | constName
  | axiomName
  | thmName
  /-- A name that refers to no declaration. -/
  | unresolved
deriving DecidableEq, Repr, Inhabited

/-- Words, refined or not. -/
def Kind.isName : Kind → Bool
  | .keyword | .comment | .separator | .blank => false
  | _ => true

/-- A token's index in its stream, with its text and span. A hole's name is referred to in the same
way, with the index of the token it stems from. -/
structure Ref where
  index : Nat := 0
  text : String
  span : Span := {}
deriving DecidableEq, Repr, Inhabited

end Token

structure Token where
  kind : Token.Kind
  text : String
  span : Span
  /-- The first fault found at this token. -/
  fault : Option Fault := none
  /-- Text an editor shows beside the token. -/
  comment : Option String := none
deriving DecidableEq, Repr, Inhabited

namespace Token

def ref (t : Token) (i : Nat) : Ref := ⟨i, t.text, t.span⟩

end Token

/-- A token that means something, not a blank or a comment, with its index in the stream. -/
structure Lexeme where
  kind : Token.Kind
  ref : Token.Ref
deriving DecidableEq, Repr, Inhabited

namespace Lexeme

/-- The lexemes of a token stream, in order. -/
def ofTokens (tokens : List Token) : List Lexeme :=
  tokens.zipIdx.filterMap fun (t, i) =>
    match t.kind with
    | .blank | .comment => none
    | kind => some ⟨kind, t.ref i⟩

def isWord (l : Lexeme) : Bool := l.kind == .word

def isSeparator (l : Lexeme) (c : Char) : Bool :=
  l.kind == .separator && l.ref.text.toList.head? == some c

def keyword? (l : Lexeme) : Option Keyword :=
  if l.kind = .keyword then Keyword.ofText? l.ref.text else none

def span (l : Lexeme) : Span := l.ref.span

end Lexeme

end Sequitur
