import Sequitur.Token

/-!
Scanning. A text is cut into pieces, each the longest one that starts where the last ended, and no
character is dropped: a line end, a run of blanks, a separator, a comment or a word. A word runs up
to the next boundary character or comment. Scanning never fails.

Main statements: the pieces of a text are nonempty (`ne_nil_of_mem_pieces`), and the texts of its
tokens join up to it again (`join_text_scan`).
-/

namespace Sequitur.Token

/-- Blanks that do not end a line, the byte order mark among them. -/
def isSpace (c : Char) : Bool :=
  c == '\t' || c == '\u000b' || c == '\u000c' || c == '\r' || c == ' ' || c == '\u00a0' ||
  c == '\u1680' || ('\u2000' ≤ c && c ≤ '\u200a') || c == '\u202f' || c == '\u205f' ||
  c == '\u3000' || c == '\ufeff'

def isSeparatorChar (c : Char) : Bool :=
  c == '(' || c == ')' || c == '{' || c == '}' || c == ',' || c == '='

/-- Characters that no word holds. -/
def isBoundary (c : Char) : Bool :=
  isNewline c || isSpace c || isSeparatorChar c

/-- A line comment also stops before a carriage return. -/
def endsLineComment (c : Char) : Bool := isNewline c || c == '\r'

def startsComment : List Char → Bool
  | '/' :: '/' :: _ | '/' :: '*' :: _ => true
  | _ => false

/-- The part of a text before the first boundary character or comment, and the rest. -/
def splitWord : List Char → List Char × List Char
  | [] => ([], [])
  | c :: cs =>
    if isBoundary c || startsComment (c :: cs) then ([], c :: cs)
    else
      let (word, rest) := splitWord cs
      (c :: word, rest)

/-- The part of a text up to the first `*/`, which it includes, and the rest. -/
def splitBlockComment : List Char → List Char × List Char
  | [] => ([], [])
  | '*' :: '/' :: cs => (['*', '/'], cs)
  | c :: cs =>
    let (body, rest) := splitBlockComment cs
    (c :: body, rest)

/-- A piece of text and the kind of token it makes; words are not yet told from keywords. -/
structure Piece where
  kind : Kind
  chars : List Char
deriving DecidableEq, Repr

/-- The longest piece at the start of `c :: cs`, and what comes after it. -/
def firstPiece (c : Char) (cs : List Char) : Piece × List Char :=
  if isNewline c then (⟨.blank, [c]⟩, cs)
  else if isSpace c then (⟨.blank, c :: cs.takeWhile isSpace⟩, cs.dropWhile isSpace)
  else if isSeparatorChar c then (⟨.separator, [c]⟩, cs)
  else
    match c, cs with
    | '/', '/' :: ds =>
      (⟨.comment, '/' :: '/' :: ds.takeWhile (!endsLineComment ·)⟩, ds.dropWhile (!endsLineComment ·))
    | '/', '*' :: ds =>
      let (body, rest) := splitBlockComment ds
      (⟨.comment, '/' :: '*' :: body⟩, rest)
    | c, cs =>
      let (word, rest) := splitWord cs
      (⟨.word, c :: word⟩, rest)

theorem splitWord_append (cs : List Char) : (splitWord cs).1 ++ (splitWord cs).2 = cs := by
  induction cs with
  | nil => rfl
  | cons c cs ih => simp only [splitWord]; split <;> simp [ih]

theorem splitBlockComment_append (cs : List Char) :
    (splitBlockComment cs).1 ++ (splitBlockComment cs).2 = cs := by
  fun_induction splitBlockComment cs with
  | case1 => rfl
  | case2 cs => rfl
  | case3 c cs _ body rest h ih => rw [h] at ih; exact congrArg (c :: ·) ih

theorem firstPiece_append (c : Char) (cs : List Char) :
    (firstPiece c cs).1.chars ++ (firstPiece c cs).2 = c :: cs := by
  unfold firstPiece
  split
  · simp
  split
  · simp
  split
  · simp
  split
  · simp
  · simp [splitBlockComment_append]
  · simp [splitWord_append]

theorem firstPiece_ne_nil (c : Char) (cs : List Char) : (firstPiece c cs).1.chars ≠ [] := by
  unfold firstPiece
  repeat' split
  all_goals simp

theorem length_firstPiece_snd (c : Char) (cs : List Char) :
    (firstPiece c cs).2.length < (c :: cs).length := by
  have h := congrArg List.length (firstPiece_append c cs)
  have := List.length_pos_iff.2 (firstPiece_ne_nil c cs)
  rw [List.length_append] at h
  omega

def pieces : List Char → List Piece
  | [] => []
  | c :: cs => (firstPiece c cs).1 :: pieces (firstPiece c cs).2
termination_by cs => cs.length
decreasing_by exact length_firstPiece_snd c cs

theorem flatten_pieces (cs : List Char) : (pieces cs).flatMap (·.chars) = cs := by
  fun_induction pieces cs with
  | case1 => rfl
  | case2 c cs ih => rw [List.flatMap_cons, ih, firstPiece_append]

theorem ne_nil_of_mem_pieces {cs : List Char} {p : Piece} (h : p ∈ pieces cs) : p.chars ≠ [] := by
  fun_induction pieces cs with
  | case1 => simp at h
  | case2 c cs ih =>
    rcases List.mem_cons.1 h with rfl | h
    · exact firstPiece_ne_nil c cs
    · exact ih h

/-- Words that spell a keyword are keywords. -/
def Piece.tokenKind (p : Piece) : Kind :=
  if p.kind = .word ∧ (Keyword.ofText? (String.ofList p.chars)).isSome then .keyword else p.kind

/-- The tokens of pieces that stand one after another from a place on. -/
def place (start : Position) : List Piece → List Token
  | [] => []
  | p :: ps =>
    let stop := start.advanceAll p.chars
    { kind := p.tokenKind, text := String.ofList p.chars, span := ⟨start, stop⟩ } :: place stop ps

theorem flatMap_text_place (start : Position) (ps : List Piece) :
    (place start ps).flatMap (·.text.toList) = ps.flatMap (·.chars) := by
  induction ps generalizing start with
  | nil => rfl
  | cons p ps ih => rw [place, List.flatMap_cons, List.flatMap_cons, ih, String.toList_ofList]

/-- The tokens of a text. -/
def scan (text : String) : List Token :=
  place {} (pieces text.toList)

/-- No character is dropped, added or moved. -/
theorem join_text_scan (text : String) : String.join ((scan text).map (·.text)) = text := by
  rw [← String.toList_inj, String.toList_join, List.flatMap_map]
  exact (flatMap_text_place _ _).trans (flatten_pieces _)

end Sequitur.Token
