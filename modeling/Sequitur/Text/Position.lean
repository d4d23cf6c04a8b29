/-!
Places in a text. Lines, characters and offsets count Unicode scalar values from zero. An editor
sends a line and a character only, so every lookup compares places by those two and ignores the
offset.
-/

namespace Sequitur

/-- Line feed, line separator and paragraph separator end a line; carriage return does not. -/
def isNewline (c : Char) : Bool :=
  c == '\n' || c == '\u2028' || c == '\u2029'

structure Position where
  line : Nat := 0
  character : Nat := 0
  /-- Characters before this place, over all lines. -/
  offset : Nat := 0
deriving DecidableEq, Repr, Inhabited

namespace Position

/-- The place just past `c`. -/
def advance (p : Position) (c : Char) : Position :=
  if isNewline c then ⟨p.line + 1, 0, p.offset + 1⟩ else ⟨p.line, p.character + 1, p.offset + 1⟩

/-- The place past a whole text. -/
def advanceAll (p : Position) (cs : List Char) : Position :=
  cs.foldl advance p

/-- Order by line and character. -/
def comparePlace (p q : Position) : Ordering :=
  (compare p.line q.line).then (compare p.character q.character)

/-- Order by line, character and offset. -/
def compareFull (p q : Position) : Ordering :=
  (p.comparePlace q).then (compare p.offset q.offset)

/-- `p` is at or before `q`, by line and character. -/
def placeLE (p q : Position) : Bool :=
  p.comparePlace q != .gt

/-- `p` is before `q`, by line and character. -/
def placeLT (p q : Position) : Bool :=
  p.comparePlace q == .lt

/-- Counted from one, as a reader counts. -/
def render (p : Position) : String :=
  toString (p.line + 1) ++ ":" ++ toString (p.character + 1)

@[simp] theorem advanceAll_nil (p : Position) : p.advanceAll [] = p := rfl

@[simp] theorem advanceAll_cons (p : Position) (c : Char) (cs : List Char) :
    p.advanceAll (c :: cs) = (p.advance c).advanceAll cs := rfl

theorem advanceAll_append (p : Position) (cs ds : List Char) :
    p.advanceAll (cs ++ ds) = (p.advanceAll cs).advanceAll ds := by
  simp [advanceAll]

@[simp] theorem offset_advance (p : Position) (c : Char) : (p.advance c).offset = p.offset + 1 := by
  unfold advance; split <;> rfl

theorem offset_advanceAll (p : Position) (cs : List Char) :
    (p.advanceAll cs).offset = p.offset + cs.length := by
  induction cs generalizing p with
  | nil => rfl
  | cons c cs ih => simp [ih]; omega

end Position

/-- The places from `start` up to, not including, `stop`. -/
structure Span where
  start : Position := {}
  stop : Position := {}
deriving DecidableEq, Repr, Inhabited

namespace Span

def empty (p : Position) : Span := ⟨p, p⟩

def isEmpty (s : Span) : Bool := s.start == s.stop

def contains (s : Span) (p : Position) : Bool :=
  s.start.placeLE p && p.placeLT s.stop

/-- Where a span lies as seen from a place: before it, around it or after it. -/
def locate (s : Span) (p : Position) : Ordering :=
  if s.contains p then .eq else if s.stop.placeLE p then .lt else .gt

/-- From the start of one span to the end of another. -/
def through (s t : Span) : Span := ⟨s.start, t.stop⟩

def render (s : Span) : String := s.start.render ++ "-" ++ s.stop.render

end Span

end Sequitur
