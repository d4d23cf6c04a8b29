import Sequitur.Diagnostic

/-!
Expressions as written: a head, and arguments in parentheses. They are read with a stack of calls
that still wait for their closing parenthesis and expressions that are complete. A word with
`(` right after it opens a call, `)` closes the latest open one, any other word is an expression by
itself, and commas are cosmetic. Whatever else occurs is recorded as unexpected and skipped.
-/

namespace Sequitur

structure Expr where
  head : Token.Ref
  args : List Expr
  span : Span
deriving Repr, Inhabited

namespace Expr

/-- A word by itself. -/
def leaf (head : Token.Ref) : Expr := ⟨head, [], head.span⟩

mutual
def render : Expr → String
  | ⟨head, [], _⟩ => head.text
  | ⟨head, arg :: args, _⟩ => head.text ++ "(" ++ render arg ++ renderRest args ++ ")"
def renderRest : List Expr → String
  | [] => ""
  | arg :: args => ", " ++ render arg ++ renderRest args
end

/-- What the reader's stack holds. -/
inductive Item where
  /-- A call that waits for its closing parenthesis. -/
  | opened (head : Token.Ref)
  | done (expr : Expr)
deriving Repr

/-- Takes the arguments of the latest open call off the stack, top first, and completes the call at
the closing parenthesis `close`. `none` if no call is open. -/
def closeCall (close : Token.Ref) : List Item → List Expr → Option (Expr × List Item)
  | [], _ => none
  | .done e :: stack, args => closeCall close stack (e :: args)
  | .opened head :: stack, args => some (⟨head, args, head.span.through close.span⟩, stack)

/-- Works off lexemes on a stack, top first. -/
def shift : List Item → List Lexeme → Noted (List Item)
  | stack, [] => pure stack
  | stack, l :: ls =>
    if l.isWord then
      match ls with
      | [] => pure (.done (leaf l.ref) :: stack)
      | next :: rest =>
        if next.isSeparator '(' then shift (.opened l.ref :: stack) rest
        else shift (.done (leaf l.ref) :: stack) (next :: rest)
    else if l.isSeparator ')' then
      match closeCall l.ref stack [] with
      | some (e, stack) => do
        Noted.refine e.head (if e.args.isEmpty then .constName else .termName)
        shift (.done e :: stack) ls
      | none => do
        Noted.fault .unexpectedToken l.ref
        shift stack ls
    else if l.isSeparator ',' then shift stack ls
    else do
      Noted.fault .unexpectedToken l.ref
      shift stack ls

section

variable {stack stack' : List Item} {l next : Lexeme} {ls : List Lexeme}

theorem shift_word_singleton (hw : l.isWord = true) : shift stack [l] = pure (.done (leaf l.ref) :: stack) := by
  rw [shift.eq_def]
  exact if_pos hw

theorem shift_call (hw : l.isWord = true) (hp : next.isSeparator '(' = true) :
    shift stack (l :: next :: ls) = shift (.opened l.ref :: stack) ls := by
  rw [shift.eq_def]
  exact (if_pos hw).trans (if_pos hp)

theorem shift_word (hw : l.isWord = true) (hp : ¬next.isSeparator '(' = true) :
    shift stack (l :: next :: ls) = shift (.done (leaf l.ref) :: stack) (next :: ls) := by
  rw [shift.eq_def]
  exact (if_pos hw).trans (if_neg hp)

theorem shift_close {e : Expr} (hw : ¬l.isWord = true) (hp : l.isSeparator ')' = true)
    (hc : closeCall l.ref stack [] = some (e, stack')) :
    shift stack (l :: ls) =
      Noted.refine e.head (if e.args.isEmpty then .constName else .termName) >>= fun _ =>
        shift (.done e :: stack') ls := by
  rw [shift.eq_def]
  simp only [hw, hp, hc, if_true, Bool.false_eq_true, if_false]

theorem shift_close_none (hw : ¬l.isWord = true) (hp : l.isSeparator ')' = true)
    (hc : closeCall l.ref stack [] = none) :
    shift stack (l :: ls) = Noted.fault .unexpectedToken l.ref >>= fun _ => shift stack ls := by
  rw [shift.eq_def]
  simp only [hw, hp, hc, if_true, Bool.false_eq_true, if_false]

theorem shift_comma (hw : ¬l.isWord = true) (hp : ¬l.isSeparator ')' = true)
    (hs : l.isSeparator ',' = true) : shift stack (l :: ls) = shift stack ls := by
  rw [shift.eq_def]
  simp only [hw, hp, hs, if_true, Bool.false_eq_true, if_false]

theorem shift_unexpected (hw : ¬l.isWord = true) (hp : ¬l.isSeparator ')' = true)
    (hs : ¬l.isSeparator ',' = true) :
    shift stack (l :: ls) = Noted.fault .unexpectedToken l.ref >>= fun _ => shift stack ls := by
  rw [shift.eq_def]
  simp only [hw, hp, hs, Bool.false_eq_true, if_false]

end

/-- The complete expressions of a stack, bottom first; calls still open are faults. -/
def settle : List Item → Noted (List Expr)
  | [] => pure []
  | .done e :: items => return e :: (← settle items)
  | .opened head :: items => do
    Noted.fault .rightParenMissing head
    settle items

/-- The expressions that lexemes spell, in order. -/
def readAll (ls : List Lexeme) : Noted (List Expr) := do
  settle (← shift [] ls).reverse

end Expr

end Sequitur
