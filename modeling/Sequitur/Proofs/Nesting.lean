import Mathlib.Data.List.Sort
import Sequitur.Proofs.Places
import Sequitur.Proofs.Rereading

/-!
# How expressions nest

Whatever lexemes of a text expressions are read from, balanced or not, every word among them is the head
of one expression or of a call that is never closed, the faults are those of the lexemes without a role,
and an expression spans from its head to the parenthesis that closes its call, around its arguments
(`Expr.accounts_readAll`).

Which parenthesis closes a call is told by counting how many calls are open (`Expr.openCalls`), without
the stack of the reader. The invariant `Expr.Reached` relates the stack to the lexemes before: it has one
open call for each that is counted, and what is on it is laid out in the order of the text, before what
is still to be read.
-/

namespace Sequitur

open Noted

/-- The diagnostic of a fault at a token. -/
def Fault.at (f : Fault) (r : Token.Ref) : Diagnostic := ⟨f, r.index, r.span⟩

namespace Expr

/-! ### Counting calls -/

/-- One lexeme more: how many calls are open, and whether it is a word. -/
def countCall (state : Nat × Bool) (l : Lexeme) : Nat × Bool :=
  (if l.isSeparator ')' then state.1 - 1
    else if l.isSeparator '(' && state.2 then state.1 + 1
    else state.1, l.isWord)

/-- How many calls are open after some lexemes. -/
def openCalls (ls : List Lexeme) : Nat := (ls.foldl countCall (0, false)).1

/-- Whether the last of some lexemes is a word, so that a parenthesis after it opens a call. -/
def endsWithWord (ls : List Lexeme) : Bool := ls.getLast?.any (·.isWord)

section

variable {before : List Lexeme} {l : Lexeme}

theorem snd_foldl_countCall (ls : List Lexeme) : (ls.foldl countCall (0, false)).2 = endsWithWord ls := by
  rcases List.eq_nil_or_concat ls with rfl | ⟨before, l, rfl⟩
  · rfl
  · simp [endsWithWord, countCall]

theorem openCalls_concat (before : List Lexeme) (l : Lexeme) :
    openCalls (before ++ [l]) = if l.isSeparator ')' then openCalls before - 1
      else if l.isSeparator '(' && endsWithWord before then openCalls before + 1
      else openCalls before := by
  rw [openCalls, List.foldl_append, ← snd_foldl_countCall]
  rfl

@[simp] theorem endsWithWord_concat (before : List Lexeme) (l : Lexeme) :
    endsWithWord (before ++ [l]) = l.isWord := by
  simp [endsWithWord]

theorem isSeparator_of_isWord (h : l.isWord = true) (c : Char) : l.isSeparator c = false := by
  simp only [Lexeme.isWord, beq_iff_eq] at h
  simp [Lexeme.isSeparator, h]

theorem isWord_of_isSeparator {c : Char} (h : l.isSeparator c = true) : l.isWord = false :=
  Bool.eq_false_iff.2 fun hw => by simp [isSeparator_of_isWord hw] at h

theorem isSeparator_unique {c d : Char} (h : l.isSeparator c = true) (hd : d ≠ c) : l.isSeparator d = false := by
  simp only [Lexeme.isSeparator, Bool.and_eq_true, beq_iff_eq] at h
  simp [Lexeme.isSeparator, h.2, hd.symm]

theorem openCalls_word (h : l.isWord = true) : openCalls (before ++ [l]) = openCalls before := by
  rw [openCalls_concat, isSeparator_of_isWord h, isSeparator_of_isWord h]
  rfl

theorem openCalls_open (before : List Lexeme) (hw : l.isWord = true) {paren : Lexeme}
    (hp : paren.isSeparator '(' = true) :
    openCalls (before ++ [l] ++ [paren]) = openCalls before + 1 := by
  rw [openCalls_concat, isSeparator_unique hp (by decide), hp, endsWithWord_concat, hw, openCalls_word hw]
  rfl

theorem openCalls_close (h : l.isSeparator ')' = true) : openCalls (before ++ [l]) = openCalls before - 1 := by
  rw [openCalls_concat, if_pos h]

/-- A lexeme without a role after others: a closing parenthesis while no call is open, or what is neither
a word, nor a comma, nor an opening parenthesis right after a word. -/
def isStray (before : List Lexeme) (l : Lexeme) : Bool :=
  if l.isSeparator ')' then openCalls before == 0
  else !(l.isWord || l.isSeparator ',' || l.isSeparator '(' && endsWithWord before)

/-- The lexemes without a role, given those before. -/
def strays (before : List Lexeme) : List Lexeme → List Lexeme
  | [] => []
  | l :: ls => if isStray before l then l :: strays (before ++ [l]) ls else strays (before ++ [l]) ls

theorem openCalls_skip (hp : ¬l.isSeparator ')' = true) (ho : (l.isSeparator '(' && endsWithWord before) = false) :
    openCalls (before ++ [l]) = openCalls before := by
  rw [openCalls_concat, if_neg hp, ho]
  rfl

end

/-! ### Where expressions stand -/

/-- The call that `head` opens with `paren` after the lexemes `before` is open over the lexemes `inner`. -/
structure StaysOpen (before : List Lexeme) (head paren : Lexeme) (inner : List Lexeme) : Prop where
  word : head.isWord = true
  opens : paren.isSeparator '(' = true
  more : ∀ ms, ms <+: inner → openCalls before < openCalls (before ++ head :: paren :: ms)

/-- `close` is the closing parenthesis of the call that `head` opens: the first lexeme after which no more
calls are open than before `head`. -/
def Closes (ls : List Lexeme) (head close : Lexeme) : Prop :=
  ∃ before paren inner after, ls = before ++ head :: paren :: (inner ++ close :: after) ∧
    StaysOpen before head paren inner ∧ close.isSeparator ')' = true ∧
    openCalls (before ++ head :: paren :: (inner ++ [close])) = openCalls before

/-- An expression spans from its head to its closing parenthesis, or it is a word that opens no call. It is
around its arguments, which stand one after the other. -/
inductive LaidOut (ls : List Lexeme) : Expr → Prop where
  | leaf {before after : List Lexeme} {l : Lexeme} : ls = before ++ l :: after → l.isWord = true →
    NotCall after → LaidOut ls (leaf l.ref)
  | call {head close : Lexeme} {args : List Expr} : Closes ls head close →
    (∀ a ∈ args, (head.span.through close.span).Covers a.span) → Span.Ordered (args.map (·.span)) →
    (∀ a ∈ args, LaidOut ls a) → LaidOut ls ⟨head.ref, args, head.span.through close.span⟩

/-! ### The stack of the reader -/

namespace Item

def isOpened : Item → Bool
  | .opened _ => true
  | .done _ => false

def span : Item → Span
  | .opened head => head.span
  | .done e => e.span

end Item

/-- How many calls are open on a stack. -/
def depth (stack : List Item) : Nat := stack.countP Item.isOpened

@[simp] theorem depth_opened (r : Token.Ref) (stack : List Item) : depth (.opened r :: stack) = depth stack + 1 :=
  List.countP_cons_of_pos rfl

@[simp] theorem depth_done (e : Expr) (stack : List Item) : depth (.done e :: stack) = depth stack :=
  List.countP_cons_of_neg nofun

theorem depth_dones (es : List Expr) (stack : List Item) : depth (es.map .done ++ stack) = depth stack := by
  induction es with
  | nil => rfl
  | cons e es ih => rw [List.map_cons, List.cons_append, depth_done, ih]

/-- A call of the head `r` was opened among the lexemes `before` when `n` calls were open, and is open
since. -/
def OpenSince (before : List Lexeme) (r : Token.Ref) (n : Nat) : Prop :=
  ∃ outer head paren inner, before = outer ++ head :: paren :: inner ∧ head.ref = r ∧
    StaysOpen outer head paren inner ∧ openCalls outer = n

/-- What is on a stack after the lexemes `before`: expressions that are laid out, and calls that are open
since as many calls were open as are below them. -/
def Holds (ls before : List Lexeme) : List Item → Prop
  | [] => True
  | .done e :: stack => e.LaidOut ls ∧ Holds ls before stack
  | .opened r :: stack => OpenSince before r (depth stack) ∧ Holds ls before stack

section

variable {ls before after : List Lexeme} {stack stack' : List Item} {l : Lexeme} {e : Expr}

theorem OpenSince.concat {r : Token.Ref} {n : Nat} (h : OpenSince before r n)
    (hn : n < openCalls (before ++ [l])) : OpenSince (before ++ [l]) r n := by
  obtain ⟨outer, head, paren, inner, rfl, hr, hopen, rfl⟩ := h
  refine ⟨outer, head, paren, inner ++ [l], by simp, hr, ⟨hopen.word, hopen.opens, fun ms hms => ?_⟩, rfl⟩
  rcases List.prefix_concat_iff.1 hms with rfl | hms
  · simpa using hn
  · exact hopen.more ms hms

/-- Calls on the stack stay open as long as no fewer calls are open. -/
theorem Holds.concat (h : Holds ls before stack) (hn : depth stack ≤ openCalls (before ++ [l])) :
    Holds ls (before ++ [l]) stack := by
  induction stack with
  | nil => trivial
  | cons item stack ih =>
    cases item with
    | done e =>
      rw [depth_done] at hn
      exact ⟨h.1, ih h.2 hn⟩
    | opened r =>
      rw [depth_opened] at hn
      exact ⟨h.1.concat hn, ih h.2 (by omega)⟩

theorem holds_dones {es : List Expr} :
    Holds ls before (es.map .done ++ stack) ↔ (∀ e ∈ es, e.LaidOut ls) ∧ Holds ls before stack := by
  induction es with
  | nil => simp
  | cons e es ih =>
    rw [List.map_cons, List.cons_append, Holds, ih, List.forall_mem_cons, and_assoc]

/-- The call that is closed is the latest open one, and what is above it are its arguments. -/
theorem closeCall_eq_some {close : Token.Ref} {args : List Expr}
    (h : closeCall close stack args = some (e, stack')) :
    ∃ (es : List Expr) (head : Token.Ref), stack = es.reverse.map .done ++ .opened head :: stack' ∧
      e = ⟨head, es ++ args, head.span.through close.span⟩ := by
  induction stack generalizing args with
  | nil => cases h
  | cons item stack ih =>
    cases item with
    | done a =>
      obtain ⟨es, head, rfl, rfl⟩ := ih h
      exact ⟨es ++ [a], head, by simp, by simp⟩
    | opened head =>
      cases h
      exact ⟨[], head, rfl, rfl⟩

theorem closeCall_eq_none {close : Token.Ref} {args : List Expr} (h : closeCall close stack args = none) :
    depth stack = 0 := by
  induction stack generalizing args with
  | nil => rfl
  | cons item stack ih =>
    cases item with
    | done a => exact (depth_done a stack).trans (ih h)
    | opened head => cases h

/-- The reader has worked off the lexemes `before` of `ls`, and `after` are left. -/
structure Reached (ls before : List Lexeme) (stack : List Item) (after : List Lexeme) : Prop where
  split : ls = before ++ after
  /-- A parenthesis after a word is worked off together with the word. -/
  fresh : endsWithWord before = true → NotCall after
  count : openCalls before = depth stack
  holds : Holds ls before stack
  ordered : Span.Ordered ((stack.map Item.span).reverse ++ after.map (·.span))

namespace Reached

theorem word (h : Reached ls before stack (l :: after)) (hw : l.isWord = true) (hafter : NotCall after) :
    Reached ls (before ++ [l]) (.done (leaf l.ref) :: stack) after where
  split := by simp [h.split]
  fresh _ := hafter
  count := by rw [openCalls_word hw, h.count, depth_done]
  holds := ⟨.leaf h.split hw hafter, h.holds.concat (by rw [openCalls_word hw, h.count])⟩
  ordered := by simpa [leaf, Item.span, Lexeme.span] using h.ordered

theorem call {paren : Lexeme} (h : Reached ls before stack (l :: paren :: after)) (hw : l.isWord = true)
    (hp : paren.isSeparator '(' = true) :
    Reached ls (before ++ [l] ++ [paren]) (.opened l.ref :: stack) after where
  split := by simp [h.split]
  fresh hend := by
    rw [endsWithWord_concat, isWord_of_isSeparator hp] at hend
    cases hend
  count := by rw [openCalls_open before hw hp, h.count, depth_opened]
  holds := by
    have hopen := openCalls_open before hw hp
    refine ⟨⟨before, l, paren, [], by simp, rfl, ⟨hw, hp, fun ms hms => ?_⟩, h.count⟩, ?_⟩
    · rw [List.append_assoc] at hopen
      rw [List.prefix_nil.1 hms]
      exact hopen ▸ Nat.lt_succ_self _
    · have hword := h.holds.concat (l := l) (by rw [openCalls_word hw, h.count])
      exact hword.concat (by rw [hopen, h.count]; omega)
  ordered := by
    refine h.ordered.sublist ?_
    simp [Item.span, Lexeme.span]

theorem close (h : Reached ls before stack (l :: after)) (hp : l.isSeparator ')' = true)
    (hc : closeCall l.ref stack [] = some (e, stack')) :
    Reached ls (before ++ [l]) (.done e :: stack') after := by
  obtain ⟨args, r, rfl, rfl⟩ := closeCall_eq_some hc
  rw [List.append_nil]
  have hcount : openCalls (before ++ [l]) = depth stack' := by
    rw [openCalls_close hp, h.count, depth_dones, depth_opened, Nat.add_sub_cancel]
  have hspans : Span.Ordered ((stack'.map Item.span).reverse ++
      r.span :: (args.map (·.span) ++ l.ref.span :: after.map (·.span))) := by
    have hmap : ((args.reverse.map Item.done ++ .opened r :: stack').map Item.span).reverse =
        (stack'.map Item.span).reverse ++ r.span :: args.map (·.span) := by
      simp [Function.comp_def, Item.span]
    have hall := h.ordered
    rwa [hmap, List.append_assoc] at hall
  obtain ⟨hargs, ⟨outer, head, paren, inner, rfl, rfl, hopen, houter⟩, hstack⟩ := holds_dones.1 h.holds
  have hcloses : Closes ls head l := by
    refine ⟨outer, paren, inner, after, by simp [h.split], hopen, hp, ?_⟩
    simpa [houter] using hcount
  -- the arguments stand between the head and the closing parenthesis
  have hinside : Span.Ordered (head.ref.span :: (args.map (·.span) ++ [l.ref.span])) := by
    refine hspans.sublist (.trans ?_ (List.sublist_append_right _ _))
    exact .cons_cons _ ((List.Sublist.refl _).append (List.singleton_sublist.2 (List.mem_cons_self ..)))
  refine ⟨by simp [h.split], fun hend => ?_, by rw [hcount, depth_done], ⟨.call hcloses (fun a ha => ?_) ?_ ?_, ?_⟩,
    ?_⟩
  · rw [endsWithWord_concat, isWord_of_isSeparator hp] at hend
    cases hend
  · exact hinside.covers a.span (List.mem_map_of_mem ha)
  · exact hinside.sublist (((List.sublist_append_left _ _)).cons _)
  · exact fun a ha => hargs a (List.mem_reverse.2 ha)
  · exact hstack.concat hcount.ge
  · have hthrough := hspans.through
    simpa [Item.span] using hthrough

theorem skip (h : Reached ls before stack (l :: after)) (hw : ¬l.isWord = true)
    (hsame : openCalls (before ++ [l]) = openCalls before) : Reached ls (before ++ [l]) stack after where
  split := by simp [h.split]
  fresh hend := by
    rw [endsWithWord_concat] at hend
    exact absurd hend hw
  count := hsame.trans h.count
  holds := h.holds.concat (by rw [hsame, h.count])
  ordered := h.ordered.sublist ((List.Sublist.refl _).append (List.sublist_cons_self ..))

end Reached

/-! ### A run of the reader -/

theorem strays_of_isStray (h : isStray before l = true) :
    strays before (l :: after) = l :: strays (before ++ [l]) after := by
  rw [strays, if_pos h]

theorem strays_of_not_isStray (h : isStray before l = false) :
    strays before (l :: after) = strays (before ++ [l]) after := by
  rw [strays, h]
  rfl

theorem isStray_word (hw : l.isWord = true) : isStray before l = false := by
  simp [isStray, isSeparator_of_isWord hw, hw]

theorem isStray_open (hw : l.isWord = true) {paren : Lexeme} (hp : paren.isSeparator '(' = true) :
    isStray (before ++ [l]) paren = false := by
  simp [isStray, isSeparator_unique hp, hp, hw]

theorem isStray_close (hp : l.isSeparator ')' = true) : isStray before l = (openCalls before == 0) :=
  if_pos hp

/-- All lexemes are worked off, and those without a role are faults. -/
theorem reached_shift (h : Reached ls before stack after) :
    (shift stack after).Yields (Reached ls ls · []) ∧
      (shift stack after).notes.diagnostics = (strays before after).map (Fault.unexpectedToken.at ·.ref) := by
  induction stack, after using shift.induct generalizing before with
  | case1 stack =>
    have hls : ls = before := by simpa using h.split
    subst hls
    exact ⟨h, rfl⟩
  | case2 stack l hw =>
    have hdone := h.word hw (by simp [NotCall])
    have hls : ls = before ++ [l] := h.split
    rw [shift_word_singleton hw, strays_of_not_isStray (isStray_word hw)]
    rw [← hls] at hdone
    exact ⟨hdone, rfl⟩
  | case3 stack l hw next rest hp ih =>
    rw [shift_call hw hp, strays_of_not_isStray (isStray_word hw), strays_of_not_isStray (isStray_open hw hp)]
    exact ih (h.call hw hp)
  | case4 stack l hw next rest hp ih =>
    rw [shift_word hw hp, strays_of_not_isStray (isStray_word hw)]
    exact ih (h.word hw (notCall_cons (Bool.eq_false_iff.2 hp)))
  | case5 stack l rest hw hp e stack' hc ih =>
    have hopen : openCalls before ≠ 0 := by
      obtain ⟨args, r, hstack, -⟩ := closeCall_eq_some hc
      rw [h.count, hstack, depth_dones, depth_opened]
      omega
    rw [shift_close hw hp hc, strays_of_not_isStray (by simpa [isStray_close hp] using hopen)]
    obtain ⟨hyields, hnotes⟩ := ih (h.close hp hc)
    exact ⟨hyields, hnotes⟩
  | case6 stack l rest hw hp hc ih =>
    have hnone : openCalls before = 0 := h.count.trans (closeCall_eq_none hc)
    rw [shift_close_none hw hp hc, strays_of_isStray (by simp [isStray_close hp, hnone])]
    obtain ⟨hyields, hnotes⟩ := ih (h.skip hw (by rw [openCalls_close hp, hnone]))
    exact ⟨hyields, congrArg (Fault.unexpectedToken.at l.ref :: ·) hnotes⟩
  | case7 stack l rest hw hp hs ih =>
    rw [shift_comma hw hp hs, strays_of_not_isStray (by simp [isStray, hp, hs])]
    exact ih (h.skip hw (openCalls_skip hp (by simp [isSeparator_unique hs])))
  | case8 stack l rest hw hp hs ih =>
    have hfresh : (l.isSeparator '(' && endsWithWord before) = false := by
      cases hend : endsWithWord before with
      | false => simp
      | true => simp [h.fresh hend l rfl]
    rw [shift_unexpected hw hp hs, strays_of_isStray (by simp [isStray, hw, hp, hs, hfresh])]
    obtain ⟨hyields, hnotes⟩ := ih (h.skip hw (openCalls_skip hp hfresh))
    exact ⟨hyields, congrArg (Fault.unexpectedToken.at l.ref :: ·) hnotes⟩

/-! ### What is left on the stack -/

namespace Item

def expr? : Item → Option Expr
  | .opened _ => none
  | .done e => some e

def unclosed? : Item → Option Token.Ref
  | .opened r => some r
  | .done _ => none

end Item

theorem settle_eq (items : List Item) :
    (settle items).value = items.filterMap Item.expr? ∧
      (settle items).notes.diagnostics =
        (items.filterMap Item.unclosed?).map Fault.rightParenMissing.at := by
  induction items with
  | nil => exact ⟨rfl, rfl⟩
  | cons item items ih =>
    cases item with
    | done e =>
      refine ⟨congrArg (e :: ·) ih.1, ?_⟩
      show (settle items).notes.diagnostics ++ [] = _
      rw [List.append_nil, ih.2]
      rfl
    | opened r => exact ⟨ih.1, congrArg (Fault.rightParenMissing.at r :: ·) ih.2⟩

theorem Holds.laidOut (h : Holds ls before stack) (he : e ∈ stack.filterMap Item.expr?) : e.LaidOut ls := by
  induction stack with
  | nil => cases he
  | cons item stack ih =>
    cases item with
    | opened r => exact ih h.2 he
    | done a =>
      rcases List.mem_cons.1 he with rfl | he
      · exact h.1
      · exact ih h.2 he

theorem spans_exprs (items : List Item) :
    ((items.filterMap Item.expr?).map (·.span)).Sublist (items.map Item.span) := by
  induction items with
  | nil => exact .slnil
  | cons item items ih =>
    cases item with
    | opened r => exact ih.cons _
    | done e => exact ih.cons_cons _

theorem heads_exprs (items : List Item) :
    (headsAll (items.filterMap Item.expr?)).Sublist (items.flatMap Item.heads) := by
  induction items with
  | nil => exact .slnil
  | cons item items ih =>
    cases item with
    | opened r => exact ih.cons r
    | done e => exact (List.Sublist.refl e.heads).append ih

/-- The heads of expressions and the heads of calls that are not closed are all heads. -/
theorem perm_heads (items : List Item) :
    (headsAll (items.filterMap Item.expr?) ++ items.filterMap Item.unclosed?).Perm
      (items.flatMap Item.heads) := by
  induction items with
  | nil => exact .nil
  | cons item items ih =>
    cases item with
    | opened r => exact List.perm_middle.trans (ih.cons r)
    | done e =>
      show (headsAll (e :: items.filterMap Item.expr?) ++ items.filterMap Item.unclosed?).Perm
        (e.heads ++ items.flatMap Item.heads)
      rw [headsAll, List.append_assoc]
      exact ih.append_left e.heads

/-- The reader works off all lexemes and gives what is then complete. -/
theorem reached_readAll (h : Span.Ordered (ls.map (·.span))) :
    ∃ stack, Reached ls ls stack [] ∧ (readAll ls).value = stack.reverse.filterMap Item.expr? := by
  have hstart : Reached ls [] [] ls := ⟨rfl, nofun, rfl, trivial, h⟩
  exact ⟨(shift [] ls).value, (reached_shift hstart).1, (settle_eq _).1⟩

/-- Expressions stand one after the other, as the lexemes do. -/
theorem ordered_readAll (h : Span.Ordered (ls.map (·.span))) : Span.Ordered ((readAll ls).value.map (·.span)) := by
  obtain ⟨stack, hreached, hvalue⟩ := reached_readAll h
  have hordered := hreached.ordered
  rw [List.map_nil, List.append_nil, ← List.map_reverse] at hordered
  rw [hvalue]
  exact hordered.sublist (spans_exprs _)

theorem laidOut_readAll (h : Span.Ordered (ls.map (·.span))) (he : e ∈ (readAll ls).value) : e.LaidOut ls := by
  obtain ⟨stack, hreached, hvalue⟩ := reached_readAll h
  rw [hvalue, List.filterMap_reverse] at he
  exact hreached.holds.laidOut (List.mem_reverse.1 he)

theorem stackHeads_eq (stack : List Item) : stackHeads stack = stack.reverse.flatMap Item.heads := by
  induction stack with
  | nil => rfl
  | cons item stack ih => rw [stackHeads, ih, List.reverse_cons, List.flatMap_append, List.flatMap_singleton]

end

/-- Tokens that are in order once they are put in order. -/
theorem mergeSort_index_eq {rs qs : List Token.Ref} (h : rs.Perm qs)
    (hq : qs.Pairwise fun r q => r.index < q.index) :
    rs.mergeSort (fun r q => decide (r.index ≤ q.index)) = qs := by
  have hnodup : (qs.map (·.index)).Nodup := List.pairwise_map.2 (hq.imp fun h => Nat.ne_of_lt h)
  have hperm := (List.mergeSort_perm rs fun r q => decide (r.index ≤ q.index)).trans h
  refine hperm.eq_of_pairwise (fun r q hr hq hle hge => ?_) ?_ (hq.imp fun h => decide_eq_true (Nat.le_of_lt h))
  · have hle := of_decide_eq_true hle
    have hge := of_decide_eq_true hge
    exact List.inj_on_of_nodup_map hnodup (hperm.subset hr) hq (Nat.le_antisymm hle hge)
  · refine List.pairwise_mergeSort (fun r q s hrq hqs => ?_) (fun r q => ?_) rs
    · simp only [decide_eq_true_eq] at *
      omega
    · simp only [Bool.or_eq_true, decide_eq_true_eq]
      omega

/-- What reading expressions off lexemes comes to, if `unclosed` are the heads of the calls that are never
closed. -/
structure Accounts (ls : List Lexeme) (unclosed : List Token.Ref) (read : Noted (List Expr)) : Prop where
  /-- In the order of tokens, all heads are the words. -/
  words : (headsAll read.value ++ unclosed).mergeSort (fun r q => decide (r.index ≤ q.index)) =
    (ls.filter (·.isWord)).map (·.ref)
  /-- The heads of an expression come in the order of tokens. -/
  inOrder : (headsAll read.value).Pairwise fun r q => r.index < q.index
  faults : read.notes.diagnostics = (strays [] ls).map (Fault.unexpectedToken.at ·.ref) ++
    unclosed.map Fault.rightParenMissing.at
  laidOut : ∀ e ∈ read.value, e.LaidOut ls
  ordered : Span.Ordered (read.value.map (·.span))

/-- Whatever lexemes of a text expressions are read from, no word is lost or comes twice, each lexeme
without a role is a fault, and the spans of expressions nest as the expressions do. -/
theorem accounts_readAll {text : String} {ls : List Lexeme}
    (h : ls.Sublist (Lexeme.ofTokens (Token.scan text))) :
    ∃ unclosed, Accounts ls unclosed (readAll ls) := by
  have hindex : ((ls.filter (·.isWord)).map (·.ref)).Pairwise fun r q => r.index < q.index := by
    rw [List.pairwise_map]
    exact (Lexeme.pairwise_index _).sublist (List.filter_sublist.trans h)
  have hspans : Span.Ordered (ls.map (·.span)) := (Lexeme.ordered_spans text).sublist (h.map _)
  have hstart : Reached ls [] [] ls := ⟨rfl, nofun, rfl, trivial, hspans⟩
  obtain ⟨hreached, hnotes⟩ := reached_shift hstart
  have hreached : Reached ls ls (shift [] ls).value [] := hreached
  -- what is left on the stack, bottom first
  generalize hitems : (shift [] ls).value.reverse = items
  have hheads : items.flatMap Item.heads = (ls.filter (·.isWord)).map (·.ref) := by
    rw [← hitems, ← stackHeads_eq]
    exact yields_shift [] ls
  obtain ⟨hexprs, hfaults⟩ := settle_eq items
  have hvalue : (readAll ls).value = items.filterMap Item.expr? := by
    rw [← hexprs, ← hitems]
    rfl
  refine ⟨items.filterMap Item.unclosed?, ?_, ?_, ?_, fun e he => ?_, ordered_readAll hspans⟩
  · rw [hvalue]
    exact mergeSort_index_eq (hheads ▸ perm_heads items) hindex
  · rw [hvalue]
    exact (hheads ▸ hindex).sublist (heads_exprs items)
  · rw [← hfaults, ← hnotes, ← hitems]
    rfl
  · rw [hvalue, ← hitems, List.filterMap_reverse] at he
    exact hreached.holds.laidOut (List.mem_reverse.1 he)

/-- Calls with and without arguments, one that is never closed, and lexemes without a role. -/
def ragged : String := "f(a, g(), (x(b)) ) ) = h(c"

theorem accounts_ragged :
    (Lexeme.ofTokens (Token.scan ragged)).dropLast.Sublist (Lexeme.ofTokens (Token.scan ragged)) ∧
      (strays [] (Lexeme.ofTokens (Token.scan ragged)).dropLast).map (·.ref.text) = ["(", ")", ")", "="] ∧
      ∃ unclosed, Accounts (Lexeme.ofTokens (Token.scan ragged)).dropLast unclosed
        (readAll (Lexeme.ofTokens (Token.scan ragged)).dropLast) :=
  ⟨List.dropLast_sublist _, by decide +kernel, accounts_readAll (List.dropLast_sublist _)⟩

end Expr

end Sequitur
