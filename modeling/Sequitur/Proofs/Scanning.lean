import Sequitur.Token.Scan

/-!
# Pieces of joined texts

Where a piece ends depends on the few characters after it only (`Piece.EndsBefore`). So the pieces of
two texts one after the other are those of the first and those of the second, if the last piece of the
first ends where the second starts (`pieces_append`). Before a line end every piece does, except a
block comment that is still open (`endsBefore_newline`).
-/

namespace Sequitur.Token

/-- A block comment without its end. -/
def isOpenComment : List Char → Bool
  | '/' :: '*' :: body => !(['*', '/'].isSuffixOf body)
  | _ => false

/-- A piece ends before a text, whatever comes after the first characters of that. -/
def Piece.EndsBefore (p : Piece) (ds : List Char) : Prop :=
  match p.kind with
  | .word => ∀ d ∈ ds.head?, isBoundary d = true
  | .blank => (∃ c ∈ p.chars, isNewline c = true) ∨ ∀ d ∈ ds.head?, isSpace d = false
  | .comment => isOpenComment p.chars = false ∧
      (['/', '*'] <+: p.chars ∨ ∀ d ∈ ds.head?, endsLineComment d = true)
  | _ => True

/-! ### One piece -/

theorem not_isSpace_of_isNewline {c : Char} (h : isNewline c = true) : ¬isSpace c = true := by
  simp only [isNewline, Bool.or_eq_true, beq_iff_eq, or_assoc] at h
  rcases h with rfl | rfl | rfl <;> decide

theorem span_append {α : Type} {p : α → Bool} {cs ds : List α}
    (h : cs.dropWhile p ≠ [] ∨ ∀ d ∈ ds.head?, p d = false) :
    (cs ++ ds).takeWhile p = cs.takeWhile p ∧ (cs ++ ds).dropWhile p = cs.dropWhile p ++ ds := by
  induction cs with
  | nil =>
    have hd := h.resolve_left (fun hne => hne rfl)
    cases ds with
    | nil => exact ⟨rfl, rfl⟩
    | cons d ds => simp [hd d rfl]
  | cons c cs ih =>
    by_cases hc : p c = true
    · simp only [List.dropWhile_cons_of_pos hc] at h
      simp [hc, ih h]
    · simp [hc]

theorem splitBlockComment_eq_nil_or (cs : List Char) :
    (splitBlockComment cs).2 = [] ∨ ['*', '/'] <:+ (splitBlockComment cs).1 := by
  fun_induction splitBlockComment cs with
  | case1 => exact .inl rfl
  | case2 cs => exact .inr (List.suffix_refl _)
  | case3 c cs _ body rest hs ih =>
    rw [hs] at ih
    exact ih.imp_right fun h => h.trans (List.suffix_cons c body)

/-- A block comment that is closed ends at the same place in every longer text. -/
theorem splitBlockComment_append_of_closed {cs : List Char} (ds : List Char)
    (h : ['*', '/'] <:+ (splitBlockComment cs).1) :
    splitBlockComment (cs ++ ds) = ((splitBlockComment cs).1, (splitBlockComment cs).2 ++ ds) := by
  fun_induction splitBlockComment cs with
  | case1 => exact absurd (List.suffix_nil.1 h) (by simp)
  | case2 cs => rfl
  | case3 c cs hnot body rest hs ih =>
    rw [hs] at ih
    -- the end of the comment is in what comes after `c`
    have hbody : ['*', '/'] <:+ body := by
      rcases List.suffix_cons_iff.1 h with he | h
      · obtain ⟨rfl, hbody⟩ := List.cons.inj he
        have hcs := splitBlockComment_append cs
        rw [hs, ← hbody] at hcs
        exact absurd hcs.symm (hnot rest rfl)
      · exact h
    have hcs : cs ≠ [] := by
      rintro rfl
      cases hs
      exact absurd (List.suffix_nil.1 hbody) (by simp)
    obtain ⟨d, cs, rfl⟩ := List.exists_cons_of_ne_nil hcs
    rw [List.cons_append, List.cons_append, splitBlockComment]
    · rw [← List.cons_append, ih hbody]
    · rintro es rfl he
      rw [List.cons.injEq] at he
      exact hnot cs rfl (by rw [he.1])

theorem startsComment_append {cs ds : List Char} (hcs : 2 ≤ cs.length) :
    startsComment (cs ++ ds) = startsComment cs := by
  match cs, hcs with
  | c :: d :: cs, _ =>
    rw [List.cons_append, List.cons_append]
    unfold startsComment
    split <;> split <;> simp_all

/-- No boundary character is the second one of a comment. -/
theorem startsComment_cons_boundary {c : Char} {ds : List Char}
    (h : ∀ d ∈ ds.head?, isBoundary d = true) : startsComment (c :: ds) = false := by
  cases ds with
  | nil => simp [startsComment]
  | cons d ds =>
    have hd := h d rfl
    have h₁ : d ≠ '/' := by rintro rfl; exact absurd hd (by decide)
    have h₂ : d ≠ '*' := by rintro rfl; exact absurd hd (by decide)
    unfold startsComment
    split <;> simp_all

theorem splitWord_append_of_stops {cs ds : List Char}
    (h : (splitWord cs).2 ≠ [] ∨ ∀ d ∈ ds.head?, isBoundary d = true) :
    splitWord (cs ++ ds) = ((splitWord cs).1, (splitWord cs).2 ++ ds) := by
  induction cs with
  | nil =>
    have hd := h.resolve_left (fun hne => hne rfl)
    cases ds with
    | nil => rfl
    | cons d ds => simp [splitWord, hd d rfl]
  | cons c cs ih =>
    by_cases hc : isBoundary c || startsComment (c :: cs)
    · have hc' : isBoundary c || startsComment (c :: (cs ++ ds)) := by
        cases cs with
        | nil =>
          have hb : isBoundary c = true := by simpa [startsComment] using hc
          rw [hb, Bool.true_or]
        | cons d cs => rwa [← List.cons_append, startsComment_append (by simp)]
      simp only [List.cons_append, splitWord, if_pos hc, if_pos hc']
    · have hrest : splitWord (c :: cs) = (c :: (splitWord cs).1, (splitWord cs).2) := by
        simp only [splitWord, if_neg hc]
      rw [hrest] at h ⊢
      -- a comment can only start with `c` if the text after it decides so
      have hc' : ¬(isBoundary c || startsComment (c :: (cs ++ ds))) := by
        cases cs with
        | nil =>
          have hd := h.resolve_left (fun hne => hne rfl)
          rw [List.nil_append, startsComment_cons_boundary hd]
          simpa [startsComment] using hc
        | cons d cs => rwa [← List.cons_append, startsComment_append (by simp)]
      rw [List.cons_append, splitWord, if_neg hc', ih h]

theorem firstPiece_newline {c : Char} (hn : isNewline c = true) (cs : List Char) :
    firstPiece c cs = (⟨.blank, [c]⟩, cs) := by
  unfold firstPiece
  exact if_pos hn

theorem firstPiece_space {c : Char} (hs : isSpace c = true) (cs : List Char) :
    firstPiece c cs = (⟨.blank, c :: cs.takeWhile isSpace⟩, cs.dropWhile isSpace) := by
  have hn : ¬isNewline c = true := fun hn => not_isSpace_of_isNewline hn hs
  unfold firstPiece
  rw [if_neg hn, if_pos hs]

theorem firstPiece_separator {c : Char} (hp : isSeparatorChar c = true) (cs : List Char) :
    firstPiece c cs = (⟨.separator, [c]⟩, cs) := by
  simp only [isSeparatorChar, Bool.or_eq_true, beq_iff_eq, or_assoc] at hp
  rcases hp with rfl | rfl | rfl | rfl | rfl | rfl <;> rfl

theorem firstPiece_word {c : Char} {cs : List Char} (hb : isBoundary c = false)
    (hc : startsComment (c :: cs) = false) :
    firstPiece c cs = (⟨.word, c :: (splitWord cs).1⟩, (splitWord cs).2) := by
  simp only [isBoundary, Bool.or_eq_false_iff] at hb
  unfold firstPiece
  rw [if_neg (by simp [hb.1.1]), if_neg (by simp [hb.1.2]), if_neg (by simp [hb.2])]
  split
  · exact absurd hc (by simp [startsComment])
  · exact absurd hc (by simp [startsComment])
  · rfl

theorem firstPiece_lineComment (cs : List Char) :
    firstPiece '/' ('/' :: cs) =
      (⟨.comment, '/' :: '/' :: cs.takeWhile (!endsLineComment ·)⟩,
        cs.dropWhile (!endsLineComment ·)) :=
  rfl

theorem firstPiece_blockComment (cs : List Char) :
    firstPiece '/' ('*' :: cs) =
      (⟨.comment, '/' :: '*' :: (splitBlockComment cs).1⟩, (splitBlockComment cs).2) :=
  rfl

theorem eq_of_startsComment {c : Char} {cs : List Char} (h : startsComment (c :: cs) = true) :
    c = '/' ∧ ∃ ds, cs = '/' :: ds ∨ cs = '*' :: ds := by
  unfold startsComment at h
  split at h <;> simp_all

/-- The piece at the start of a text stays the same if more text comes after it, unless it reaches
the end of the first text and could go on. -/
theorem firstPiece_append_of_ends {c : Char} {cs ds : List Char}
    (h : (firstPiece c cs).2 ≠ [] ∨ (firstPiece c cs).1.EndsBefore ds) :
    firstPiece c (cs ++ ds) = ((firstPiece c cs).1, (firstPiece c cs).2 ++ ds) := by
  by_cases hn : isNewline c = true
  · rw [firstPiece_newline hn, firstPiece_newline hn]
  by_cases hs : isSpace c = true
  · rw [firstPiece_space hs] at h ⊢
    -- a run of blanks holds no line end
    have hline : ¬∃ d ∈ c :: cs.takeWhile isSpace, isNewline d = true := by
      rintro ⟨d, hd, hnd⟩
      rcases List.mem_cons.1 hd with rfl | hd
      · exact hn hnd
      · exact not_isSpace_of_isNewline hnd (List.all_eq_true.1 List.all_takeWhile d hd)
    have hspan := span_append (h.imp_right fun hb => Or.resolve_left hb hline)
    rw [firstPiece_space hs, hspan.1, hspan.2]
  by_cases hp : isSeparatorChar c = true
  · rw [firstPiece_separator hp, firstPiece_separator hp]
  have hb : isBoundary c = false := by simp [isBoundary, hn, hs, hp]
  by_cases hc : startsComment (c :: cs) = true
  · obtain ⟨rfl, es, rfl | rfl⟩ := eq_of_startsComment hc
    · rw [firstPiece_lineComment] at h ⊢
      have hends : es.dropWhile (!endsLineComment ·) ≠ [] ∨
          ∀ d ∈ ds.head?, (!endsLineComment d) = false := by
        refine h.imp_right fun he d hd => ?_
        rw [he.2.resolve_left (by simp) d hd, Bool.not_true]
      have hspan := span_append hends
      rw [List.cons_append, firstPiece_lineComment, hspan.1, hspan.2]
    · rw [firstPiece_blockComment] at h ⊢
      have hclosed : ['*', '/'] <:+ (splitBlockComment es).1 := by
        rcases h with h | h
        · exact (splitBlockComment_eq_nil_or es).resolve_left h
        · simpa [isOpenComment] using h.1
      rw [List.cons_append, firstPiece_blockComment, splitBlockComment_append_of_closed ds hclosed]
  · rw [Bool.not_eq_true] at hc
    rw [firstPiece_word hb hc] at h ⊢
    have hstart : startsComment (c :: (cs ++ ds)) = false := by
      cases cs with
      | nil => exact startsComment_cons_boundary (h.resolve_left fun hne => hne rfl)
      | cons d cs => rwa [← List.cons_append, startsComment_append (by simp)]
    rw [firstPiece_word hb hstart, splitWord_append_of_stops h]

/-! ### All pieces -/

theorem pieces_cons (c : Char) (cs : List Char) :
    pieces (c :: cs) = (firstPiece c cs).1 :: pieces (firstPiece c cs).2 := by
  rw [pieces]

theorem pieces_eq_nil {cs : List Char} : pieces cs = [] ↔ cs = [] := by
  cases cs with
  | nil => simp [pieces]
  | cons c cs => simp [pieces_cons]

/-- The pieces of two texts, one after the other. -/
theorem pieces_append {cs ds : List Char} (h : ∀ p ∈ (pieces cs).getLast?, p.EndsBefore ds) :
    pieces (cs ++ ds) = pieces cs ++ pieces ds := by
  fun_induction pieces cs with
  | case1 => rfl
  | case2 c cs ih =>
    have hfirst : (firstPiece c cs).2 ≠ [] ∨ (firstPiece c cs).1.EndsBefore ds := by
      by_cases hrest : (firstPiece c cs).2 = []
      · refine .inr (h _ ?_)
        rw [hrest, pieces_eq_nil.2 rfl]
        rfl
      · exact .inl hrest
    rw [List.cons_append, pieces_cons, firstPiece_append_of_ends hfirst, List.cons_append]
    refine congrArg _ (ih fun p hp => h p ?_)
    rw [List.getLast?_cons, Option.mem_def.1 hp]
    rfl

/-- Only an open block comment goes on over a line end. -/
theorem endsBefore_newline {p : Piece} (h : p.kind = .comment → isOpenComment p.chars = false)
    (cs : List Char) : p.EndsBefore ('\n' :: cs) := by
  unfold Piece.EndsBefore
  split
  · rintro d ⟨⟩; rfl
  · refine .inr ?_
    rintro d ⟨⟩; rfl
  · next hk =>
    refine ⟨h hk, .inr ?_⟩
    rintro d ⟨⟩; rfl
  · trivial

end Sequitur.Token
