import Mathlib.Data.List.Chain
import Mathlib.Data.List.TakeWhile
import Sequitur.Proofs.Scanning
import Sequitur.Proofs.Words

/-!
# How a text is cut

The tokens of a text cover it without gaps, each at the place that the characters before it lead to, and
they cannot be cut any further or be put together: the text of a token is that one token again, and where
two tokens meet, they are neither two words nor two runs of blanks (`segments_scan`).
-/

namespace Sequitur.Token

/-! ### A piece by itself -/

theorem startsComment_of_append {cs : List Char} (h : startsComment cs = true) (ds : List Char) :
    startsComment (cs ++ ds) = true := by
  cases cs with
  | nil => exact absurd h (by decide)
  | cons c cs =>
    obtain ⟨rfl, es, rfl | rfl⟩ := eq_of_startsComment h
    · rfl
    · rfl

/-- A comment that starts with a word would start with the text after it as well. -/
theorem startsComment_cons_splitWord {c : Char} {cs : List Char} (h : startsComment (c :: cs) = false) :
    startsComment (c :: (splitWord cs).1) = false := by
  refine Bool.eq_false_iff.2 fun hs => ?_
  have := startsComment_of_append hs (splitWord cs).2
  rw [List.cons_append, splitWord_append, h] at this
  cases this

/-- The word at the start of a text is a word by itself. -/
theorem splitWord_fst (cs : List Char) : splitWord (splitWord cs).1 = ((splitWord cs).1, []) := by
  induction cs with
  | nil => rfl
  | cons c cs ih =>
    by_cases hc : isBoundary c || startsComment (c :: cs)
    · simp only [splitWord, if_pos hc]
    · have hword : splitWord (c :: cs) = (c :: (splitWord cs).1, (splitWord cs).2) := by
        simp only [splitWord, if_neg hc]
      simp only [Bool.or_eq_true, not_or, Bool.not_eq_true] at hc
      have hstart : ¬(isBoundary c || startsComment (c :: (splitWord cs).1)) := by
        rw [hc.1, startsComment_cons_splitWord hc.2]
        decide
      rw [hword, splitWord, if_neg hstart, ih]

/-- A word ends at a boundary or before a comment. -/
theorem of_splitWord_snd {cs ds : List Char} {d : Char} (h : (splitWord cs).2 = d :: ds) :
    isBoundary d = true ∨ startsComment (d :: ds) = true := by
  induction cs with
  | nil => cases h
  | cons c cs ih =>
    by_cases hc : isBoundary c || startsComment (c :: cs)
    · simp only [splitWord, if_pos hc] at h
      cases h
      simpa using hc
    · simp only [splitWord, if_neg hc] at h
      exact ih h

theorem splitBlockComment_fst (cs : List Char) :
    splitBlockComment (splitBlockComment cs).1 = ((splitBlockComment cs).1, []) := by
  fun_induction splitBlockComment cs with
  | case1 => rfl
  | case2 cs => rfl
  | case3 c cs hnot body rest hs ih =>
    have hcs := splitBlockComment_append cs
    rw [hs] at ih hcs
    rw [splitBlockComment, ih]
    -- the comment does not end with `c`
    rintro es rfl rfl
    exact hnot _ rfl hcs.symm

theorem of_kind_firstPiece {c : Char} {cs : List Char} (h : (firstPiece c cs).1.kind = .word) :
    isBoundary c = false ∧ startsComment (c :: cs) = false := by
  by_cases hn : isNewline c = true
  · rw [firstPiece_newline hn] at h
    cases h
  by_cases hs : isSpace c = true
  · rw [firstPiece_space hs] at h
    cases h
  by_cases hp : isSeparatorChar c = true
  · rw [firstPiece_separator hp] at h
    cases h
  refine ⟨by simp [isBoundary, hn, hs, hp], Bool.eq_false_iff.2 fun hc => ?_⟩
  obtain ⟨rfl, ds, rfl | rfl⟩ := eq_of_startsComment hc
  · cases h
  · cases h

/-- The first piece of a text is a piece by itself. -/
theorem pieces_firstPiece (c : Char) (cs : List Char) :
    pieces (firstPiece c cs).1.chars = [(firstPiece c cs).1] := by
  -- it is enough that the first piece of these characters takes them all
  have hall : ∀ {ds : List Char} {p : Piece}, firstPiece c ds = (p, []) → pieces (c :: ds) = [p] := by
    intro ds p h
    rw [pieces_cons, h, pieces_eq_nil.2 rfl]
  have hrun : ∀ (p : Char → Bool) (ds : List Char),
      (ds.takeWhile p).takeWhile p = ds.takeWhile p ∧ (ds.takeWhile p).dropWhile p = [] := fun p ds =>
    ⟨List.takeWhile_idem .., List.dropWhile_eq_nil_iff.2 fun _ hd => List.mem_takeWhile_imp hd⟩
  by_cases hn : isNewline c = true
  · rw [firstPiece_newline hn]
    exact hall (firstPiece_newline hn [])
  by_cases hs : isSpace c = true
  · obtain ⟨htake, hdrop⟩ := hrun isSpace cs
    rw [firstPiece_space hs]
    exact hall (by rw [firstPiece_space hs, htake, hdrop])
  by_cases hp : isSeparatorChar c = true
  · rw [firstPiece_separator hp]
    exact hall (firstPiece_separator hp [])
  have hb : isBoundary c = false := by simp [isBoundary, hn, hs, hp]
  by_cases hc : startsComment (c :: cs) = true
  · obtain ⟨rfl, es, rfl | rfl⟩ := eq_of_startsComment hc
    · obtain ⟨htake, hdrop⟩ := hrun (!endsLineComment ·) es
      rw [firstPiece_lineComment]
      exact hall (by rw [firstPiece_lineComment, htake, hdrop])
    · rw [firstPiece_blockComment]
      exact hall (by rw [firstPiece_blockComment, splitBlockComment_fst])
  · rw [Bool.not_eq_true] at hc
    rw [firstPiece_word hb hc]
    exact hall (by rw [firstPiece_word hb (startsComment_cons_splitWord hc), splitWord_fst])

/-- A piece of a text is a piece by itself. -/
theorem pieces_of_mem {cs : List Char} {p : Piece} (hp : p ∈ pieces cs) : pieces p.chars = [p] := by
  fun_induction pieces cs with
  | case1 => exact absurd hp List.not_mem_nil
  | case2 c cs ih =>
    rcases List.mem_cons.1 hp with rfl | hp
    · exact pieces_firstPiece c cs
    · exact ih hp

/-! ### Pieces side by side -/

/-- A run of blanks within a line. -/
def Piece.IsRun (p : Piece) : Prop := p.kind = .blank ∧ ∀ c ∈ p.chars, isNewline c = false

theorem of_isRun_firstPiece {c : Char} {cs : List Char} (h : (firstPiece c cs).1.IsRun) :
    isSpace c = true := by
  obtain ⟨hkind, hline⟩ := h
  by_cases hn : isNewline c = true
  · rw [firstPiece_newline hn] at hline
    rw [hline c (List.mem_singleton_self c)] at hn
    cases hn
  refine Decidable.byContradiction fun hs => ?_
  by_cases hp : isSeparatorChar c = true
  · rw [firstPiece_separator hp] at hkind
    cases hkind
  have hb : isBoundary c = false := by simp [isBoundary, hn, hs, hp]
  by_cases hc : startsComment (c :: cs) = true
  · obtain ⟨rfl, es, rfl | rfl⟩ := eq_of_startsComment hc
    · cases hkind
    · cases hkind
  · rw [firstPiece_word hb (Bool.eq_false_iff.2 hc)] at hkind
    cases hkind

/-- Two words, or two runs of blanks within a line. -/
def Piece.Joinable (p q : Piece) : Prop := p.kind = .word ∧ q.kind = .word ∨ p.IsRun ∧ q.IsRun

/-- What comes after the first piece of a text does not go on with it. -/
theorem not_joinable_firstPiece {c d : Char} {cs ds : List Char} (h : (firstPiece c cs).2 = d :: ds) :
    ¬(firstPiece c cs).1.Joinable (firstPiece d ds).1 := by
  rintro (⟨hw, hw'⟩ | ⟨hr, hr'⟩)
  · obtain ⟨hb, hc⟩ := of_kind_firstPiece hw
    obtain ⟨hb', hc'⟩ := of_kind_firstPiece hw'
    rw [firstPiece_word hb hc] at h
    rcases of_splitWord_snd h with hd | hd
    · rw [hb'] at hd
      cases hd
    · rw [hc'] at hd
      cases hd
  · rw [firstPiece_space (of_isRun_firstPiece hr)] at h
    have hstop := List.head?_dropWhile_not isSpace cs
    rw [show cs.dropWhile isSpace = d :: ds from h] at hstop
    exact Bool.eq_false_iff.1 hstop (of_isRun_firstPiece hr')

theorem isChain_pieces (cs : List Char) : (pieces cs).IsChain fun p q => ¬p.Joinable q := by
  fun_induction pieces cs with
  | case1 => exact .nil
  | case2 c cs ih =>
    refine List.isChain_cons.2 ⟨fun q hq => ?_, ih⟩
    cases hrest : (firstPiece c cs).2 with
    | nil =>
      rw [hrest, pieces_eq_nil.2 rfl] at hq
      cases hq
    | cons d ds =>
      rw [hrest, pieces_cons] at hq
      cases hq
      exact not_joinable_firstPiece hrest

/-! ### Tokens -/

/-- Placing keeps kinds and texts. -/
theorem map_place (start : Position) (ps : List Piece) :
    (place start ps).map (fun t => (t.kind, t.text)) =
      ps.map fun p => (p.tokenKind, String.ofList p.chars) := by
  induction ps generalizing start with
  | nil => rfl
  | cons p ps ih => exact congrArg _ (ih _)

/-- The span of a token reaches from where the characters before it lead to where its own lead. -/
theorem span_place {start : Position} {ps : List Piece} {before after : List Token} {t : Token}
    (h : place start ps = before ++ t :: after) :
    t.span = ⟨start.advanceAll (before.flatMap (·.text.toList)),
      start.advanceAll ((before ++ [t]).flatMap (·.text.toList))⟩ := by
  induction ps generalizing start before with
  | nil => exact absurd h (by simp [place])
  | cons p ps ih =>
    cases before with
    | nil =>
      obtain ⟨rfl, -⟩ := List.cons.inj h
      simp
    | cons u before =>
      obtain ⟨rfl, hrest⟩ := List.cons.inj h
      rw [ih hrest]
      simp [Position.advanceAll_append]

theorem isChain_place (start : Position) (ps : List Piece) :
    (place start ps).IsChain (fun t u => t.span.stop = u.span.start) ∧
      ∀ t ∈ (place start ps).head?, t.span.start = start := by
  induction ps generalizing start with
  | nil => exact ⟨.nil, by simp [place]⟩
  | cons p ps ih =>
    obtain ⟨hchain, hhead⟩ := ih (start.advanceAll p.chars)
    refine ⟨List.isChain_cons.2 ⟨fun u hu => (hhead u hu).symm, hchain⟩, ?_⟩
    rintro t ⟨⟩
    rfl

/-- A word, keywords included. -/
def IsWordlike (t : Token) : Prop := t.kind = .word ∨ t.kind = .keyword

/-- A run of blanks within a line. -/
def IsRun (t : Token) : Prop := t.kind = .blank ∧ ∀ c ∈ t.text.toList, isNewline c = false

/-- Tokens that cut a text into pieces that are neither too long nor too short. -/
structure Segments (text : String) (tokens : List Token) : Prop where
  join : String.join (tokens.map (·.text)) = text
  text_ne_empty : ∀ t ∈ tokens, t.text ≠ ""
  start : ∀ t ∈ tokens.head?, t.span.start = ⟨0, 0, 0⟩
  /-- Each token starts where the one before it stops. -/
  chained : tokens.IsChain fun t u => t.span.stop = u.span.start
  /-- Both ends of a span are where the characters before them lead. -/
  placed : ∀ before t after, tokens = before ++ t :: after →
    t.span.start = ({} : Position).advanceAll (before.flatMap (·.text.toList)) ∧
      t.span.stop = ({} : Position).advanceAll ((before ++ [t]).flatMap (·.text.toList))
  /-- The text of a token is scanned as one token of the same kind. -/
  alone : ∀ t ∈ tokens, ∃ u, scan t.text = [u] ∧ u.kind = t.kind ∧ u.text = t.text
  words_apart : tokens.IsChain fun t u => ¬(t.IsWordlike ∧ u.IsWordlike)
  runs_apart : tokens.IsChain fun t u => ¬(t.IsRun ∧ u.IsRun)

theorem kind_ne_keyword {cs : List Char} {p : Piece} (hp : p ∈ pieces cs) : p.kind ≠ .keyword := by
  fun_induction pieces cs with
  | case1 => exact absurd hp List.not_mem_nil
  | case2 c cs ih =>
    rcases List.mem_cons.1 hp with rfl | hp
    · unfold firstPiece
      repeat' split
      all_goals simp
    · exact ih hp

/-- What holds of pieces that do not go on with each other holds of tokens side by side. -/
theorem isChain_scan {text : String} {R : Kind × String → Kind × String → Prop}
    (h : ∀ p q, p ∈ pieces text.toList → q ∈ pieces text.toList → ¬p.Joinable q →
      R (p.tokenKind, String.ofList p.chars) (q.tokenKind, String.ofList q.chars)) :
    (scan text).IsChain fun t u => R (t.kind, t.text) (u.kind, u.text) := by
  rw [← List.isChain_map (R := R) fun t : Token => (t.kind, t.text), scan, map_place, List.isChain_map]
  exact (isChain_pieces text.toList).imp_of_mem_imp h

/-- Scanning cuts every text into tokens of the right length. -/
theorem segments_scan (text : String) : Segments text (scan text) := by
  have hword : ∀ p ∈ pieces text.toList, p.tokenKind = .word ∨ p.tokenKind = .keyword → p.kind = .word := by
    intro p hp hkind
    have hkeyword := kind_ne_keyword hp
    unfold Piece.tokenKind at hkind
    split at hkind
    · next h => exact h.1
    · exact hkind.resolve_right hkeyword
  have hblank : ∀ p : Piece, p.tokenKind = .blank → p.kind = .blank := by
    intro p hkind
    unfold Piece.tokenKind at hkind
    split at hkind
    · cases hkind
    · exact hkind
  obtain ⟨hchain, hhead⟩ := isChain_place {} (pieces text.toList)
  refine ⟨join_text_scan text, fun t ht => ?_, hhead, hchain, fun before t after h => ?_, fun t ht => ?_, ?_, ?_⟩
  · obtain ⟨p, hp, -, htext⟩ := exists_piece_of_mem_place ht
    rw [htext, ne_eq, String.ofList_eq_empty_iff]
    exact ne_nil_of_mem_pieces hp
  · rw [span_place h]
    exact ⟨rfl, rfl⟩
  · obtain ⟨p, hp, hkind, htext⟩ := exists_piece_of_mem_place ht
    have hscan : scan t.text = place {} [p] := by rw [scan, htext, String.toList_ofList, pieces_of_mem hp]
    exact ⟨_, hscan, hkind.symm, htext.symm⟩
  · refine isChain_scan (R := fun e f => ¬((e.1 = .word ∨ e.1 = .keyword) ∧ (f.1 = .word ∨ f.1 = .keyword)))
      fun p q hp hq hnot hboth => hnot (.inl ⟨hword p hp hboth.1, hword q hq hboth.2⟩)
  · refine isChain_scan (R := fun e f => ¬((e.1 = .blank ∧ ∀ c ∈ e.2.toList, isNewline c = false) ∧
      (f.1 = .blank ∧ ∀ c ∈ f.2.toList, isNewline c = false))) fun p q _ _ hnot hboth => hnot (.inr ?_)
    simp only [String.toList_ofList] at hboth
    exact ⟨⟨hblank p hboth.1.1, hboth.1.2⟩, hblank q hboth.2.1, hboth.2.2⟩

end Sequitur.Token
