import Sequitur.Token.Scan

/-!
# Words

A word holds no boundary character. Every token that the scanner takes for a word is one
(`isWord_of_mem_scan`), so the names of a scanned text never hold a parenthesis or a comma, which is
what makes keys readable.
-/

namespace Sequitur

open Token

/-- A nonempty text without boundary characters. -/
def IsWord (s : String) : Prop := s.toList ≠ [] ∧ ∀ c ∈ s.toList, isBoundary c = false

instance (s : String) : Decidable (IsWord s) :=
  decidable_of_decidable_of_iff (p := (!s.toList.isEmpty && s.toList.all (!isBoundary ·)) = true)
    (by simp [IsWord])

theorem IsWord.not_mem {s : String} (h : IsWord s) {c : Char} (hc : isBoundary c = true) :
    c ∉ s.toList := fun hm => by
  have := h.2 c hm
  rw [hc] at this
  exact absurd this nofun

namespace Token

theorem isBoundary_of_mem_splitWord {cs : List Char} {c : Char} (h : c ∈ (splitWord cs).1) :
    isBoundary c = false := by
  induction cs with
  | nil => exact absurd h List.not_mem_nil
  | cons d cs ih =>
    simp only [splitWord] at h
    split at h
    · exact absurd h List.not_mem_nil
    · next hd =>
      rcases List.mem_cons.1 h with rfl | h
      · simp only [Bool.or_eq_true, not_or, Bool.not_eq_true] at hd
        exact hd.1
      · exact ih h

theorem isBoundary_of_mem_firstPiece {c d : Char} {cs : List Char}
    (hw : (firstPiece c cs).1.kind = .word) (h : d ∈ (firstPiece c cs).1.chars) :
    isBoundary d = false := by
  revert hw h
  unfold firstPiece
  split
  · exact nofun
  next h₁ =>
  split
  · exact nofun
  next h₂ =>
  split
  · exact nofun
  next h₃ =>
  split
  · exact nofun
  · exact nofun
  · intro _ h
    rcases List.mem_cons.1 h with rfl | h
    · simp only [isBoundary, h₁, h₂, h₃, Bool.or_false]
    · exact isBoundary_of_mem_splitWord h

theorem isBoundary_of_mem_pieces {cs : List Char} {p : Piece} (hp : p ∈ pieces cs)
    (hw : p.kind = .word) {d : Char} (h : d ∈ p.chars) : isBoundary d = false := by
  fun_induction pieces cs with
  | case1 => exact absurd hp List.not_mem_nil
  | case2 c cs ih =>
    rcases List.mem_cons.1 hp with rfl | hp
    · exact isBoundary_of_mem_firstPiece hw h
    · exact ih hp

/-- Every token of placed pieces is one of the pieces. -/
theorem exists_piece_of_mem_place {start : Position} {ps : List Piece} {t : Token}
    (h : t ∈ place start ps) : ∃ p ∈ ps, t.kind = p.tokenKind ∧ t.text = String.ofList p.chars := by
  induction ps generalizing start with
  | nil => exact absurd h List.not_mem_nil
  | cons p ps ih =>
    rcases List.mem_cons.1 h with rfl | h
    · exact ⟨p, List.mem_cons_self .., rfl, rfl⟩
    · obtain ⟨q, hq, hk⟩ := ih h
      exact ⟨q, List.mem_cons_of_mem _ hq, hk⟩

/-- What the scanner takes for a word is one. -/
theorem isWord_of_mem_scan {text : String} {t : Token} (h : t ∈ scan text) (hw : t.kind = .word) :
    IsWord t.text := by
  obtain ⟨p, hp, hk, ht⟩ := exists_piece_of_mem_place h
  have hpw : p.kind = .word := by
    rw [hk, Piece.tokenKind] at hw
    split at hw
    · exact absurd hw nofun
    · exact hw
  rw [IsWord, ht, String.toList_ofList]
  exact ⟨ne_nil_of_mem_pieces hp, fun c hc => isBoundary_of_mem_pieces hp hpw hc⟩

end Token

/-- Every lexeme of a token stream is one of its tokens. -/
theorem Lexeme.exists_token_of_mem {tokens : List Token} {l : Lexeme} (h : l ∈ ofTokens tokens) :
    ∃ t ∈ tokens, l.kind = t.kind ∧ l.ref.text = t.text := by
  obtain ⟨⟨t, i⟩, hm, hl⟩ := List.mem_filterMap.1 h
  have ht : t ∈ tokens := (List.mem_zipIdx' hm).2 ▸ List.getElem_mem _
  refine ⟨t, ht, ?_⟩
  simp only at hl
  split at hl
  · exact absurd hl nofun
  · exact absurd hl nofun
  · cases hl
    exact ⟨rfl, rfl⟩

theorem Lexeme.isWord_of_mem_scan {text : String} {l : Lexeme} (h : l ∈ ofTokens (scan text))
    (hw : l.isWord = true) : IsWord l.ref.text := by
  obtain ⟨t, ht, hk, he⟩ := exists_token_of_mem h
  rw [he]
  exact Token.isWord_of_mem_scan ht (hk ▸ beq_iff_eq.1 hw)

end Sequitur
