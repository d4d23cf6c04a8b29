import Sequitur.Proofs.Spelling
import Sequitur.Proofs.Templates

/-!
# Printed forms of terms

The fragments of a template, with the parameters in their places, join up to the words of the form it
was made of (`Template.render_ofForm`). So a term prints its form with the blanks left out. If that
makes no comment, then the words that are read off the printed form join up to it again
(`TermDecl.join_content`), whether or not they are cut in the same places.
-/

namespace Sequitur

open Placed (relocate)
open Token

/-! ### Texts without blanks -/

/-- A nonempty text without blanks. -/
def IsDense (s : String) : Prop :=
  s.toList ≠ [] ∧ ∀ c ∈ s.toList, ¬(isNewline c = true ∨ isSpace c = true)

theorem isDense_join {ss : List String} (hne : ss ≠ []) (h : ∀ s ∈ ss, IsDense s) :
    IsDense (String.join ss) := by
  rw [IsDense, String.toList_join]
  refine ⟨fun hnil => ?_, fun c hc => ?_⟩
  · obtain ⟨s, hs⟩ := List.exists_mem_of_ne_nil ss hne
    exact (h s hs).1 (List.flatMap_eq_nil_iff.1 hnil s hs)
  · obtain ⟨s, hs, hc⟩ := List.mem_flatMap.1 hc
    exact (h s hs).2 c hc

namespace Token

theorem exists_firstPiece_of_mem {cs : List Char} {p : Piece} (h : p ∈ pieces cs) :
    ∃ d ds, p = (firstPiece d ds).1 := by
  fun_induction pieces cs with
  | case1 => exact absurd h List.not_mem_nil
  | case2 c cs ih =>
    rcases List.mem_cons.1 h with rfl | h
    · exact ⟨c, cs, rfl⟩
    · exact ih h

/-- Outside of comments, blanks are in blank pieces only. -/
theorem kind_eq_blank_iff {cs : List Char} {p : Piece} (h : p ∈ pieces cs) (hc : p.kind ≠ .comment) :
    p.kind = .blank ↔ ∃ c ∈ p.chars, isNewline c = true ∨ isSpace c = true := by
  obtain ⟨d, ds, rfl⟩ := exists_firstPiece_of_mem h
  by_cases hn : isNewline d = true
  · rw [firstPiece_newline hn]
    exact iff_of_true rfl ⟨d, List.mem_cons_self .., .inl hn⟩
  by_cases hs : isSpace d = true
  · rw [firstPiece_space hs]
    exact iff_of_true rfl ⟨d, List.mem_cons_self .., .inr hs⟩
  by_cases hp : isSeparatorChar d = true
  · rw [firstPiece_separator hp]
    refine iff_of_false (by simp) ?_
    simp [hn, hs]
  have hb : isBoundary d = false := by simp [isBoundary, hn, hs, hp]
  cases hstart : startsComment (d :: ds) with
  | true =>
    obtain ⟨rfl, es, rfl | rfl⟩ := eq_of_startsComment hstart
    · exact absurd rfl hc
    · exact absurd rfl hc
  | false =>
    have hw : (firstPiece d ds).1.kind = .word := by rw [firstPiece_word hb hstart]
    refine iff_of_false (by rw [hw]; decide) ?_
    rintro ⟨c, hm, hblank⟩
    have := isBoundary_of_mem_firstPiece hw hm
    rcases hblank with hblank | hblank
    · simp [isBoundary, hblank] at this
    · simp [isBoundary, hblank] at this

end Token

theorem Lexeme.isDense_of_mem_scan {text : String} {l : Lexeme} (h : l ∈ ofTokens (scan text)) :
    IsDense l.ref.text := by
  have hl : relocate .blank l ∈ ofChars text.toList := relocate_ofTokens text ▸ List.mem_map_of_mem h
  obtain ⟨p, hp, hl⟩ := List.mem_filterMap.1 hl
  unfold ofPiece? at hl
  split at hl
  · cases hl
  · next hk =>
    rw [not_or] at hk
    have htext : l.ref.text = String.ofList p.chars := (congrArg (·.ref.text) (Option.some.inj hl)).symm
    rw [IsDense, htext, String.toList_ofList]
    exact ⟨ne_nil_of_mem_pieces hp, fun c hc hblank =>
      hk.1 ((Token.kind_eq_blank_iff hp hk.2).2 ⟨c, hc, hblank⟩)⟩

/-- The words that are read off a printed form join up to it. -/
theorem TermDecl.join_content {d : TermDecl} (hcomment : ∀ p ∈ pieces d.body.toList, p.kind ≠ .comment)
    (hdense : IsDense d.body) : String.join d.content = d.body := by
  have hblank : ∀ p ∈ pieces d.body.toList, p.kind ≠ .blank := by
    intro p hp hk
    obtain ⟨c, hc, hblank⟩ := (Token.kind_eq_blank_iff hp (hcomment p hp)).1 hk
    refine hdense.2 c ?_ hblank
    rw [← flatten_pieces d.body.toList]
    exact List.mem_flatMap.2 ⟨p, hp, hc⟩
  have hlexemes : (Lexeme.ofChars d.body.toList).map (·.ref.text) =
      (pieces d.body.toList).map fun p => String.ofList p.chars := by
    have hsome : Lexeme.ofChars d.body.toList =
        (pieces d.body.toList).map fun p => ⟨p.tokenKind, .named (String.ofList p.chars)⟩ := by
      rw [Lexeme.ofChars, ← List.filterMap_eq_map]
      refine List.filterMap_congr fun p hp => if_neg ?_
      exact not_or.2 ⟨hblank p hp, hcomment p hp⟩
    rw [hsome, List.map_map]
    rfl
  have hne : ¬(Lexeme.ofChars d.body.toList).isEmpty = true := by
    rw [List.isEmpty_iff, ← List.map_eq_nil_iff, hlexemes, List.map_eq_nil_iff, pieces_eq_nil]
    exact hdense.1
  rw [content, if_neg hne, hlexemes, ← String.toList_inj, String.toList_join, List.flatMap_map]
  simp only [String.toList_ofList]
  exact flatten_pieces _

end Sequitur
