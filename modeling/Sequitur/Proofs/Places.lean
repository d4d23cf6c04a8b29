import Mathlib.Data.Prod.Lex
import Sequitur.Proofs.Anchoring

/-!
# Order of places

Places are ordered by line and character (`Position.place`). The tokens of a text stand one after the
other from its start to its end, none of them at no place (`Token.laid_scan`), and so do its lexemes
(`Lexeme.ordered_spans`).
-/

namespace Sequitur

namespace Position

/-- Line and character, which is all that lookups compare. -/
def place (p : Position) : Nat ×ₗ Nat := toLex (p.line, p.character)

theorem place_lt_iff {p q : Position} : p.place < q.place ↔ q.comparePlace p = .gt := by
  rw [comparePlace_eq_gt, place, place, Prod.Lex.toLex_lt_toLex, eq_comm]

theorem placeLT_iff {p q : Position} : p.placeLT q = true ↔ p.place < q.place := by
  rw [placeLT, comparePlace, beq_iff_eq, Ordering.then_eq_lt, Nat.compare_eq_lt, Nat.compare_eq_lt,
    Nat.compare_eq_eq, place, place, Prod.Lex.toLex_lt_toLex]

theorem placeLE_iff {p q : Position} : p.placeLE q = true ↔ p.place ≤ q.place := by
  rw [placeLE, bne_iff_ne, ne_eq, ← place_lt_iff, not_lt]

theorem place_lt_advanceAll (p : Position) {cs : List Char} (h : cs ≠ []) :
    p.place < (p.advanceAll cs).place := by
  obtain ⟨c, cs, rfl⟩ := List.exists_cons_of_ne_nil h
  exact place_lt_iff.2 (comparePlace_advanceAll p c cs)

theorem place_le_advanceAll (p : Position) (cs : List Char) : p.place ≤ (p.advanceAll cs).place := by
  by_cases h : cs = []
  · rw [h, advanceAll_nil]
  · exact (p.place_lt_advanceAll h).le

theorem line_le_of_place_le {p q : Position} (h : p.place ≤ q.place) : p.line ≤ q.line := by
  rw [place, place, Prod.Lex.toLex_le_toLex] at h
  omega

end Position

namespace Span

theorem contains_iff {s : Span} {p : Position} :
    s.contains p = true ↔ s.start.place ≤ p.place ∧ p.place < s.stop.place := by
  rw [contains, Bool.and_eq_true, Position.placeLE_iff, Position.placeLT_iff]

/-- A span around another one. -/
def Covers (s t : Span) : Prop := s.start.place ≤ t.start.place ∧ t.stop.place ≤ s.stop.place

theorem Covers.trans {s t u : Span} (h : s.Covers t) (h' : t.Covers u) : s.Covers u :=
  ⟨h.1.trans h'.1, h'.2.trans h.2⟩

/-- Spans that stand one after the other, none of them at no place. -/
structure Ordered (spans : List Span) : Prop where
  proper : ∀ s ∈ spans, s.start.place < s.stop.place
  apart : spans.Pairwise fun s t => s.stop.place ≤ t.start.place

namespace Ordered

variable {spans spans' : List Span}

theorem sublist (h : Ordered spans) (hs : spans'.Sublist spans) : Ordered spans' :=
  ⟨fun s hm => h.proper s (hs.subset hm), h.apart.sublist hs⟩

theorem cons {s : Span} (hs : s.start.place < s.stop.place) (hspans : ∀ t ∈ spans, s.stop.place ≤ t.start.place)
    (h : Ordered spans) : Ordered (s :: spans) :=
  ⟨List.forall_mem_cons.2 ⟨hs, h.proper⟩, List.pairwise_cons.2 ⟨hspans, h.apart⟩⟩

theorem append (h : Ordered spans) (h' : Ordered spans')
    (hcross : ∀ s ∈ spans, ∀ t ∈ spans', s.stop.place ≤ t.start.place) : Ordered (spans ++ spans') :=
  ⟨List.forall_mem_append.2 ⟨h.proper, h'.proper⟩, List.pairwise_append.2 ⟨h.apart, h'.apart, hcross⟩⟩

theorem nodup (h : Ordered spans) : spans.Nodup :=
  h.apart.imp_of_mem fun {s t} hs _ hle heq => by
    subst heq
    exact absurd (h.proper s hs) hle.not_gt

/-- Of two of the spans, the later one both starts and stops later. -/
theorem rising (h : Ordered spans) :
    spans.Pairwise fun s t => s.start.place ≤ t.start.place ∧ s.stop.place ≤ t.stop.place := by
  refine h.apart.imp_of_mem fun {s t} hs ht hle => ⟨?_, ?_⟩
  · exact (h.proper s hs).le.trans hle
  · exact hle.trans (h.proper t ht).le

/-- A span from one of the spans through a later one stands for all from the one to the other. -/
theorem through {s t : Span} {mids rest : List Span} (h : Ordered (spans ++ s :: (mids ++ t :: rest))) :
    Ordered (spans ++ s.through t :: rest) := by
  obtain ⟨hspans, hlater, hcross⟩ := List.pairwise_append.1 h.apart
  obtain ⟨hs, hlater⟩ := List.pairwise_cons.1 hlater
  obtain ⟨-, hlater, -⟩ := List.pairwise_append.1 hlater
  obtain ⟨ht, hrest⟩ := List.pairwise_cons.1 hlater
  have hthrough : s.start.place < t.stop.place :=
    calc s.start.place
      _ < s.stop.place := h.proper s (by simp)
      _ ≤ t.start.place := hs t (by simp)
      _ < t.stop.place := h.proper t (by simp)
  refine ⟨fun u hu => ?_, List.pairwise_append.2 ⟨hspans, List.pairwise_cons.2 ⟨ht, hrest⟩, fun u hu v hv => ?_⟩⟩
  · rcases List.mem_append.1 hu with hu | hu
    · exact h.proper u (List.mem_append_left _ hu)
    · rcases List.mem_cons.1 hu with rfl | hu
      · exact hthrough
      · exact h.proper u (by simp [hu])
  · rcases List.mem_cons.1 hv with rfl | hv
    · exact hcross u hu s (List.mem_cons_self ..)
    · exact hcross u hu v (by simp [hv])

theorem covers {s t : Span} (h : Ordered (s :: (spans ++ [t]))) : ∀ u ∈ spans, (s.through t).Covers u := by
  intro u hu
  obtain ⟨hs, hrest⟩ := List.pairwise_cons.1 h.apart
  obtain ⟨-, -, ht⟩ := List.pairwise_append.1 hrest
  constructor
  · exact (h.proper s (by simp)).le.trans (hs u (by simp [hu]))
  · exact (ht u hu t (by simp)).trans (h.proper t (by simp)).le

end Ordered

end Span

namespace Token

/-- Tokens that cover the places from `start` up to `stop` without gaps. -/
structure Laid (start stop : Position) (tokens : List Token) : Prop where
  ordered : Span.Ordered (tokens.map (·.span))
  start_le : ∀ t ∈ tokens, start.place ≤ t.span.start.place
  exists_contains : ∀ p : Position, start.place ≤ p.place → p.place < stop.place →
    ∃ t ∈ tokens, t.span.contains p = true
  le_stop : ∀ t ∈ tokens, t.span.stop.place ≤ stop.place

theorem laid_place (start : Position) {ps : List Piece} (h : ∀ p ∈ ps, p.chars ≠ []) :
    Laid start (start.advanceAll (ps.flatMap (·.chars))) (place start ps) := by
  induction ps generalizing start with
  | nil =>
    refine ⟨⟨by simp [place], .nil⟩, by simp [place], fun p hle hlt => ?_, by simp [place]⟩
    exact absurd (hle.trans_lt hlt) (lt_irrefl _)
  | cons p ps ih =>
    obtain ⟨hp, hps⟩ := List.forall_mem_cons.1 h
    have hlt := start.place_lt_advanceAll hp
    obtain ⟨hordered, hstart, hcontains, hstop⟩ := ih (start.advanceAll p.chars) hps
    rw [List.flatMap_cons, Position.advanceAll_append]
    refine ⟨hordered.cons hlt fun s hs => ?_, ?_, fun q hle hq => ?_, ?_⟩
    · obtain ⟨t, ht, rfl⟩ := List.mem_map.1 hs
      exact hstart t ht
    · exact List.forall_mem_cons.2 ⟨le_refl _, fun t ht => hlt.le.trans (hstart t ht)⟩
    · rcases lt_or_ge q.place (start.advanceAll p.chars).place with hlt | hge
      · exact ⟨_, List.mem_cons_self .., Span.contains_iff.2 ⟨hle, hlt⟩⟩
      · obtain ⟨t, ht, hcontains⟩ := hcontains q hge hq
        exact ⟨t, List.mem_cons_of_mem _ ht, hcontains⟩
    · exact List.forall_mem_cons.2 ⟨Position.place_le_advanceAll _ _, hstop⟩

/-- Where a text ends. -/
def endOf (text : String) : Position := ({} : Position).advanceAll text.toList

theorem laid_scan (text : String) : Laid {} (endOf text) (scan text) := by
  have h := laid_place {} fun p (hp : p ∈ pieces text.toList) => ne_nil_of_mem_pieces hp
  rwa [flatten_pieces] at h

end Token

namespace Lexeme

/-- Lexemes are some of the tokens, in order. -/
theorem refs_sublist (tokens : List Token) :
    ((ofTokens tokens).map (·.ref)).Sublist (tokens.zipIdx.map fun x => x.1.ref x.2) := by
  unfold ofTokens
  induction tokens.zipIdx with
  | nil => exact .slnil
  | cons x xs ih =>
    rw [List.filterMap_cons]
    split
    · exact ih.cons _
    · next l hl =>
      simp only at hl
      split at hl
      · cases hl
      · cases hl
      · cases hl
        exact ih.cons_cons _

theorem pairwise_index (tokens : List Token) :
    (ofTokens tokens).Pairwise fun l m => l.ref.index < m.ref.index := by
  have h : (tokens.zipIdx.map Prod.snd).Pairwise (· < ·) := by
    rw [List.zipIdx_map_snd]
    exact List.pairwise_lt_range'
  have hrefs : (tokens.zipIdx.map fun x => x.1.ref x.2).Pairwise fun r q => r.index < q.index :=
    List.pairwise_map.2 (List.pairwise_map.1 h)
  have hlexemes := hrefs.sublist (refs_sublist tokens)
  rwa [List.pairwise_map] at hlexemes

theorem ordered_spans (text : String) : Span.Ordered ((ofTokens (Token.scan text)).map (·.span)) := by
  refine (Token.laid_scan text).ordered.sublist ?_
  have h := (refs_sublist (Token.scan text)).map (·.span)
  have hspans : ((Token.scan text).zipIdx.map fun x => x.1.ref x.2).map (·.span) =
      ((Token.scan text).zipIdx.map Prod.fst).map (·.span) := by
    rw [List.map_map, List.map_map]
    rfl
  rw [hspans, List.zipIdx_map_fst, List.map_map] at h
  exact h

end Lexeme

theorem Section.lexemes_sublist {heads : Keyword → Bool} {ls : List Lexeme} {s : Section}
    (h : s ∈ (split heads ls).2) : s.lexemes.Sublist ls := by
  have hflat : s.lexemes.Sublist ((split heads ls).2.flatMap lexemes) := by
    rw [List.flatMap_def]
    exact List.sublist_flatten_of_mem (List.mem_map_of_mem h)
  have hall := hflat.trans (List.sublist_append_right (split heads ls).1 _)
  rwa [split_append] at hall

end Sequitur
