import Mathlib.Data.List.Flatten
import Sequitur.Proofs.Occurrences
import Sequitur.Proofs.Segmentation

/-!
# Changes that go together

A suggestion replaces one part of a text and comes with changes to others. No two of these parts have a place
in common, so the text that results is the same in whatever order they are written anew
(`Document.compatible_check`).

Places are those of the text as it was. So while it is changed each character is kept with the place where it
stood at first, and what is written anew stands nowhere (`Cell`).
-/

namespace Sequitur

/-! ### Spans with no place in common -/

namespace Span

/-- No place is in both spans. -/
def Disjoint (s t : Span) : Prop := ∀ p : Position, s.contains p = true → t.contains p = true → False

theorem Disjoint.symm {s t : Span} (h : s.Disjoint t) : t.Disjoint s := fun p ht hs => h p hs ht

theorem disjoint_of_le {s t : Span} (h : s.stop.place ≤ t.start.place) : s.Disjoint t := fun _ hs ht =>
  absurd ((contains_iff.1 hs).2.trans_le (h.trans (contains_iff.1 ht).1)) (lt_irrefl _)

theorem Disjoint.of_covers {s t o : Span} (h : s.Disjoint t) (hcovers : t.Covers o) : s.Disjoint o :=
  fun p hs ho => by
    obtain ⟨hstart, hstop⟩ := contains_iff.1 ho
    exact h p hs (contains_iff.2 ⟨hcovers.1.trans hstart, hstop.trans_le hcovers.2⟩)

theorem Ordered.disjoint {spans : List Span} (h : Ordered spans) : spans.Pairwise Disjoint :=
  h.apart.imp disjoint_of_le

end Span

/-! ### A text under change -/

/-- A character, and the place where it stood before any change. -/
structure Cell where
  origin : Option Position
  char : Char
deriving DecidableEq

namespace Cell

/-- Characters as they stand from a place on. -/
def ofChars (p : Position) : List Char → List Cell
  | [] => []
  | c :: cs => ⟨some p, c⟩ :: ofChars (p.advance c) cs

def ofText (text : String) : List Cell := ofChars {} text.toList

/-- Characters that are written anew. -/
def anew (text : String) : List Cell := text.toList.map (⟨none, ·⟩)

def text (cells : List Cell) : String := String.ofList (cells.map (·.char))

theorem mem_ofChars (p : Position) (before : List Char) (c : Char) (after : List Char) :
    ⟨some (p.advanceAll before), c⟩ ∈ ofChars p (before ++ c :: after) := by
  induction before generalizing p with
  | nil => exact List.mem_cons_self ..
  | cons b before ih => exact List.mem_cons_of_mem _ (ih (p.advance b))

end Cell

/-- A part of a text and what to write in its place. -/
structure Replacement where
  span : Span
  text : String

namespace Replacement

def covers (r : Replacement) (c : Cell) : Bool := c.origin.any r.span.contains

/-- What becomes of a character. The new text comes where the span starts. -/
def rewrite (r : Replacement) (c : Cell) : List Cell :=
  if r.covers c then if c.origin = some r.span.start then Cell.anew r.text else [] else [c]

def apply (cells : List Cell) (r : Replacement) : List Cell := cells.flatMap r.rewrite

/-- What becomes of a character if all replacements are made at once. -/
def rewriteAll : List Replacement → Cell → List Cell
  | [], c => [c]
  | r :: rs, c => if r.covers c then r.rewrite c else rewriteAll rs c

section

variable {r q : Replacement} {c : Cell}

theorem rewrite_of_not_covers (h : r.covers c = false) : r.rewrite c = [c] := by
  unfold rewrite
  rw [h]
  rfl

theorem origin_of_mem_rewrite (h : r.covers c = true) {d : Cell} (hd : d ∈ r.rewrite c) : d.origin = none := by
  unfold rewrite at hd
  rw [if_pos h] at hd
  split at hd
  · obtain ⟨x, -, rfl⟩ := List.mem_map.1 hd
    rfl
  · cases hd

/-- What is written anew is left alone by anything that leaves alone what stood nowhere. -/
theorem flatMap_rewrite {f : Cell → List Cell} (hf : ∀ d : Cell, d.origin = none → f d = [d])
    (h : r.covers c = true) : (r.rewrite c).flatMap f = r.rewrite c := by
  rw [List.flatMap_congr fun d hd => hf d (origin_of_mem_rewrite h hd)]
  exact List.flatMap_singleton' _

theorem rewrite_anew (r : Replacement) {d : Cell} (h : d.origin = none) : r.rewrite d = [d] :=
  rewrite_of_not_covers (by simp [covers, h])

theorem rewriteAll_anew (rs : List Replacement) {d : Cell} (h : d.origin = none) : rewriteAll rs d = [d] := by
  induction rs with
  | nil => rfl
  | cons r rs ih => rw [rewriteAll, if_neg (by simp [covers, h]), ih]

/-- Two replacements of spans with no place in common can be made in either order. -/
theorem apply_comm (h : r.span.Disjoint q.span) (cells : List Cell) :
    apply (apply cells r) q = apply (apply cells q) r := by
  unfold apply
  rw [List.flatMap_assoc, List.flatMap_assoc]
  refine List.flatMap_congr fun c _ => ?_
  have hboth : r.covers c = true → q.covers c = true → False := by
    intro hr hq
    obtain ⟨p, hp, hr⟩ := (Option.any_eq_true _ _).1 hr
    rw [covers, hp] at hq
    exact h p hr hq
  by_cases hr : r.covers c = true
  · have hq : q.covers c = false := Bool.eq_false_iff.2 (hboth hr)
    rw [flatMap_rewrite (fun d => q.rewrite_anew) hr, rewrite_of_not_covers hq, List.flatMap_singleton]
  · rw [rewrite_of_not_covers (Bool.eq_false_iff.2 hr), List.flatMap_singleton]
    by_cases hq : q.covers c = true
    · rw [flatMap_rewrite (fun d => r.rewrite_anew) hq]
    · rw [rewrite_of_not_covers (Bool.eq_false_iff.2 hq), List.flatMap_singleton,
        rewrite_of_not_covers (Bool.eq_false_iff.2 hr)]

end

theorem foldl_apply (rs : List Replacement) (cells : List Cell) :
    rs.foldl apply cells = cells.flatMap (rewriteAll rs) := by
  induction rs generalizing cells with
  | nil => exact (List.flatMap_singleton' cells).symm
  | cons r rs ih =>
    rw [List.foldl_cons, ih, apply, List.flatMap_assoc]
    refine List.flatMap_congr fun c _ => ?_
    by_cases hr : r.covers c = true
    · rw [flatMap_rewrite (fun d => rewriteAll_anew rs) hr, rewriteAll, if_pos hr]
    · rw [rewrite_of_not_covers (Bool.eq_false_iff.2 hr), List.flatMap_singleton, rewriteAll, if_neg hr]

/-- Replacements of spans with no place in common can be made in any order. -/
theorem foldl_apply_perm {rs order : List Replacement} (h : rs.Pairwise fun r q => r.span.Disjoint q.span)
    (horder : order.Perm rs) (cells : List Cell) : order.foldl apply cells = cells.flatMap (rewriteAll rs) := by
  rw [← foldl_apply]
  refine horder.foldl_eq' (fun r hr q hq cells => ?_) cells
  rcases eq_or_of_pairwise h (horder.subset hr) (horder.subset hq) with rfl | hdisjoint | hdisjoint
  · rfl
  · exact apply_comm hdisjoint cells
  · exact (apply_comm hdisjoint cells).symm

end Replacement

/-- A lexeme starts at a character of the text. -/
theorem Lexeme.exists_cell {text : String} {l : Lexeme} (h : l ∈ ofTokens (Token.scan text)) :
    ∃ c ∈ Cell.ofText text, c.origin = some l.span.start := by
  obtain ⟨⟨t, i⟩, ht, href⟩ := List.mem_map.1 ((refs_sublist _).subset (List.mem_map_of_mem h))
  have hspan : l.span = t.span := (congrArg Token.Ref.span href).symm
  have ht : t ∈ Token.scan text := List.fst_mem_of_mem_zipIdx ht
  obtain ⟨before, after, hscan⟩ := List.append_of_mem ht
  obtain ⟨p, hp, -, htext⟩ := Token.exists_piece_of_mem_place ht
  obtain ⟨c, cs, hchars⟩ := List.exists_cons_of_ne_nil (Token.ne_nil_of_mem_pieces hp)
  have htoken : t.text.toList = c :: cs := by rw [htext, String.toList_ofList, hchars]
  have hsplit : text.toList = before.flatMap (·.text.toList) ++ c :: (cs ++ after.flatMap (·.text.toList)) := by
    have hall : (Token.scan text).flatMap (·.text.toList) = text.toList :=
      (Token.flatMap_text_place _ _).trans (Token.flatten_pieces _)
    rw [← hall, hscan, List.flatMap_append, List.flatMap_cons, htoken, List.cons_append]
  refine ⟨⟨some l.span.start, c⟩, ?_, rfl⟩
  rw [hspan, Token.span_place hscan, Cell.ofText, hsplit]
  exact Cell.mem_ofChars {} _ c _

/-! ### Suggestions -/

namespace Suggestion

/-- What a suggestion writes anew: its own part of the text first. -/
def replacements (sug : Suggestion) : List Replacement :=
  ⟨sug.span, sug.text⟩ :: sug.edits.map fun e => ⟨e.span, e.newText⟩

/-- The changes of a suggestion for a theorem of a text go together. -/
structure Compatible (text : String) (t : Thm) (holes : Holes) (sug : Suggestion) : Prop where
  proper : ∀ r ∈ sug.replacements, r.span.start.place < r.span.stop.place
  /-- There is something to replace. -/
  stands : ∀ r ∈ sug.replacements, ∃ c ∈ Cell.ofText text, c.origin = some r.span.start
  disjoint : sug.replacements.Pairwise fun r q => r.span.Disjoint q.span
  inProof : ∀ e ∈ sug.edits, ∃ s ∈ t.proof, s.span.Covers e.span
  occurrence : ∀ e ∈ sug.edits, ∃ hole ∈ holes, hole.name = e.oldText ∧ e.span ∈ hole.span :: hole.uses
  once : (sug.edits.map (·.span)).Nodup
  anyOrder : ∀ order : List Replacement, order.Perm sug.replacements →
    order.foldl Replacement.apply (Cell.ofText text) =
      (Cell.ofText text).flatMap (Replacement.rewriteAll sug.replacements)

theorem Compatible.of_disjoint {text : String} {t : Thm} {holes : Holes} {sug : Suggestion}
    (hproper : ∀ r ∈ sug.replacements, r.span.start.place < r.span.stop.place)
    (hstands : ∀ r ∈ sug.replacements, ∃ c ∈ Cell.ofText text, c.origin = some r.span.start)
    (hdisjoint : sug.replacements.Pairwise fun r q => r.span.Disjoint q.span)
    (hinProof : ∀ e ∈ sug.edits, ∃ s ∈ t.proof, s.span.Covers e.span)
    (hoccurrence : ∀ e ∈ sug.edits, ∃ hole ∈ holes, hole.name = e.oldText ∧ e.span ∈ hole.span :: hole.uses) :
    sug.Compatible text t holes where
  proper := hproper
  stands := hstands
  disjoint := hdisjoint
  inProof := hinProof
  occurrence := hoccurrence
  once := by
    have hedits := List.pairwise_map.1 (List.pairwise_cons.1 hdisjoint).2
    refine List.pairwise_map.2 (hedits.imp_of_mem fun {e f} he _ hdisjoint heq => ?_)
    have hlt := hproper _ (List.mem_cons_of_mem _ (List.mem_map_of_mem he))
    have hstart := Span.contains_iff.2 ⟨le_refl e.span.start.place, hlt⟩
    exact hdisjoint e.span.start hstart (heq ▸ hstart)
  anyOrder _ horder := Replacement.foldl_apply_perm hdisjoint horder _

end Suggestion

namespace Thm.Occupied

variable {ls : List Lexeme} {t : Thm} {holes : Holes} {spans : List Span} {s : Step} {τ : Subst}

/-- What is changed with a hole has no place in common with the step. -/
theorem disjoint_step (h : t.Occupied ls holes spans) (hs : s ∈ t.proof) {hole : Hole} (hhole : hole ∈ holes)
    {e : Edit} (he : e ∈ Step.holeEdits s τ hole) : s.span.Disjoint e.span := by
  obtain ⟨hline, -, hplace⟩ := Step.of_mem_holeEdits he
  have ho : e.span ∈ spans :=
    h.mem_spans hhole ((Step.spans_holeEdits s τ hole).subset (List.mem_map_of_mem he))
  obtain ⟨u, hu, hcovers⟩ := h.inStep _ ho
  rcases eq_or_of_pairwise h.steps.disjoint (List.mem_map_of_mem hs) (List.mem_map_of_mem hu) with heq | hd | hd
  · -- inside the step neither a use nor a hole from an earlier line is changed
    rw [← heq] at hcovers
    rcases hplace with hfirst | ⟨-, hout⟩
    · have hlines := Position.line_le_of_place_le (hcovers.1.trans (h.ordered.proper _ ho).le)
      rw [hfirst] at hlines
      exact absurd hline (Nat.not_lt.2 hlines)
    · exact absurd hcovers hout
  · exact hd.of_covers hcovers
  · exact hd.symm.of_covers hcovers

theorem disjoint_edits (h : t.Occupied ls holes spans) (s : Step) (τ : Subst) :
    ((holes.flatMap (Step.holeEdits s τ)).map (·.span)).Pairwise Span.Disjoint := by
  have hwritten : (holes.flatMap Hole.written).Pairwise Span.Disjoint :=
    h.written.perm.symm.pairwise h.ordered.disjoint Span.Disjoint.symm
  rw [List.map_flatMap]
  exact hwritten.sublist (List.Sublist.flatMap_right holes fun hole _ => Step.spans_holeEdits s τ hole)

/-- The changes that go with an alternative for a step. -/
theorem compatible (h : t.Occupied ls holes spans) {text : String}
    (hls : ls.Sublist (Lexeme.ofTokens (Token.scan text))) (hs : s ∈ t.proof)
    (hstart : ∃ l ∈ ls, l.span.start = s.span.start) {thm : Rule} {alt : Step}
    (halt : Step.instantiate? thm holes s τ = some alt) :
    (Suggestion.replace s alt).Compatible text t holes := by
  have hedits : (Suggestion.replace s alt).edits = holes.flatMap (Step.holeEdits s τ) := by
    rw [Step.eq_of_instantiate? halt]
    rfl
  -- each edit is at an occurrence of its hole
  have hmem : ∀ e ∈ (Suggestion.replace s alt).edits, e.span ∈ spans ∧ s.span.Disjoint e.span ∧
      ∃ hole ∈ holes, hole.name = e.oldText ∧ e.span ∈ hole.span :: hole.uses := by
    intro e he
    rw [hedits] at he
    obtain ⟨hole, hhole, he⟩ := List.mem_flatMap.1 he
    obtain ⟨-, hname, hplace⟩ := Step.of_mem_holeEdits he
    refine ⟨?_, h.disjoint_step hs hhole he, hole, hhole, hname.symm, ?_⟩
    · exact h.mem_spans hhole ((Step.spans_holeEdits s τ hole).subset (List.mem_map_of_mem he))
    · exact List.mem_cons.2 (hplace.imp_right And.left)
  have hcell : ∀ p : Position, (∃ l ∈ ls, l.span.start = p) → ∃ c ∈ Cell.ofText text, c.origin = some p := by
    rintro _ ⟨l, hl, rfl⟩
    exact Lexeme.exists_cell (hls.subset hl)
  refine .of_disjoint ?_ ?_ ?_ (fun e he => h.inStep _ (hmem e he).1) fun e he => (hmem e he).2.2
  · refine List.forall_mem_cons.2 ⟨h.steps.proper s.span (List.mem_map_of_mem hs), fun r hr => ?_⟩
    obtain ⟨e, he, rfl⟩ := List.mem_map.1 hr
    exact h.ordered.proper _ (hmem e he).1
  · refine List.forall_mem_cons.2 ⟨hcell _ hstart, fun r hr => ?_⟩
    obtain ⟨e, he, rfl⟩ := List.mem_map.1 hr
    exact hcell _ (h.starts _ (hmem e he).1)
  · refine List.pairwise_cons.2 ⟨fun r hr => ?_, ?_⟩
    · obtain ⟨e, he, rfl⟩ := List.mem_map.1 hr
      exact (hmem e he).2.1
    · have hpairwise := h.disjoint_edits s τ
      rw [← hedits, List.pairwise_map] at hpairwise
      exact List.pairwise_map.2 hpairwise

end Thm.Occupied

/-! ### Suggestions of a text -/

/-- Names to use instead of one that is not declared come without further changes. -/
theorem Step.Elaborates.nameSuggestions {scope : Scope} {thm : Rule} {es : List Expr} {hs : Holes}
    {steps : List Step} {others : List Suggestion} {cs : List Holes.Call} {n : Notes}
    (h : Elaborates scope thm es hs steps others cs n) :
    ∀ sug ∈ others, ∃ e ∈ es, sug.span = e.head.span ∧ sug.edits = [] := by
  induction h with
  | nil => exact List.forall_mem_nil _
  | unnamed _ _ _ _ ih =>
    intro sug hsug
    rcases List.mem_append.1 hsug with hsug | hsug
    · obtain ⟨d, -, rfl⟩ := List.mem_map.1 hsug
      exact ⟨_, List.mem_cons_self .., rfl, rfl⟩
    · exact List.exists_mem_cons_of_exists (ih sug hsug)
  | named _ _ _ _ _ _ ih => exact fun sug hsug => List.exists_mem_cons_of_exists (ih sug hsug)

theorem Thm.exists_expr_of_step {scope : Scope} {rule : Rule} {proof : List Expr} {s : Step}
    (hs : s ∈ (prove scope rule proof).value.proof) : ∃ e ∈ proof, e.span = s.span := by
  have hsite := List.mem_map_of_mem (f := fun s : Step => (s.head, s.span, s.rule)) hs
  rw [sites_prove] at hsite
  obtain ⟨e, he, hsome⟩ := List.mem_filterMap.1 hsite
  obtain ⟨r, -, heq⟩ := Option.map_eq_some_iff.1 hsome
  exact ⟨e, he, congrArg (·.2.1) heq⟩

namespace Document

variable {imports : List Table} {searchLimit : Nat} {text : String}

/-- The changes of every suggestion go together. -/
theorem compatible_check {sug : Suggestion} (h : sug ∈ (check imports searchLimit text).suggestions) :
    ∃ (i : Nat) (t : Thm) (b : ThmBlock), (check imports searchLimit text).decls[i]? = some (.thm t) ∧
      .thm b ∈ (Block.readAll (Token.scan text)).value ∧
      (Thm.prove (scopeAt imports searchLimit text i) t.rule b.proof).value = t ∧
      sug ∈ Suggestion.ofDecl (.thm t) ∧
      sug.Compatible text t (Thm.created (scopeAt imports searchLimit text i) t.rule b.proof) := by
  obtain ⟨d, hd, hsug⟩ := List.mem_flatMap.1 h
  obtain ⟨i, hi⟩ := List.getElem?_of_mem hd
  cases d with
  | thm t =>
    obtain ⟨b, ls, spans, hb, ht, hls, hproof, hoccupied⟩ := exists_occupied_of_thm hi
    refine ⟨i, t, b, hi, hb, ht, hsug, ?_⟩
    have hordered : Span.Ordered (ls.map (·.span)) := (Lexeme.ordered_spans text).sublist (hls.map _)
    have hlaid : ∀ e ∈ b.proof, e.LaidOut ls := fun e he => Expr.laidOut_readAll hordered (hproof ▸ he)
    rcases List.mem_append.1 hsug with hname | halternative
    · rw [← ht] at hname
      obtain ⟨cs, -, helaborates⟩ := Thm.exists_elaborates (scopeAt imports searchLimit text i) t.rule b.proof
      obtain ⟨e, he, hspan, hedits⟩ := helaborates.nameSuggestions sug hname
      obtain ⟨l, hl, hhead, -⟩ := (hlaid e he).exists_head
      have hspan : sug.span = l.span := by rw [hspan, ← hhead, Lexeme.span]
      have hown : sug.replacements = [⟨l.span, sug.text⟩] := by rw [Suggestion.replacements, hedits, hspan]; rfl
      refine .of_disjoint ?_ ?_ ?_ (by simp [hedits]) (by simp [hedits])
      · rw [hown, List.forall_mem_singleton]
        exact hordered.proper _ (List.mem_map_of_mem hl)
      · rw [hown, List.forall_mem_singleton]
        exact Lexeme.exists_cell (hls.subset hl)
      · rw [hown]
        exact List.pairwise_singleton ..
    · obtain ⟨⟨s, alts⟩, hs, hsug⟩ := List.mem_flatMap.1 halternative
      obtain ⟨alt, halt, rfl⟩ := List.mem_map.1 hsug
      rw [← ht] at hs
      have haligned := (Thm.yields_prove (scopeAt imports searchLimit text i) t.rule b.proof).2.2
      obtain ⟨goals, hchecked⟩ := Thm.exists_checked haligned hs
      have hmem := Thm.mem_proof_of_mem_checked hchecked
      obtain ⟨τ, -, hτ⟩ := List.mem_filterMap.1 ((Thm.goals_prove hchecked).2 alt halt)
      obtain ⟨e, he, hspan⟩ := Thm.exists_expr_of_step hmem
      obtain ⟨l, hl, -, hstart⟩ := (hlaid e he).exists_head
      rw [ht] at hmem
      exact hoccupied.compatible hls hmem ⟨l, hl, hstart.trans (congrArg Span.start hspan)⟩ hτ
  | _ => cases hsug

/-- A hole that is written twice before the step that would prove a goal and once after it. -/
def scattered : String := withProof "m(f(x, x), p)\nb(p, y)\nm(x, y)"

theorem compatible_scattered : ∃ sug ∈ (check [] 5 scattered).suggestions,
    Cell.text (sug.replacements.reverse.foldl Replacement.apply (Cell.ofText scattered)) =
      withProof "m(f(p, p), p)\nb(p, p)\nm(p, y)" ∧
    ∃ (i : Nat) (t : Thm) (b : ThmBlock), (check [] 5 scattered).decls[i]? = some (.thm t) ∧
      .thm b ∈ (Block.readAll (Token.scan scattered)).value ∧
      (Thm.prove (scopeAt [] 5 scattered i) t.rule b.proof).value = t ∧
      sug ∈ Suggestion.ofDecl (.thm t) ∧
      sug.Compatible scattered t (Thm.created (scopeAt [] 5 scattered i) t.rule b.proof) := by
  have hsug : ∃ sug ∈ (check [] 5 scattered).suggestions,
      Cell.text (sug.replacements.reverse.foldl Replacement.apply (Cell.ofText scattered)) =
        withProof "m(f(p, p), p)\nb(p, p)\nm(p, y)" := by
    decide +kernel
  obtain ⟨sug, hsug, htext⟩ := hsug
  exact ⟨sug, hsug, htext, compatible_check hsug⟩

end Document

end Sequitur
