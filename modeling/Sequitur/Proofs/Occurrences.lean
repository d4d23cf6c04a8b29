import Sequitur.Proofs.Alternatives
import Sequitur.Proofs.ProofStates

/-!
# Where holes are written

The places where the holes of a proof are written stand one after the other, each inside one step
(`Thm.exists_occupied`). For an argument that does not resolve becomes one hole or one use of a hole as a
whole, and only the arguments of one that does are looked at further: what is written are expressions none
of which is inside another (`Expr.Picks`).

An alternative for a step changes holes that were written before the step. It does so line by line: where a
hole was first written on the line of the step, none of its occurrences is changed, and otherwise all are
that stop before the step (`Document.fixes_check`). So whether an earlier occurrence is changed depends on
where lines end (`Document.not_fixes`).
-/

namespace Sequitur

open Noted

/-! ### Expressions none of which is inside another -/

namespace Expr

/-- Some of the expressions and, in place of others, such a choice of their arguments. -/
inductive Picks : List Expr → List Expr → Prop where
  | nil : Picks [] []
  | skip {e : Expr} {es us : List Expr} : Picks es us → Picks (e :: es) us
  | whole {e : Expr} {es us : List Expr} : Picks es us → Picks (e :: es) (e :: us)
  | inside {e : Expr} {es us vs : List Expr} : Picks e.args vs → Picks es us → Picks (e :: es) (vs ++ us)

namespace Picks

variable {es fs us vs : List Expr}

theorem none (es : List Expr) : Picks es [] := by
  induction es with
  | nil => exact .nil
  | cons e es ih => exact ih.skip

theorem append (hes : Picks es us) (hfs : Picks fs vs) : Picks (es ++ fs) (us ++ vs) := by
  induction hes with
  | nil => exact hfs
  | skip _ ih => exact ih.skip
  | whole _ ih => exact ih.whole
  | inside hargs _ _ ih =>
    rw [List.append_assoc]
    exact .inside hargs ih

end Picks

variable {ls : List Lexeme} {e : Expr}

theorem LaidOut.args (h : e.LaidOut ls) :
    Span.Ordered (e.args.map (·.span)) ∧ ∀ a ∈ e.args, e.span.Covers a.span ∧ a.LaidOut ls := by
  cases h with
  | leaf => exact ⟨⟨by simp [Expr.leaf], .nil⟩, by simp [Expr.leaf]⟩
  | call _ hcovers hordered hargs => exact ⟨hordered, fun a ha => ⟨hcovers a ha, hargs a ha⟩⟩

/-- The head of an expression is a lexeme, and the expression starts with it. -/
theorem LaidOut.exists_head (h : e.LaidOut ls) : ∃ l ∈ ls, l.ref = e.head ∧ l.span.start = e.span.start := by
  cases h with
  | @leaf before after l hls => exact ⟨l, by simp [hls], rfl, rfl⟩
  | @call head close args hcloses =>
    obtain ⟨before, paren, inner, after, hls, -⟩ := hcloses
    exact ⟨head, by simp [hls], rfl, rfl⟩

theorem Picks.laidOut {es us : List Expr} (h : Picks es us) (hlaid : ∀ e ∈ es, e.LaidOut ls) :
    ∀ u ∈ us, u.LaidOut ls := by
  induction h with
  | nil => exact hlaid
  | skip _ ih => exact ih (List.forall_mem_cons.1 hlaid).2
  | whole _ ih =>
    obtain ⟨he, hes⟩ := List.forall_mem_cons.1 hlaid
    exact List.forall_mem_cons.2 ⟨he, ih hes⟩
  | inside _ _ ihargs ih =>
    obtain ⟨he, hes⟩ := List.forall_mem_cons.1 hlaid
    exact List.forall_mem_append.2 ⟨ihargs fun a ha => (he.args.2 a ha).2, ih hes⟩

end Expr

namespace Expr.Picks

variable {ls : List Lexeme} {es us : List Expr}

/-- What is picked is inside one of the expressions. -/
theorem exists_covers (h : Picks es us) (hlaid : ∀ e ∈ es, e.LaidOut ls) :
    ∀ u ∈ us, ∃ e ∈ es, e.span.Covers u.span := by
  induction h with
  | nil => simp
  | skip _ ih =>
    intro u hu
    exact List.exists_mem_cons_of_exists (ih (List.forall_mem_cons.1 hlaid).2 u hu)
  | whole _ ih =>
    intro u hu
    rcases List.mem_cons.1 hu with rfl | hu
    · exact List.exists_mem_cons_of _ ⟨le_refl _, le_refl _⟩
    · exact List.exists_mem_cons_of_exists (ih (List.forall_mem_cons.1 hlaid).2 u hu)
  | inside _ _ ihargs ih =>
    obtain ⟨he, hes⟩ := List.forall_mem_cons.1 hlaid
    intro u hu
    rcases List.mem_append.1 hu with hu | hu
    · obtain ⟨a, ha, hcovers⟩ := ihargs (fun a ha => (he.args.2 a ha).2) u hu
      exact List.exists_mem_cons_of _ ((he.args.2 a ha).1.trans hcovers)
    · exact List.exists_mem_cons_of_exists (ih hes u hu)

theorem stop_le {e : Expr} (h : Picks es us) (hlaid : ∀ e ∈ es, e.LaidOut ls)
    (hes : Span.Ordered ((e :: es).map (·.span))) : ∀ s ∈ us.map (·.span), e.span.stop.place ≤ s.start.place := by
  intro s hs
  obtain ⟨u, hu, rfl⟩ := List.mem_map.1 hs
  obtain ⟨f, hf, hcovers⟩ := h.exists_covers hlaid u hu
  exact ((List.pairwise_cons.1 hes.apart).1 _ (List.mem_map_of_mem hf)).trans hcovers.1

/-- What is picked stands one after the other as the expressions do. -/
theorem ordered (h : Picks es us) (hlaid : ∀ e ∈ es, e.LaidOut ls) (hes : Span.Ordered (es.map (·.span))) :
    Span.Ordered (us.map (·.span)) := by
  induction h with
  | nil => exact hes
  | skip _ ih => exact ih (List.forall_mem_cons.1 hlaid).2 (hes.sublist (List.sublist_cons_self ..))
  | whole h ih =>
    obtain ⟨-, hlaid⟩ := List.forall_mem_cons.1 hlaid
    refine (ih hlaid (hes.sublist (List.sublist_cons_self ..))).cons ?_ (h.stop_le hlaid hes)
    exact hes.proper _ (List.mem_cons_self ..)
  | @inside e es us vs hargs h ihargs ih =>
    obtain ⟨he, hlaid⟩ := List.forall_mem_cons.1 hlaid
    have hargsLaid : ∀ a ∈ e.args, a.LaidOut ls := fun a ha => (he.args.2 a ha).2
    rw [List.map_append]
    refine (ihargs hargsLaid he.args.1).append (ih hlaid (hes.sublist (List.sublist_cons_self ..))) ?_
    intro s hs t ht
    obtain ⟨v, hv, rfl⟩ := List.mem_map.1 hs
    -- it stops where the expression does or before
    obtain ⟨a, ha, hcovers⟩ := hargs.exists_covers hargsLaid v hv
    exact ((he.args.2 a ha).1.trans hcovers).2.trans (h.stop_le hlaid hes t ht)

end Expr.Picks

/-! ### Occurrences of holes -/

namespace Hole

/-- Where a hole is written, in order. The place of an argument that is missing does not count. -/
def written (h : Hole) : List Span := if h.span.isEmpty then h.uses else h.span :: h.uses

theorem written_use (h : Hole) (span : Span) :
    written { h with uses := h.uses ++ [span] } = h.written ++ [span] := by
  unfold written
  split
  · rfl
  · rfl

theorem written_eq_cons {h : Hole} (hspan : h.span.isEmpty = false) : h.written = h.span :: h.uses := by
  rw [written, hspan]
  rfl

end Hole

/-- The holes are written at these spans, each hole in the order of the spans. -/
structure Holes.WrittenAt (spans : List Span) (hs : Holes) : Prop where
  nodup : (hs.map Hole.name).Nodup
  perm : (hs.flatMap Hole.written).Perm spans
  inOrder : ∀ h ∈ hs, h.written.Sublist spans

namespace Holes

theorem useAt_of_notMem {hs : Holes} {name : String} (h : name ∉ hs.map Hole.name) (span : Span) :
    hs.useAt name span = hs := by
  refine (List.map_congr_left fun x hx => if_neg fun he => h ?_).trans (List.map_id hs)
  exact List.mem_map.2 ⟨x, hx, beq_iff_eq.1 he⟩

theorem perm_useAt {hs : Holes} {name : String} (hnodup : (hs.map Hole.name).Nodup)
    (h : name ∈ hs.map Hole.name) (span : Span) :
    ((hs.useAt name span).flatMap Hole.written).Perm (hs.flatMap Hole.written ++ [span]) := by
  induction hs with
  | nil => cases h
  | cons x hs ih =>
    rw [List.map_cons] at hnodup h
    obtain ⟨hx, hnodup⟩ := List.nodup_cons.1 hnodup
    rw [useAt, List.map_cons, List.flatMap_cons, List.flatMap_cons, List.append_assoc]
    by_cases hname : x.name = name
    · -- no other hole has the name
      have hrest := useAt_of_notMem (hname ▸ hx) span
      rw [useAt] at hrest
      rw [if_pos (beq_iff_eq.2 hname), Hole.written_use, hrest, List.append_assoc]
      exact List.perm_append_comm.append_left x.written
    · rw [if_neg (by simpa using hname)]
      exact (ih hnodup ((List.mem_cons.1 h).resolve_left (Ne.symm hname))).append_left x.written

namespace WrittenAt

variable {spans : List Span} {hs : Holes}

theorem nil : WrittenAt [] [] := ⟨List.nodup_nil, .nil, nofun⟩

theorem concat (h : hs.WrittenAt spans) {hole : Hole} (hnew : hole.name ∉ hs.map Hole.name) :
    (hs ++ [hole]).WrittenAt (spans ++ hole.written) where
  nodup := nodup_concat h.nodup hnew
  perm := by
    rw [List.flatMap_append, List.flatMap_singleton]
    exact h.perm.append_right _
  inOrder x hx := by
    rcases List.mem_append.1 hx with hx | hx
    · exact (h.inOrder x hx).trans (List.sublist_append_left ..)
    · rw [List.mem_singleton.1 hx]
      exact List.sublist_append_right ..

theorem useAt (h : hs.WrittenAt spans) {name : String} (hname : name ∈ hs.map Hole.name) (span : Span) :
    (hs.useAt name span).WrittenAt (spans ++ [span]) where
  nodup := by
    rw [map_name_useAt]
    exact h.nodup
  perm := (perm_useAt h.nodup hname span).trans (h.perm.append_right _)
  inOrder x hx := by
    obtain ⟨y, hy, rfl⟩ := List.mem_map.1 hx
    split
    · rw [Hole.written_use]
      exact (h.inOrder y hy).append (.refl _)
    · exact (h.inOrder y hy).trans (List.sublist_append_left ..)

end WrittenAt

theorem WrittenAt.fresh {spans : List Span} {hs : Holes} (h : hs.WrittenAt spans) (token : Token.Ref)
    (span : Span) (want : Param) : (hs ++ [hs.fresh token span want]).WrittenAt
      (spans ++ (hs.fresh token span want).written) :=
  h.concat (hs.name_fresh_notMem token span want)

end Holes

/-! ### Occurrences along elaboration -/

variable {scope : Scope} {params : List Param} {spans : List Span}

/-- A leaf is written at the expression or nowhere. -/
theorem Expr.Leaf.exists_written {want : Param} {e : Expr} {hs : Holes} {t : Term} {c : List Holes.Call}
    (h : e.Leaf scope params want hs t c) (hwritten : hs.WrittenAt spans) :
    ∃ us, Picks [e] us ∧ (hs.run c).WrittenAt (spans ++ us.map (·.span)) := by
  -- a new hole in the place of the expression
  have hnew : ∀ hole : Hole, hole.span = e.span → hole.uses = [] → hole.name ∉ hs.map Hole.name →
      ∃ us, Picks [e] us ∧ (hs ++ [hole]).WrittenAt (spans ++ us.map (·.span)) := by
    intro hole hspan huses hname
    have hconcat := hwritten.concat hname
    rw [Hole.written, hspan, huses] at hconcat
    split at hconcat
    · exact ⟨[], .none [e], by simpa using hconcat⟩
    · exact ⟨[e], .whole .nil, hconcat⟩
  cases h with
  | var => exact ⟨[], .none [e], by simpa using hwritten⟩
  | use hhole =>
    have hname : e.head.text ∈ hs.map Hole.name := Holes.isSome_find?.1 (by rw [hhole]; rfl)
    exact ⟨[e], .whole .nil, hwritten.useAt hname e.span⟩
  | named _ hhole => exact hnew _ rfl rfl (Holes.find?_eq_none.1 hhole)
  | fresh => exact hnew _ rfl rfl (hs.name_fresh_notMem e.head e.span want)

theorem Expr.Fills.exists_written {head : Token.Ref} {wants : List Param} {es : List Expr} {hs : Holes}
    {ts : List Term} {cs : List Holes.Call} {n : Notes} (h : Fills scope params head wants es hs ts cs n)
    (hwritten : hs.WrittenAt spans) :
    ∃ us, Picks es us ∧ (hs.run cs).WrittenAt (spans ++ us.map (·.span)) := by
  induction h generalizing spans with
  | done _ es => exact ⟨[], .none es, by simpa using hwritten⟩
  | @missing head want _ hs _ _ _ _ ih =>
    -- a missing argument is written nowhere
    have hnowhere : (hs.fresh head (.empty head.span.stop) want).written = [] := if_pos (beq_self_eq_true _)
    have hfresh := hwritten.fresh head (.empty head.span.stop) want
    rw [hnowhere, List.append_nil] at hfresh
    exact ih hfresh
  | leaf hleaf _ _ _ ih =>
    obtain ⟨us, hus, hwritten⟩ := hleaf.exists_written hwritten
    obtain ⟨vs, hvs, hwritten⟩ := ih hwritten
    rw [Holes.run_append]
    exact ⟨us ++ vs, hus.append hvs, by simpa using hwritten⟩
  | app _ _ _ _ _ _ ihargs ih =>
    obtain ⟨us, hus, hwritten⟩ := ihargs hwritten
    obtain ⟨vs, hvs, hwritten⟩ := ih hwritten
    rw [Holes.run_append]
    exact ⟨us ++ vs, .inside hus hvs, by simpa using hwritten⟩

namespace Step

/-- Whether an expression of a proof names a rule. Others are no steps. -/
def isNamed (scope : Scope) (e : Expr) : Bool := (rule? scope e.head.text).isSome

theorem Elaborates.exists_written {thm : Rule} {es : List Expr} {hs : Holes} {steps : List Step}
    {others : List Suggestion} {cs : List Holes.Call} {n : Notes}
    (h : Elaborates scope thm es hs steps others cs n) (hwritten : hs.WrittenAt spans) :
    ∃ us, Expr.Picks (es.filter (isNamed scope)) us ∧ (hs.run cs).WrittenAt (spans ++ us.map (·.span)) := by
  induction h generalizing spans with
  | nil => exact ⟨[], .nil, by simpa using hwritten⟩
  | unnamed hrule _ _ _ ih =>
    rw [List.filter_cons_of_neg (by simp [isNamed, hrule])]
    exact ih hwritten
  | named hrule _ _ hargs _ _ ih =>
    rw [List.filter_cons_of_pos (by simp [isNamed, hrule]), Holes.run_append]
    obtain ⟨us, hus, hwritten⟩ := hargs.exists_written hwritten
    obtain ⟨vs, hvs, hwritten⟩ := ih hwritten
    exact ⟨us ++ vs, .inside hus hvs, by simpa using hwritten⟩

end Step

/-! ### Occurrences in a proof -/

/-- Where the holes of a theorem are written, if its proof is read off the lexemes `ls`. -/
structure Thm.Occupied (ls : List Lexeme) (t : Thm) (holes : Holes) (spans : List Span) : Prop where
  written : holes.WrittenAt spans
  ordered : Span.Ordered spans
  steps : Span.Ordered (t.proof.map (·.span))
  inStep : ∀ o ∈ spans, ∃ s ∈ t.proof, s.span.Covers o
  starts : ∀ o ∈ spans, ∃ l ∈ ls, l.span.start = o.start

theorem Thm.exists_occupied (scope : Scope) (rule : Rule) {ls : List Lexeme} {proof : List Expr}
    (hls : Span.Ordered (ls.map (·.span))) (hproof : proof = (Expr.readAll ls).value) :
    ∃ spans, (prove scope rule proof).value.Occupied ls (created scope rule proof) spans := by
  have hlaid : ∀ e ∈ proof.filter (Step.isNamed scope), e.LaidOut ls := fun e he =>
    Expr.laidOut_readAll hls (hproof ▸ List.mem_of_mem_filter he)
  have hproof : Span.Ordered (proof.map (·.span)) := hproof ▸ Expr.ordered_readAll hls
  obtain ⟨cs, hcreated, helaborates⟩ := exists_elaborates scope rule proof
  obtain ⟨us, hus, hwritten⟩ := helaborates.exists_written .nil
  rw [← hcreated, List.nil_append] at hwritten
  have hordered := hus.ordered hlaid (hproof.sublist (List.filter_sublist.map _))
  refine ⟨_, hwritten, hordered, ordered_prove scope rule hproof, fun o ho => ?_, fun o ho => ?_⟩
  · obtain ⟨u, hu, rfl⟩ := List.mem_map.1 ho
    obtain ⟨e, he, hcovers⟩ := hus.exists_covers hlaid u hu
    obtain ⟨he, hnamed⟩ := List.mem_filter.1 he
    obtain ⟨r, hr⟩ := Option.isSome_iff_exists.1 hnamed
    -- a named expression is one of the steps
    have hsite : (e.head, e.span, r.2) ∈
        (prove scope rule proof).value.proof.map fun s => (s.head, s.span, s.rule) := by
      rw [sites_prove]
      exact List.mem_filterMap.2 ⟨e, he, by rw [hr]; rfl⟩
    obtain ⟨s, hs, heq⟩ := List.mem_map.1 hsite
    have hspan : s.span = e.span := congrArg (·.2.1) heq
    exact ⟨s, hs, hspan ▸ hcovers⟩
  · obtain ⟨u, hu, rfl⟩ := List.mem_map.1 ho
    obtain ⟨l, hl, -, hstart⟩ := (hus.laidOut hlaid u hu).exists_head
    exact ⟨l, hl, hstart⟩

/-- What an ordered relation says of any two of a list. -/
theorem eq_or_of_pairwise {α : Type} {R : α → α → Prop} {l : List α} (h : l.Pairwise R) {a b : α} (ha : a ∈ l)
    (hb : b ∈ l) : a = b ∨ R a b ∨ R b a := by
  by_cases hab : a = b
  · exact .inl hab
  · have hsymm : Std.Symm fun a b => R a b ∨ R b a := ⟨fun _ _ => Or.symm⟩
    have hboth : l.Pairwise fun a b => R a b ∨ R b a := h.imp .inl
    exact .inr (hboth.forall ha hb hab)

/-! ### Changes to holes -/

namespace Hole

/-- A hole that is written and that a substitution turns into something else. -/
def Changed (τ : Subst) (hole : Hole) : Prop :=
  hole.span.isEmpty = false ∧ (hole.term.subst τ).key ≠ hole.name

/-- Where the hole is written before a step. -/
def upstream (s : Step) (hole : Hole) : List Span :=
  (hole.span :: hole.uses).filter (·.stop.placeLE s.span.start)

/-- To write in one place what a substitution makes of the hole. -/
def editAt (τ : Subst) (hole : Hole) (o : Span) : Edit :=
  ⟨o, hole.name, (hole.term.subst τ).key, (hole.term.subst τ).text⟩

instance (τ : Subst) (hole : Hole) : Decidable (hole.Changed τ) := inferInstanceAs (Decidable (_ ∧ _))

end Hole

namespace Step

/-- Each occurrence before the step of a hole that is changed goes along with the step. -/
def FixesUpstream (holes : Holes) (s : Step) (τ : Subst) (alt : Step) : Prop :=
  ∀ hole ∈ holes, hole.Changed τ → ∀ o ∈ hole.upstream s, hole.editAt τ o ∈ alt.edits

/-- What an alternative for the step under `τ` changes before the step. -/
structure Fixes (t : Thm) (holes : Holes) (s : Step) (τ : Subst) (alt : Step) : Prop where
  /-- A hole that is first written on an earlier line is changed throughout. -/
  edited : ∀ hole ∈ holes, hole.Changed τ → hole.span.stop.line < s.span.start.line →
    ∀ o ∈ hole.upstream s, hole.editAt τ o ∈ alt.edits
  /-- Any other is left as it is. -/
  kept : ∀ hole ∈ holes, hole.Changed τ → s.span.start.line ≤ hole.span.stop.line →
    ∀ o ∈ hole.upstream s, ∀ e ∈ alt.edits, e.span ≠ o
  /-- If the steps are on lines of their own, nothing is left. -/
  onLines : (t.proof.map (·.span)).Pairwise (fun u v => u.stop.line < v.start.line) →
    FixesUpstream holes s τ alt

section

variable {s : Step} {τ : Subst} {hole : Hole}

/-- The occurrences that are changed with a hole are some of those where it is written. -/
theorem spans_holeEdits (s : Step) (τ : Subst) (hole : Hole) :
    ((holeEdits s τ hole).map (·.span)).Sublist hole.written := by
  unfold holeEdits
  split
  · exact List.nil_sublist _
  · next hline =>
    have hspan : hole.span.isEmpty = false := by
      rw [Bool.or_eq_true, not_or] at hline
      exact Bool.eq_false_iff.2 hline.1
    rw [Hole.written_eq_cons hspan]
    split
    · exact List.nil_sublist _
    · split
      · exact List.nil_sublist _
      · rw [List.map_map]
        exact (List.map_id _).symm ▸ List.filter_sublist.cons_cons _

/-- An edit is at the first occurrence of a hole from an earlier line, or at a use of it outside the step. -/
theorem of_mem_holeEdits {e : Edit} (h : e ∈ holeEdits s τ hole) :
    hole.span.stop.line < s.span.start.line ∧ e.oldText = hole.name ∧
      (e.span = hole.span ∨ e.span ∈ hole.uses ∧ ¬s.span.Covers e.span) := by
  unfold holeEdits at h
  split at h
  · cases h
  · next hline =>
    simp only [Bool.or_eq_true, decide_eq_true_eq, not_or, not_le] at hline
    refine ⟨hline.2, ?_⟩
    split at h
    · cases h
    · split at h
      · cases h
      · obtain ⟨o, ho, rfl⟩ := List.mem_map.1 h
        refine ⟨rfl, (List.mem_cons.1 ho).imp_right fun ho => ?_⟩
        obtain ⟨ho, hout⟩ := List.mem_filter.1 ho
        rw [Bool.not_eq_true', Bool.eq_false_iff, ne_eq, Bool.and_eq_true, Position.placeLE_iff,
          Position.placeLE_iff] at hout
        exact ⟨ho, hout⟩

/-- A hole that is changed and was written early enough is changed wherever it is written outside the step. -/
theorem mem_holeEdits (hchanged : hole.Changed τ) (hline : hole.span.stop.line < s.span.start.line) {o : Span}
    (ho : o ∈ hole.span :: hole.uses) (hout : ¬s.span.Covers o) : hole.editAt τ o ∈ holeEdits s τ hole := by
  obtain ⟨hspan, hkey⟩ := hchanged
  obtain ⟨image, himage, hsubst⟩ : ∃ image, τ.get? hole.name = some image ∧ hole.term.subst τ = image := by
    rw [Hole.term, Term.subst_hole] at hkey ⊢
    cases himage : τ.get? hole.head.text with
    | none => exact absurd (by rw [himage]; exact Term.key_hole ..) hkey
    | some image => exact ⟨image, himage, rfl⟩
  rw [hsubst] at hkey
  have hearly : ¬(hole.span.isEmpty || decide (s.span.start.line ≤ hole.span.stop.line)) = true := by
    simp [hspan, hline]
  unfold holeEdits Hole.editAt
  rw [if_neg hearly, himage, hsubst]
  simp only [if_neg hkey]
  refine List.mem_map.2 ⟨o, ?_, rfl⟩
  rcases List.mem_cons.1 ho with rfl | ho
  · exact List.mem_cons_self ..
  · refine List.mem_cons_of_mem _ (List.mem_filter.2 ⟨ho, ?_⟩)
    rw [Bool.not_eq_true', Bool.eq_false_iff, ne_eq, Bool.and_eq_true, Position.placeLE_iff, Position.placeLE_iff]
    exact hout

end

end Step

namespace Thm.Occupied

variable {ls : List Lexeme} {t : Thm} {holes : Holes} {spans : List Span} {hole : Hole} {o : Span}

theorem mem_spans (h : t.Occupied ls holes spans) (hhole : hole ∈ holes) (ho : o ∈ hole.written) : o ∈ spans :=
  (h.written.inOrder hole hhole).subset ho

/-- In one place, one hole is written. -/
theorem hole_unique (h : t.Occupied ls holes spans) {hole' : Hole} (hhole : hole ∈ holes) (hhole' : hole' ∈ holes)
    (ho : o ∈ hole.written) (ho' : o ∈ hole'.written) : hole = hole' := by
  have hnodup : (holes.flatMap Hole.written).Nodup := h.written.perm.nodup_iff.2 h.ordered.nodup
  rcases eq_or_of_pairwise (List.nodup_flatMap.1 hnodup).2 hhole hhole' with heq | hdisjoint | hdisjoint
  · exact heq
  · exact absurd ho' (hdisjoint ho)
  · exact absurd ho (hdisjoint ho')

/-- A hole is first written before it is used. -/
theorem stop_le_of_upstream (h : t.Occupied ls holes spans) {s : Step} (hhole : hole ∈ holes)
    (hspan : hole.span.isEmpty = false) (ho : o ∈ hole.upstream s) :
    hole.span.stop.place ≤ s.span.start.place := by
  obtain ⟨ho, hbefore⟩ := List.mem_filter.1 ho
  rw [Position.placeLE_iff] at hbefore
  have hwritten := h.ordered.sublist (h.written.inOrder hole hhole)
  rw [Hole.written_eq_cons hspan] at hwritten
  rcases List.mem_cons.1 ho with rfl | huse
  · exact hbefore
  · calc hole.span.stop.place
      _ ≤ o.start.place := (List.pairwise_cons.1 hwritten.apart).1 o huse
      _ ≤ o.stop.place := (hwritten.proper o ho).le
      _ ≤ s.span.start.place := hbefore

/-- If the steps are on lines of their own, what is written before a step is on an earlier line. -/
theorem line_lt (h : t.Occupied ls holes spans) {s : Step} (hs : s ∈ t.proof)
    (hlines : (t.proof.map (·.span)).Pairwise fun u v => u.stop.line < v.start.line) (ho : o ∈ spans)
    (hbefore : o.stop.place ≤ s.span.start.place) : o.stop.line < s.span.start.line := by
  obtain ⟨u, hu, hcovers⟩ := h.inStep o ho
  have hstart : u.span.start.place < s.span.start.place :=
    hcovers.1.trans_lt ((h.ordered.proper o ho).trans_le hbefore)
  rcases eq_or_of_pairwise hlines (List.mem_map_of_mem hu) (List.mem_map_of_mem hs) with heq | hlt | hlt
  · rw [heq] at hstart
    exact absurd hstart (lt_irrefl _)
  · exact (Position.line_le_of_place_le hcovers.2).trans_lt hlt
  · -- a step that starts before another does not come after it
    have hproper := h.steps.proper s.span (List.mem_map_of_mem hs)
    exact absurd (Position.line_le_of_place_le (hstart.trans hproper).le) (Nat.not_le.2 hlt)

theorem fixes (h : t.Occupied ls holes spans) {s : Step} (hs : s ∈ t.proof) {thm : Rule} {τ : Subst}
    {alt : Step} (halt : Step.instantiate? thm holes s τ = some alt) :
    Step.Fixes t holes s τ alt := by
  have hedits : alt.edits = holes.flatMap (Step.holeEdits s τ) := by rw [Step.eq_of_instantiate? halt]
  have hedited : ∀ hole ∈ holes, hole.Changed τ → hole.span.stop.line < s.span.start.line →
      ∀ o ∈ hole.upstream s, hole.editAt τ o ∈ alt.edits := by
    intro hole hhole hchanged hline o ho
    obtain ⟨ho, hbefore⟩ := List.mem_filter.1 ho
    rw [Position.placeLE_iff] at hbefore
    have hproper := h.ordered.proper o (h.mem_spans hhole (Hole.written_eq_cons hchanged.1 ▸ ho))
    rw [hedits]
    refine List.mem_flatMap.2 ⟨hole, hhole, Step.mem_holeEdits hchanged hline ho fun hcovers => ?_⟩
    exact absurd (hproper.trans_le hbefore) hcovers.1.not_gt
  refine ⟨hedited, fun hole hhole hchanged hline o ho e he heq => ?_, fun hlines hole hhole hchanged o ho => ?_⟩
  · rw [hedits] at he
    obtain ⟨hole', hhole', he⟩ := List.mem_flatMap.1 he
    have ho : o ∈ hole.written := Hole.written_eq_cons hchanged.1 ▸ List.mem_of_mem_filter ho
    have ho' : o ∈ hole'.written := (Step.spans_holeEdits s τ hole').subset (heq ▸ List.mem_map_of_mem he)
    obtain rfl := h.hole_unique hhole hhole' ho ho'
    exact absurd (Step.of_mem_holeEdits he).1 (Nat.not_lt.2 hline)
  · have hspan : hole.span ∈ spans :=
      h.mem_spans hhole (Hole.written_eq_cons hchanged.1 ▸ List.mem_cons_self ..)
    exact hedited hole hhole hchanged
      (h.line_lt hs hlines hspan (h.stop_le_of_upstream hhole hchanged.1 ho)) o ho

end Thm.Occupied

def Block.thm? : Block → Option ThmBlock
  | .thm b => some b
  | _ => none

namespace Document

variable {imports : List Table} {searchLimit i : Nat} {text : String} {t : Thm}

theorem exists_occupied_of_thm (h : (check imports searchLimit text).decls[i]? = some (.thm t)) :
    ∃ (b : ThmBlock) (ls : List Lexeme) (spans : List Span), .thm b ∈ (Block.readAll (Token.scan text)).value ∧
      (Thm.prove (scopeAt imports searchLimit text i) t.rule b.proof).value = t ∧
      ls.Sublist (Lexeme.ofTokens (Token.scan text)) ∧ b.proof = (Expr.readAll ls).value ∧
      t.Occupied ls (Thm.created (scopeAt imports searchLimit text i) t.rule b.proof) spans := by
  obtain ⟨b, hb, -, ht⟩ := exists_block_of_thm h
  obtain ⟨ls, hls, hproof⟩ := Block.exists_readAll_proof hb
  have hordered : Span.Ordered (ls.map (·.span)) := (Lexeme.ordered_spans text).sublist (hls.map _)
  obtain ⟨spans, hoccupied⟩ := Thm.exists_occupied (scopeAt imports searchLimit text i) t.rule hordered hproof
  rw [ht] at hoccupied
  exact ⟨b, ls, spans, hb, ht, hls, hproof, hoccupied⟩

/-- An alternative changes all occurrences before its step of the holes that are first written on an earlier
line, and no others. -/
theorem fixes_check (h : (check imports searchLimit text).decls[i]? = some (.thm t)) :
    ∃ b : ThmBlock, .thm b ∈ (Block.readAll (Token.scan text)).value ∧
      (Thm.prove (scopeAt imports searchLimit text i) t.rule b.proof).value = t ∧
      t.Aligned ∧ ∀ s ∈ t.checked, ∀ alt ∈ s.alternatives,
        (∃ τ ∈ candidates s.goals s.targets s.assumptions t.rule.assumptions,
          Step.instantiate? t.rule (Thm.created (scopeAt imports searchLimit text i) t.rule b.proof) s.toStep τ =
            some alt) ∧
        ∀ τ, Step.instantiate? t.rule (Thm.created (scopeAt imports searchLimit text i) t.rule b.proof) s.toStep τ =
            some alt →
          Step.Fixes t (Thm.created (scopeAt imports searchLimit text i) t.rule b.proof) s.toStep τ alt := by
  obtain ⟨b, ls, spans, hb, ht, -, -, hoccupied⟩ := exists_occupied_of_thm h
  have haligned : t.Aligned := ht ▸ (Thm.yields_prove (scopeAt imports searchLimit text i) t.rule b.proof).2.2
  refine ⟨b, hb, ht, haligned, fun s hs alt halt => ⟨?_, fun τ hτ => ?_⟩⟩
  · have hmem : s ∈ (Thm.prove (scopeAt imports searchLimit text i) t.rule b.proof).value.checked := by rwa [ht]
    exact List.mem_filterMap.1 ((Thm.goals_prove hmem).2 alt halt)
  · exact hoccupied.fixes (Thm.mem_proof_of_mem_checked hs) hτ

/-- A theorem with a proof, after what the proof can refer to. -/
def withProof (steps : String) : String :=
  "type W term W f(W p, W q) axiom m(W p, W q) {|- q -| p} axiom b(W p, W q) {|- f(p, q)} " ++
    "thm t(W p) {|- p} = \x7b" ++ steps ++ "\x7d"

/-- The last step is on the line where `w` is first written, and after the line where `x` is. -/
def spread : String := withProof "m(f(x, x), p)\nm(f(x, w), f(x, x)) b(p, p)"

theorem fixes_spread : ∃ t, (check [] 5 spread).decls[4]? = some (.thm t) ∧
    (t.alternatives.map (·.map fun a => a.edits.map fun e => (e.span.start.line, e.oldText, e.newText))) =
      [[], [], [[(0, "x", "p"), (0, "x", "p"), (1, "x", "p"), (1, "x", "p"), (1, "x", "p")]]] ∧
    ∃ b : ThmBlock, .thm b ∈ (Block.readAll (Token.scan spread)).value ∧
      (Thm.prove (scopeAt [] 5 spread 4) t.rule b.proof).value = t ∧
      t.Aligned ∧ ∀ s ∈ t.checked, ∀ alt ∈ s.alternatives,
        (∃ τ ∈ candidates s.goals s.targets s.assumptions t.rule.assumptions,
          Step.instantiate? t.rule (Thm.created (scopeAt [] 5 spread 4) t.rule b.proof) s.toStep τ = some alt) ∧
        ∀ τ, Step.instantiate? t.rule (Thm.created (scopeAt [] 5 spread 4) t.rule b.proof) s.toStep τ = some alt →
          Step.Fixes t (Thm.created (scopeAt [] 5 spread 4) t.rule b.proof) s.toStep τ alt := by
  have hthm : ∃ t, (check [] 5 spread).decls[4]? = some (.thm t) ∧
      (t.alternatives.map (·.map fun a => a.edits.map fun e => (e.span.start.line, e.oldText, e.newText))) =
        [[], [], [[(0, "x", "p"), (0, "x", "p"), (1, "x", "p"), (1, "x", "p"), (1, "x", "p")]]] :=
    Decl.exists_thm_of_any (by decide +kernel)
  obtain ⟨t, ht, hedits⟩ := hthm
  exact ⟨t, ht, hedits, fixes_check ht⟩

/-- Two steps with something between them. The second one would prove a goal if `x` in the first one were `p`. -/
def crowded (gap : String) : String := withProof ("m(f(x, p), p)" ++ gap ++ "b(p, y)")

/-- An alternative for some step comes without changes, though every candidate changes a hole before it. -/
abbrev Forgets (scope : Scope) (rule : Rule) (proof : List Expr) : Prop :=
  ∃ s ∈ (Thm.prove scope rule proof).value.checked, (∃ alt ∈ s.alternatives, alt.edits = []) ∧
    ∀ τ ∈ candidates s.goals s.targets s.assumptions rule.assumptions,
      ∃ hole ∈ Thm.created scope rule proof, hole.Changed τ ∧ hole.upstream s.toStep ≠ []

/-- On one line, the alternative for the second step leaves the hole in the first one as it is. On two lines
it does not. -/
theorem not_fixes :
    (∃ t, (check [] 5 (crowded " ")).decls[4]? = some (.thm t) ∧
      ∃ b : ThmBlock, .thm b ∈ (Block.readAll (Token.scan (crowded " "))).value ∧
        (Thm.prove (scopeAt [] 5 (crowded " ") 4) t.rule b.proof).value = t ∧
        ∃ s ∈ t.checked, ∃ alt ∈ s.alternatives,
          ∃ τ ∈ candidates s.goals s.targets s.assumptions t.rule.assumptions,
            Step.instantiate? t.rule (Thm.created (scopeAt [] 5 (crowded " ") 4) t.rule b.proof) s.toStep τ =
              some alt ∧
            ¬Step.FixesUpstream (Thm.created (scopeAt [] 5 (crowded " ") 4) t.rule b.proof) s.toStep τ alt) ∧
    ∃ t, (check [] 5 (crowded "\n")).decls[4]? = some (.thm t) ∧
      (t.alternatives.map (·.map fun a => a.edits.map fun e => (e.oldText, e.newText))) =
        [[], [[("x", "p")]]] := by
  have hthm : ∃ t, (check [] 5 (crowded " ")).decls[4]? = some (.thm t) ∧ True :=
    Decl.exists_thm_of_any (by decide +kernel)
  have hforgets : ∀ b ∈ (Block.readAll (Token.scan (crowded " "))).value.filterMap Block.thm?,
      ∀ rule ∈ (b.rule? (scopeAt [] 5 (crowded " ") 4)).value,
        Forgets (scopeAt [] 5 (crowded " ") 4) rule b.proof := by
    decide +kernel
  refine ⟨?_, Decl.exists_thm_of_any (by decide +kernel)⟩
  obtain ⟨t, ht, -⟩ := hthm
  obtain ⟨b, hb, hrule, hprove⟩ := exists_block_of_thm ht
  obtain ⟨s, hs, ⟨alt, halt, hedits⟩, hcandidates⟩ :=
    hforgets b (List.mem_filterMap.2 ⟨_, hb, rfl⟩) t.rule hrule
  obtain ⟨τ, hτ, hsome⟩ := List.mem_filterMap.1 ((Thm.goals_prove hs).2 alt halt)
  obtain ⟨hole, hhole, hchanged, hupstream⟩ := hcandidates τ hτ
  obtain ⟨o, ho⟩ := List.exists_mem_of_ne_nil _ hupstream
  refine ⟨t, ht, b, hb, hprove, s, hprove ▸ hs, alt, halt, τ, hτ, hsome, fun hfixes => ?_⟩
  have hmem := hfixes hole hhole hchanged o ho
  rw [hedits] at hmem
  cases hmem

end Document

end Sequitur
