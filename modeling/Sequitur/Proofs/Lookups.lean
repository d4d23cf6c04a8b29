import Sequitur.Document.Lookup
import Sequitur.Proofs.Accounting
import Sequitur.Proofs.Places

/-!
# Lookups by place

Searching by halves finds in the document of a text what searching one by one finds
(`Document.looksUp_check`). It rests on the order of what is searched: the tokens of a text stand one
after the other, and so do its blocks, whatever is wrong with them (`Block.ordered_ofSections`), since a
block ends with a lexeme of its section. Declarations have the spans of their blocks, so the later of two
neither starts nor stops earlier (`Block.rising_declareAll`).
-/

namespace Sequitur

open Noted

theorem Noted.Yields.and {α : Type} {x : Noted α} {Q R : α → Prop} (hQ : x.Yields Q) (hR : x.Yields R) :
    x.Yields fun a => Q a ∧ R a :=
  ⟨hQ, hR⟩

/-! ### Searching by halves -/

section

variable {α : Type} {p q : α → Bool} {xs : List α}

/-- The property holds on a leading part only. -/
def Leading (p : α → Bool) (xs : List α) : Prop := xs.Pairwise fun x y => p y = true → p x = true

theorem Leading.eq_false {x : α} (h : Leading p (x :: xs)) (hx : p x = false) : ∀ y ∈ x :: xs, p y = false := by
  refine List.forall_mem_cons.2 ⟨hx, fun y hy => Bool.eq_false_iff.2 fun hp => ?_⟩
  rw [(List.pairwise_cons.1 h).1 y hy hp] at hx
  cases hx

theorem Leading.filter_append (h : Leading p xs) : xs.filter p ++ xs.filter (! p ·) = xs := by
  induction xs with
  | nil => rfl
  | cons x xs ih =>
    cases hx : p x with
    | true => simp [hx, ih (List.pairwise_cons.1 h).2]
    | false =>
      have hnone := h.eq_false hx
      rw [List.filter_eq_nil_iff.2 fun y hy => by simp [hnone y hy], List.nil_append,
        List.filter_eq_self.2 fun y hy => by simp [hnone y hy]]

theorem partitionPoint_append {as bs : List α} (ha : ∀ a ∈ as, p a = true) (hb : ∀ b ∈ bs, p b = false) :
    partitionPoint p (as ++ bs).toArray = as.length := by
  refine partitionPoint_eq (by simp) fun i hi => ?_
  rw [List.getElem_toArray, List.getElem_append]
  split
  · next h => simp [ha _ (List.getElem_mem h), h]
  · next h => simp [hb _ (List.getElem_mem _), h]

theorem Leading.partitionPoint_toArray (h : Leading p xs) : partitionPoint p xs.toArray = xs.countP p := by
  rw [List.countP_eq_length_filter]
  conv_lhs => rw [← h.filter_append]
  exact partitionPoint_append (fun a ha => (List.mem_filter.1 ha).2) fun b hb => by
    simpa using (List.mem_filter.1 hb).2

theorem Leading.take_countP (h : Leading p xs) : xs.take (xs.countP p) = xs.filter p := by
  have htake : (xs.filter p ++ xs.filter (! p ·)).take (xs.filter p).length = xs.filter p := List.take_left
  rwa [h.filter_append, ← List.countP_eq_length_filter] at htake

theorem Leading.drop_countP (h : Leading p xs) : xs.drop (xs.countP p) = xs.filter (! p ·) := by
  have hdrop : (xs.filter p ++ xs.filter (! p ·)).drop (xs.filter p).length = xs.filter (! p ·) := List.drop_left
  rwa [h.filter_append, ← List.countP_eq_length_filter] at hdrop

/-- Between the ends of two leading parts are the elements of the one that are not in the other. -/
theorem Leading.drop_take_countP (hp : Leading p xs) (hq : Leading q xs) :
    (xs.take (xs.countP q)).drop (xs.countP p) = xs.filter fun x => !p x && q x := by
  induction xs with
  | nil => rfl
  | cons x xs ih =>
    cases hx : p x with
    | false =>
      have hnone := hp.eq_false hx
      rw [List.countP_eq_zero.2 fun y hy => by simp [hnone y hy], List.drop_zero, hq.take_countP]
      exact List.filter_congr fun y hy => by simp [hnone y hy]
    | true =>
      cases hx' : q x with
      | true =>
        have htail := ih (List.pairwise_cons.1 hp).2 (List.pairwise_cons.1 hq).2
        simpa [hx, hx'] using htail
      | false =>
        have hnone := hq.eq_false hx'
        have hzero : (x :: xs).countP q = 0 := List.countP_eq_zero.2 fun y hy => by simp [hnone y hy]
        rw [hzero, List.take_zero, List.drop_nil]
        exact (List.filter_eq_nil_iff.2 fun y hy => by simp [hnone y hy]).symm

end

/-! ### Spans in order -/

/-- Of two of the spans, the later one neither starts nor stops earlier. -/
def Span.Rising (spans : List Span) : Prop :=
  spans.Pairwise fun s t => s.start.place ≤ t.start.place ∧ s.stop.place ≤ t.stop.place

section

variable {α : Type} {span : α → Span} {xs : List α}

theorem leading_stop (h : Span.Rising (xs.map span)) (p : Position) :
    Leading (fun x => (span x).stop.placeLE p) xs := by
  refine (List.pairwise_map.1 h).imp fun {x y} hxy hy => ?_
  rw [Position.placeLE_iff] at hy ⊢
  exact hxy.2.trans hy

theorem leading_start (h : Span.Rising (xs.map span)) (p : Position) :
    Leading (fun x => (span x).start.placeLT p) xs := by
  refine (List.pairwise_map.1 h).imp fun {x y} hxy hy => ?_
  rw [Position.placeLT_iff] at hy ⊢
  exact hxy.1.trans_lt hy

theorem locate_eq_lt (s : Span) (p : Position) : (s.locate p == .lt) = s.stop.placeLE p := by
  unfold Span.locate
  split
  · next h =>
    obtain ⟨-, hlt⟩ := Span.contains_iff.1 h
    refine (Bool.eq_false_iff.2 fun hle => ?_).symm
    exact absurd (Position.placeLE_iff.1 hle) (not_le.2 hlt)
  · split
    · next h => rw [h]; rfl
    · next h => rw [Bool.eq_false_iff.2 h]; rfl

/-- The first element that does not stop at a place or before, if its span contains the place. -/
theorem findAt?_toArray (h : Span.Rising (xs.map span)) (p : Position) :
    findAt? span xs.toArray p =
      (xs.filter fun x => !(span x).stop.placeLE p).head?.filter fun x => (span x).contains p := by
  have hlead := leading_stop h p
  unfold findAt?
  simp only [locate_eq_lt]
  rw [hlead.partitionPoint_toArray, ← hlead.drop_countP, List.head?_drop, List.getElem?_toArray]

theorem mem_of_findAt? {x : α} {p : Position} (h : findAt? span xs.toArray p = some x) :
    x ∈ xs ∧ (span x).contains p = true := by
  obtain ⟨hx, hcontains⟩ := Option.filter_eq_some_iff.1 h
  rw [List.getElem?_toArray] at hx
  exact ⟨List.mem_of_getElem? hx, hcontains⟩

theorem findAt?_eq_none_iff (h : Span.Rising (xs.map span)) {p : Position} :
    findAt? span xs.toArray p = none ↔ ∀ x ∈ xs, (span x).contains p = false := by
  constructor
  · intro hnone x hx
    refine Bool.eq_false_iff.2 fun hcontains => ?_
    obtain ⟨hstart, hstop⟩ := Span.contains_iff.1 hcontains
    rw [findAt?_toArray h] at hnone
    have hlater : ∀ y, (!(span y).stop.placeLE p) = true ↔ p.place < (span y).stop.place := fun y => by
      rw [Bool.not_eq_true', ← Bool.not_eq_true, Position.placeLE_iff, not_le]
    have hmem : x ∈ xs.filter fun x => !(span x).stop.placeLE p := List.mem_filter.2 ⟨hx, (hlater x).2 hstop⟩
    -- the first element that does not stop earlier does not start later
    obtain ⟨y, ys, hys⟩ := List.exists_cons_of_ne_nil (List.ne_nil_of_mem hmem)
    have hrising := h.sublist ((List.filter_sublist (p := fun x => !(span x).stop.placeLE p)).map span)
    have hy : y ∈ xs.filter fun x => !(span x).stop.placeLE p := hys ▸ List.mem_cons_self ..
    have hy := (hlater y).1 (List.mem_filter.1 hy).2
    rw [hys] at hnone hmem hrising
    have hle : (span y).start.place ≤ (span x).start.place := by
      rcases List.mem_cons.1 hmem with rfl | hmem
      · exact le_refl _
      · exact ((List.pairwise_cons.1 hrising).1 _ (List.mem_map_of_mem hmem)).1
    have hfound : (span y).contains p = true := Span.contains_iff.2 ⟨hle.trans hstart, hy⟩
    rw [List.head?_cons, Option.filter_some, if_pos hfound] at hnone
    cases hnone
  · intro hnone
    refine Option.eq_none_iff_forall_ne_some.2 fun x hx => ?_
    obtain ⟨hmem, hcontains⟩ := mem_of_findAt? hx
    rw [hnone x hmem] at hcontains
    cases hcontains

end

/-! ### Spans of blocks -/

namespace Block

variable {S : Sites} {ls : List Lexeme} {keyword : Token.Ref}

theorem fault_readTermParams {name : Token.Ref} (hname : S.fault name) (hS : S.Cover ls) :
    (readTermParams name ls).Yields fun r => S.fault r.2.1 := by
  cases ls with
  | nil => exact yields_pure hname
  | cons paren ls =>
    unfold readTermParams
    refine yields_ite (fun _ => ?_) fun _ => yields_pure hname
    refine yields_bind (within_readParamList hS.head hS.tail).2 fun list hlist => ?_
    exact yields_ite (fun _ => yields_then fun _ => yields_pure hlist) fun _ => yields_pure hlist

theorem fault_readForm {last : Token.Ref} (hlast : S.fault last) (hS : S.Cover ls) :
    (readForm last ls).Yields fun r => S.fault r.2 := by
  cases ls with
  | nil => exact yields_pure hlast
  | cons brace ls =>
    have hend := fault_lastRef hS.head hS.tail
    unfold readForm
    refine yields_ite (fun _ => ?_) fun _ => yields_then fun _ => yields_pure hend
    split
    · next form close after hcut =>
      obtain ⟨rfl, -, -⟩ := cutLast_eq_some hcut
      exact yields_pure (hS.fault close (by simp))
    · exact yields_then fun _ => yields_pure hend

theorem fault_readRuleBraces {list : ParamList} (hlast : S.fault list.last) (hS : S.Cover list.rest) :
    (readRuleBraces list).Yields fun braced => S.fault braced.last := by
  unfold readRuleBraces
  split
  · exact yields_then fun _ => yields_pure hlast
  · next brace ls hrest =>
    rw [hrest] at hS
    exact (within_readBraced hS).2

theorem fault_readEquals (name : Token.Ref) (hS : S.Cover ls) :
    (readEquals name ls).Yields fun r => ∀ last ∈ r.1, S.fault last := by
  cases ls with
  | nil => exact yields_then fun _ => yields_pure nofun
  | cons equals ls =>
    unfold readEquals
    refine yields_ite (fun _ => yields_pure ?_) fun _ => yields_then fun _ => yields_pure nofun
    rintro last ⟨⟩
    exact hS.head

theorem fault_readProof {last? : Option Token.Ref} (hlast : ∀ last ∈ last?, S.fault last) (hS : S.Cover ls) :
    (readProof last? ls).Yields fun r => ∀ last ∈ r.2.1, S.fault last := by
  cases ls with
  | nil => exact yields_pure hlast
  | cons brace ls =>
    refine yields_bind (within_readBraced hS).2 fun braced hbraced => yields_then fun es => yields_pure ?_
    rintro last ⟨⟩
    exact hbraced

/-- A span from a keyword through a token where faults may be. -/
def SpanIn (S : Sites) (keyword : Token.Ref) (span : Span) : Prop :=
  ∃ last, S.fault last ∧ span = keyword.span.through last.span

theorem spanIn_readTypes (hkeyword : S.fault keyword) (hS : S.Cover ls) :
    (readTypes keyword ls).Yields fun b => SpanIn S keyword b.span := by
  have hlast := fault_lastRef hkeyword hS
  unfold readTypes
  refine yields_then fun _ => yields_ite (fun _ => yields_then fun _ => ?_) fun _ => ?_
  · exact yields_pure ⟨_, hlast, rfl⟩
  · exact yields_pure ⟨_, hlast, rfl⟩

theorem spanIn_readTerm (hS : S.Cover ls) :
    (readTerm keyword ls).Yields fun b? => ∀ b ∈ b?, SpanIn S keyword b.span := by
  cases ls with
  | nil => exact yields_then fun _ => yields_pure nofun
  | cons type ls =>
    unfold readTerm
    refine yields_ite (fun _ => yields_then fun _ => ?_) fun _ => yields_then fun _ => yields_pure nofun
    cases ls with
    | nil => exact yields_then fun _ => yields_pure nofun
    | cons name ls =>
      refine yields_ite (fun _ => ?_) fun _ => yields_then fun _ => yields_pure nofun
      have hname := hS.tail.head
      refine yields_bind ((fault_readTermParams hname hS.tail.tail).and (yields_readTermParams name.ref ls)) ?_
      rintro ⟨params, last, rest⟩ ⟨hlast, -, hrest⟩
      refine yields_bind (fault_readForm hlast (hS.tail.tail.mono hrest.subset)) fun ⟨form, last⟩ hlast => ?_
      refine yields_ite (fun _ => yields_then fun _ => yields_then fun _ => ?_) fun _ => yields_then fun _ => ?_
      · refine yields_pure ?_
        rintro b ⟨⟩
        exact ⟨last, hlast, rfl⟩
      · refine yields_pure ?_
        rintro b ⟨⟩
        exact ⟨last, hlast, rfl⟩

theorem spanIn_readRule (kind : Token.Kind) (hS : S.Cover ls) :
    (readRule keyword kind ls).Yields fun r? => ∀ r ∈ r?, SpanIn S keyword r.1.span := by
  cases ls with
  | nil => exact yields_then fun _ => yields_pure nofun
  | cons name ls =>
    unfold readRule
    refine yields_ite (fun _ => yields_then fun _ => ?_) fun _ => yields_then fun _ => yields_pure nofun
    refine yields_bind ((within_readRuleParams hS.head hS.tail).2.and (yields_readRuleParams name.ref ls)) ?_
    rintro list ⟨hlist, -, hrest⟩
    refine yields_bind (fault_readRuleBraces hlist (hS.tail.mono hrest.subset)) fun braced hbraced =>
      yields_then fun body => ?_
    refine yields_ite (fun _ => yields_then fun _ => yields_pure ?_) fun _ => yields_pure ?_
    · rintro r ⟨⟩
      exact ⟨_, hbraced, rfl⟩
    · rintro r ⟨⟩
      exact ⟨_, hbraced, rfl⟩

theorem spanIn_readThm (hS : S.Cover ls) :
    (readThm keyword ls).Yields fun b? => ∀ b ∈ b?, SpanIn S keyword b.span := by
  unfold readThm
  refine yields_bind ((spanIn_readRule .thmName hS).and (yields_readRule keyword .thmName ls)) ?_
  rintro r? ⟨hspan, hr⟩
  match r? with
  | none => exact yields_pure nofun
  | some (rule, rest) =>
    have hrule := hspan _ rfl
    obtain ⟨-, -, hrest⟩ := hr _ rfl
    have hS := hS.mono hrest.subset
    refine yields_bind ((fault_readEquals rule.name hS).and (yields_readEquals rule.name rest)) ?_
    rintro ⟨last?, rest'⟩ ⟨hlast, hrest'⟩
    refine yields_bind (fault_readProof hlast (hS.mono hrest'.subset)) fun ⟨proof, last?, after⟩ hlast => ?_
    refine yields_then fun _ => yields_pure ?_
    rintro b ⟨⟩
    -- without an equals sign and a proof, the theorem ends where its statement does
    cases last? with
    | none => exact hrule
    | some last => exact ⟨last, hlast last rfl, rfl⟩

/-- The span of a block is from the keyword of its section through one of the lexemes. -/
theorem spanIn_ofSection (s : Section) :
    (ofSection s).Yields fun b? => ∀ b ∈ b?, SpanIn s.sites s.head b.span := by
  have hcover := s.cover_sites
  have hhead : s.sites.fault s.head := hcover.head
  have hbody : s.sites.Cover s.body := hcover.tail
  generalize s.sites = S at hhead hbody
  obtain ⟨keyword, head, body⟩ := s
  cases keyword with
  | typeDecl =>
    show (some <$> readTypes head body).Yields _
    rw [map_eq_pure_bind]
    refine yields_bind (spanIn_readTypes hhead hbody) fun b hb => yields_pure ?_
    rintro b' ⟨⟩
    exact hb
  | termDecl => exact spanIn_readTerm hbody
  | axiomDecl =>
    refine yields_bind (spanIn_readRule .axiomName hbody) fun r? hr => ?_
    cases r? with
    | none => exact yields_pure nofun
    | some r =>
      refine yields_then fun _ => yields_pure ?_
      rintro b ⟨⟩
      exact hr r rfl
  | thmDecl => exact spanIn_readThm hbody
  | target | assume | distinct => exact yields_pure nofun

/-- Blocks stand one after the other, as their sections do. -/
theorem ordered_ofSections {sections : List Section} {before : List Span}
    (h : Span.Ordered (before ++ (sections.flatMap Section.lexemes).map (·.span))) :
    Span.Ordered (before ++ (ofSections sections).value.map span) := by
  induction sections generalizing before with
  | nil => exact h
  | cons s sections ih =>
    have hvalue : (ofSections (s :: sections)).value =
        (ofSection s).value.toList ++ (ofSections sections).value := rfl
    have hlexemes : ((s :: sections).flatMap Section.lexemes).map (·.span) =
        s.head.span :: (s.body.map (·.span) ++ (sections.flatMap Section.lexemes).map (·.span)) := by
      simp [Section.lexemes, Lexeme.span]
    rw [hlexemes] at h
    rw [hvalue]
    cases hb : (ofSection s).value with
    | none =>
      refine ih (h.sublist ((List.Sublist.refl _).append ?_))
      exact (List.sublist_append_right _ _).cons _
    | some b =>
      have hblock : Span.Ordered (before ++ b.span :: (sections.flatMap Section.lexemes).map (·.span)) := by
        obtain ⟨last, hlast, hspan⟩ := spanIn_ofSection s b hb
        rw [hspan]
        obtain ⟨l, hl, rfl⟩ := hlast
        rcases List.mem_cons.1 hl with rfl | hl
        · refine h.sublist ((List.Sublist.refl _).append (.cons_cons _ ?_))
          exact List.sublist_append_right _ _
        · obtain ⟨front, back, hsplit⟩ := List.append_of_mem hl
          rw [hsplit, List.map_append, List.map_cons, List.append_assoc, List.cons_append] at h
          refine h.through.sublist ((List.Sublist.refl _).append (.cons_cons _ ?_))
          exact List.sublist_append_right _ _
      rw [List.append_cons] at hblock
      have hall := ih hblock
      rwa [← List.append_cons] at hall

theorem ordered_readAll (text : String) : Span.Ordered ((readAll (Token.scan text)).value.map span) := by
  have h := Lexeme.ordered_spans text
  rw [← Section.split_append Keyword.startsBlock (Lexeme.ofTokens (Token.scan text)), List.map_append] at h
  show Span.Ordered ([] ++ _)
  exact ordered_ofSections (h.sublist (List.sublist_append_right _ _))

end Block

/-! ### Spans of declarations -/

/-- The declarations of a table are in the order of their places, and before what has the given spans. -/
def Table.Rising (table : Table) (spans : List Span) : Prop :=
  Span.Rising (table.decls.map Decl.span ++ spans)

section

variable {scope : Scope} {rest : List Span}

theorem rising_declare {d : Decl} (h : scope.table.Rising (d.span :: rest)) :
    (scope.declare d).Yields (·.Rising (d.span :: rest)) := by
  unfold Scope.declare
  split
  · next table ht =>
    refine yields_pure ?_
    rw [Table.Rising, (Table.insert_eq_ok ht).2, List.map_append, List.append_assoc]
    obtain ⟨hdecls, hrest, hcross⟩ := List.pairwise_append.1 h
    refine List.pairwise_append.2 ⟨hdecls, List.pairwise_cons.2 ⟨fun s hs => ?_, hrest⟩, fun s hs t ht => ?_⟩
    · rcases List.mem_cons.1 hs with rfl | hs
      · exact ⟨le_refl _, le_refl _⟩
      · exact (List.pairwise_cons.1 hrest).1 s hs
    · refine hcross s hs t ?_
      simpa using ht
  · exact yields_then fun _ => h

theorem TypeBlock.rising_declareNames {span : Span} (names : List Token.Ref)
    (h : scope.table.Rising (span :: rest)) :
    (declareNames scope span names).Yields (·.Rising (span :: rest)) := by
  induction names generalizing scope with
  | nil => exact yields_pure h
  | cons name names ih =>
    unfold declareNames
    refine yields_then fun ok => yields_ite (fun _ => ?_) fun _ => ih h
    exact yields_bind (rising_declare (d := .type ⟨name, span⟩) h) fun table htable => ih htable

/-- What a block declares is at its place. -/
theorem Block.rising_declare {b : Block} (h : scope.table.Rising (b.span :: rest)) :
    (b.declare scope).Yields (·.Rising (b.span :: rest)) := by
  have hdeclare : ∀ d : Decl, d.span = b.span → (scope.declare d).Yields (·.Rising (b.span :: rest)) := by
    intro d hd
    rw [← hd] at h ⊢
    exact Sequitur.rising_declare h
  cases b with
  | types b => exact TypeBlock.rising_declareNames b.names h
  | term b =>
    refine yields_then fun _ => yields_ite (fun _ => yields_pure h) fun _ => ?_
    refine yields_then fun _ => yields_ite (fun _ => yields_pure h) fun _ => ?_
    refine yields_then fun _ => yields_ite (fun _ => yields_pure h) fun _ => ?_
    exact yields_then fun _ => hdeclare _ rfl
  | axm b =>
    refine yields_bind (RuleBlock.yields_site_rule? scope b) fun r? hr => ?_
    cases r? with
    | none => exact yields_pure h
    | some r => exact hdeclare (.axm r) (hr r rfl).2
  | thm b =>
    refine yields_bind (RuleBlock.yields_site_rule? scope b.toRuleBlock) fun r? hr => ?_
    cases r? with
    | none => exact yields_pure h
    | some r =>
      refine yields_bind (Thm.yields_prove scope r b.proof) fun thm hthm => ?_
      have hspan : (Decl.thm thm).span = b.span := by
        rw [← (hr r rfl).2, ← hthm.1]
        rfl
      exact yields_ite (fun _ => yields_then fun _ => hdeclare _ hspan) fun _ => hdeclare _ hspan

theorem Block.rising_declareAll {bs : List Block} (h : scope.table.Rising (bs.map span)) :
    (declareAll scope bs).Yields (·.Rising []) := by
  induction bs generalizing scope with
  | nil => exact yields_pure h
  | cons b bs ih =>
    refine yields_bind (rising_declare h) fun table htable => ih ?_
    exact htable.sublist ((List.Sublist.refl _).append (List.sublist_cons_self ..))

end

/-! ### Documents -/

theorem Span.Ordered.eq_of_contains {spans : List Span} (h : Ordered spans) {i j : Nat} {s t : Span} {p : Position}
    (hi : spans[i]? = some s) (hj : spans[j]? = some t) (hs : s.contains p = true) (ht : t.contains p = true) :
    i = j := by
  -- of two spans that are apart, only one contains the place
  have hlt : ∀ {i j : Nat} {s t : Span}, spans[i]? = some s → spans[j]? = some t → s.contains p = true →
      t.contains p = true → ¬i < j := by
    intro i j s t hi hj hs ht hlt
    obtain ⟨hleni, rfl⟩ := List.getElem?_eq_some_iff.1 hi
    obtain ⟨hlenj, rfl⟩ := List.getElem?_eq_some_iff.1 hj
    have hapart := List.pairwise_iff_getElem.1 h.apart i j hleni hlenj hlt
    exact absurd ((contains_iff.1 hs).2.trans_le (hapart.trans (contains_iff.1 ht).1)) (lt_irrefl _)
  have hij := hlt hi hj hs ht
  have hji := hlt hj hi ht hs
  omega

namespace Document

variable (imports : List Table) (searchLimit : Nat) (text : String)

theorem spans_tokens :
    (check imports searchLimit text).tokens.toList.map (·.span) = (Token.scan text).map (·.span) := by
  refine List.ext_getElem? fun i => ?_
  rw [List.getElem?_map, List.getElem?_map]
  cases ht : (Token.scan text)[i]? with
  | none =>
    have hlength : (check imports searchLimit text).tokens.toList.length = (Token.scan text).length :=
      length_tokens { imports, searchLimit } text
    rw [List.getElem?_eq_none_iff, ← hlength] at ht
    rw [List.getElem?_eq_none ht]
  | some t =>
    obtain ⟨t', ht', hrefined⟩ := getElem?_tokens { imports, searchLimit } text ht
    rw [show (check imports searchLimit text).tokens.toList[i]? = some t' from ht', Option.map_some,
      Option.map_some, hrefined.span]

theorem rising_decls : Span.Rising ((check imports searchLimit text).decls.map Decl.span) := by
  have hempty : ({ imports, searchLimit } : Scope).table.Rising
      ((Block.readAll (Token.scan text)).value.map Block.span) :=
    (Block.ordered_readAll text).rising
  have hall : (check imports searchLimit text).table.Rising [] := Block.rising_declareAll hempty
  rwa [Table.Rising, List.append_nil] at hall

theorem ordered_tokens : Span.Ordered ((check imports searchLimit text).tokens.toList.map (·.span)) := by
  rw [spans_tokens]
  exact (Token.laid_scan text).ordered

theorem findAt?_tokens (p : Position) :
    (check imports searchLimit text).tokenAt? p =
      findAt? Token.span (check imports searchLimit text).tokens.toList.toArray p := by
  rw [Array.toArray_toList]
  rfl

theorem tokenAt?_eq_none_iff {p : Position} :
    (check imports searchLimit text).tokenAt? p = none ↔ p.placeLT (Token.endOf text) = false := by
  have hlaid := Token.laid_scan text
  -- whether a token contains the place is a matter of the spans alone
  have hspans : (∀ t ∈ (check imports searchLimit text).tokens.toList, t.span.contains p = false) ↔
      ∀ t ∈ Token.scan text, t.span.contains p = false := by
    rw [← List.forall_mem_map (P := fun s : Span => s.contains p = false), spans_tokens, List.forall_mem_map]
  rw [findAt?_tokens, findAt?_eq_none_iff (ordered_tokens imports searchLimit text).rising, hspans,
    ← Bool.not_eq_true, Position.placeLT_iff]
  constructor
  · intro hnone hlt
    have hstart : ({} : Position).place ≤ p.place :=
      Prod.Lex.toLex_le_toLex.2 ((Nat.eq_zero_or_pos p.line).elim (fun h => .inr ⟨h.symm, Nat.zero_le _⟩) .inl)
    obtain ⟨t, ht, hcontains⟩ := hlaid.exists_contains p hstart hlt
    rw [hnone t ht] at hcontains
    cases hcontains
  · intro hge t ht
    refine Bool.eq_false_iff.2 fun hcontains => hge ?_
    exact (Span.contains_iff.1 hcontains).2.trans_le (hlaid.le_stop t ht)

theorem tokenAt?_eq_some_iff {p : Position} {t : Token} :
    (check imports searchLimit text).tokenAt? p = some t ↔
      ∃ i : Nat, (check imports searchLimit text).tokens[i]? = some t ∧ t.span.contains p = true ∧
        ∀ (j : Nat) (u : Token), (check imports searchLimit text).tokens[j]? = some u →
          u.span.contains p = true → j = i := by
  have hordered := ordered_tokens imports searchLimit text
  rw [findAt?_tokens]
  simp only [← Array.getElem?_toList]
  generalize (check imports searchLimit text).tokens.toList = ts at hordered
  have hunique : ∀ {i j : Nat} {t u : Token}, ts[i]? = some t → ts[j]? = some u → t.span.contains p = true →
      u.span.contains p = true → j = i := fun hi hj ht hu =>
    hordered.eq_of_contains (by rw [List.getElem?_map, hj]; rfl) (by rw [List.getElem?_map, hi]; rfl) hu ht
  constructor
  · intro h
    obtain ⟨hmem, hcontains⟩ := mem_of_findAt? h
    obtain ⟨i, hi⟩ := List.getElem?_of_mem hmem
    exact ⟨i, hi, hcontains, fun j u hj hu => hunique hi hj hcontains hu⟩
  · rintro ⟨i, hi, hcontains, -⟩
    cases h : findAt? Token.span ts.toArray p with
    | none =>
      rw [(findAt?_eq_none_iff hordered.rising).1 h t (List.mem_of_getElem? hi)] at hcontains
      cases hcontains
    | some u =>
      obtain ⟨hmem, hu⟩ := mem_of_findAt? h
      obtain ⟨j, hj⟩ := List.getElem?_of_mem hmem
      rw [hunique hi hj hcontains hu, hi] at hj
      exact hj.symm

theorem toList_tokensIn (s : Span) :
    ((check imports searchLimit text).tokensIn s).toList = (check imports searchLimit text).tokens.toList.filter
      fun t => s.start.placeLT t.span.stop && t.span.start.placeLT s.stop := by
  have hrising := (ordered_tokens imports searchLimit text).rising
  have hstop := leading_stop hrising s.start
  have hstart := leading_start hrising s.stop
  unfold tokensIn
  have hpoint : ∀ q : Token → Bool, Leading q (check imports searchLimit text).tokens.toList →
      partitionPoint q (check imports searchLimit text).tokens =
        (check imports searchLimit text).tokens.toList.countP q := by
    intro q hq
    rw [← hq.partitionPoint_toArray, Array.toArray_toList]
  rw [hpoint _ hstop, hpoint _ hstart, Array.toList_extract, List.extract_eq_take_drop, ← List.drop_take,
    hstop.drop_take_countP hstart]
  refine List.filter_congr fun t _ => ?_
  congr 1
  rw [Bool.eq_iff_iff, Bool.not_eq_true', ← Bool.not_eq_true, Position.placeLE_iff, Position.placeLT_iff, not_le]

/-- Looking up in the document of a text comes to the same as going through all tokens or all
declarations. -/
structure LooksUp (text : String) (doc : Document) : Prop where
  /-- The one token whose span contains the place. -/
  tokenAt : ∀ (p : Position) (t : Token), doc.tokenAt? p = some t ↔ ∃ i : Nat, doc.tokens[i]? = some t ∧
    t.span.contains p = true ∧ ∀ (j : Nat) (u : Token), doc.tokens[j]? = some u → u.span.contains p = true → j = i
  tokenAt_none : ∀ p : Position, doc.tokenAt? p = none ↔ p.placeLT (Token.endOf text) = false
  tokensIn : ∀ s : Span, (doc.tokensIn s).toList =
    doc.tokens.toList.filter fun t => s.start.placeLT t.span.stop && t.span.start.placeLT s.stop
  declAt : ∀ (p : Position) (d : Decl), doc.declAt? p = some d → d ∈ doc.decls ∧ d.span.contains p = true
  declAt_none : ∀ p : Position, doc.declAt? p = none ↔ ∀ d ∈ doc.decls, d.span.contains p = false

theorem looksUp_check : LooksUp text (check imports searchLimit text) where
  tokenAt _ _ := tokenAt?_eq_some_iff imports searchLimit text
  tokenAt_none _ := tokenAt?_eq_none_iff imports searchLimit text
  tokensIn := toList_tokensIn imports searchLimit text
  declAt _ _ h := mem_of_findAt? h
  declAt_none _ := findAt?_eq_none_iff (rising_decls imports searchLimit text)

end Document

end Sequitur
