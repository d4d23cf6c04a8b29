import Sequitur.Proofs.DeclaringNotes
import Sequitur.Proofs.EarlierBlocks
import Sequitur.Proofs.Segmentation

/-!
# Diagnostics are at tokens

Checking a text leaves diagnostics at tokens of this text that are neither blanks nor comments, sorted by
token, and each token has the first fault that is found at it (`Document.anchored_check`). All notes are
at lexemes of the text (`Document.within_checked`), and a token that comes later in the text starts at a
later place, so the order by place is the order by token.
-/

namespace Sequitur

open Noted

/-! ### Lexemes and tokens -/

/-- A token of a stream that is neither a blank nor a comment. -/
def Token.Ref.IsIn (tokens : List Token) (r : Token.Ref) : Prop :=
  ∃ t, tokens[r.index]? = some t ∧ t.kind ≠ .blank ∧ t.kind ≠ .comment ∧ t.text = r.text ∧ t.span = r.span

namespace Lexeme

theorem eq_of_mem_ofTokens {tokens : List Token} {l : Lexeme} (h : l ∈ ofTokens tokens) :
    ∃ t, tokens[l.ref.index]? = some t ∧ l = ⟨t.kind, t.ref l.ref.index⟩ ∧ t.kind ≠ .blank ∧
      t.kind ≠ .comment := by
  obtain ⟨⟨t, i⟩, hm, hl⟩ := List.mem_filterMap.1 h
  have ht := List.mem_zipIdx_iff_getElem?.1 hm
  simp only at hl
  split at hl
  · cases hl
  · cases hl
  · next hblank hcomment =>
    cases hl
    exact ⟨t, ht, rfl, hblank, hcomment⟩

theorem isIn_of_mem {tokens : List Token} {l : Lexeme} (h : l ∈ ofTokens tokens) : l.ref.IsIn tokens := by
  obtain ⟨t, ht, hl, hblank, hcomment⟩ := eq_of_mem_ofTokens h
  exact ⟨t, ht, hblank, hcomment, by rw [hl]; rfl, by rw [hl]; rfl⟩

/-- What is spelled like a word is a word. -/
theorem isWord_of_text_eq {text : String} {l m : Lexeme} (hl : l ∈ ofTokens (Token.scan text))
    (hm : m ∈ ofTokens (Token.scan text)) (hw : l.isWord = true) (h : m.ref.text = l.ref.text) :
    m.isWord = true := by
  have hpiece : ∀ {l : Lexeme}, l ∈ ofTokens (Token.scan text) →
      ∃ p, Token.pieces l.ref.text.toList = [p] ∧ l.kind = p.tokenKind := by
    intro l hl
    obtain ⟨t, ht, hkind, htext⟩ := exists_token_of_mem hl
    obtain ⟨p, hp, hpkind, hptext⟩ := Token.exists_piece_of_mem_place ht
    rw [htext, hptext, String.toList_ofList]
    exact ⟨p, Token.pieces_of_mem hp, hkind.trans hpkind⟩
  obtain ⟨p, hp, hpkind⟩ := hpiece hl
  obtain ⟨q, hq, hqkind⟩ := hpiece hm
  rw [h, hp] at hq
  cases hq
  rw [isWord, hqkind, ← hpkind]
  exact hw

end Lexeme

/-! ### Notes of a text -/

namespace Block

variable {S : Sites}

theorem mem_ofSections {sections : List Section} {s : Section} {b : Block} (hs : s ∈ sections)
    (hb : (ofSection s).value = some b) : b ∈ (ofSections sections).value := by
  induction sections with
  | nil => exact absurd hs List.not_mem_nil
  | cons s' sections ih =>
    show b ∈ (ofSection s').value.toList ++ (ofSections sections).value
    rcases List.mem_cons.1 hs with rfl | hs
    · exact List.mem_append_left _ (by simp [hb])
    · exact List.mem_append_right _ (ih hs)

theorem exists_ofSection {sections : List Section} {b : Block} (h : b ∈ (ofSections sections).value) :
    ∃ s ∈ sections, (ofSection s).value = some b := by
  induction sections with
  | nil => exact absurd h List.not_mem_nil
  | cons s sections ih =>
    have h : b ∈ (ofSection s).value.toList ++ (ofSections sections).value := h
    rcases List.mem_append.1 h with h | h
    · exact ⟨s, List.mem_cons_self .., Option.mem_toList.1 h⟩
    · obtain ⟨s', hs', hb⟩ := ih h
      exact ⟨s', List.mem_cons_of_mem _ hs', hb⟩

theorem within_ofSections {sections : List Section} (hS : ∀ s ∈ sections, S.Cover s.lexemes)
    (hconst : ∀ s ∈ sections, ∀ b, (ofSection s).value = some b →
      ∀ r ∈ b.constantForm, S.refine r .constName) :
    (ofSections sections).Within S := by
  induction sections with
  | nil => exact within_pure _
  | cons s sections ih =>
    obtain ⟨hs, hsections⟩ := List.forall_mem_cons.1 hS
    obtain ⟨hc, hconst⟩ := List.forall_mem_cons.1 hconst
    unfold ofSections
    refine within_then (within_ofSection hs hc) fun _ => ?_
    exact within_then (ih hsections hconst) fun _ => within_pure _

theorem within_declareAll {blocks : List Block}
    (h : ∀ b ∈ blocks, ∀ scope, (b.declare scope).Within S) (scope : Scope) :
    (declareAll scope blocks).Within S := by
  induction blocks generalizing scope with
  | nil => exact within_pure _
  | cons b blocks ih =>
    obtain ⟨hb, hblocks⟩ := List.forall_mem_cons.1 h
    unfold declareAll
    exact within_then (hb scope) fun table => ih hblocks _

/-- A token of the form of a constant that is read from a stream. -/
def InForm (tokens : List Token) (i : Nat) : Prop :=
  ∃ b ∈ (readAll tokens).value, ∃ r ∈ b.constantForm, r.index = i

theorem exists_lexeme_of_mem_constantForm {tokens : List Token} {b : Block} (hb : b ∈ (readAll tokens).value)
    {r : Token.Ref} (hr : r ∈ b.constantForm) : ∃ l ∈ Lexeme.ofTokens tokens, l.ref = r := by
  have hread := readFrom_of_mem_readAll hb
  cases b with
  | term b =>
    have hread : b.ReadFrom _ := hread
    rw [constantForm] at hr
    split at hr
    · obtain ⟨l, hl, hlr⟩ := hread.content r hr
      exact ⟨l, hl, hlr.symm⟩
    · exact absurd hr List.not_mem_nil
  | types | axm | thm => exact absurd hr List.not_mem_nil

end Block

namespace Document

/-- Faults are at lexemes of a stream. The words among them can be names of any kind, and the form of a
constant is refined to the name of one. -/
def sites (tokens : List Token) : Sites where
  fault r := ∃ l ∈ Lexeme.ofTokens tokens, l.ref = r
  refine r kind := kind.isName = true ∧ ∃ l ∈ Lexeme.ofTokens tokens, l.ref = r ∧
    (l.isWord = true ∨ kind = .constName ∧ Block.InForm tokens r.index)

theorem cover_sites (tokens : List Token) : (sites tokens).Cover (Lexeme.ofTokens tokens) where
  fault l hl := ⟨l, hl, rfl⟩
  refine l hl hw _ hkind := ⟨hkind, l, hl, rfl, .inl hw⟩

theorem within_readAll (tokens : List Token) : (Block.readAll tokens).Within (sites tokens) := by
  have hcover := cover_sites tokens
  have hbefore : (Section.split Keyword.startsBlock (Lexeme.ofTokens tokens)).1 ⊆ Lexeme.ofTokens tokens := by
    intro l hl
    rw [← Section.split_append Keyword.startsBlock (Lexeme.ofTokens tokens)]
    exact List.mem_append_left _ hl
  unfold Block.readAll
  refine within_then (Block.within_faultAll _ (hcover.mono hbefore)) fun _ => ?_
  refine Block.within_ofSections (fun s hs => Block.cover_section hcover hs) ?_
  intro s hs b hb r hr
  have hmem : b ∈ (Block.readAll tokens).value := Block.mem_ofSections hs hb
  obtain ⟨l, hl, hlr⟩ := Block.exists_lexeme_of_mem_constantForm hmem hr
  exact ⟨rfl, l, hl, hlr, .inr ⟨rfl, b, hmem, r, hr, rfl⟩⟩

theorem within_checked (scope : Scope) (text : String) :
    (checked scope (Token.scan text)).Within (sites (Token.scan text)) := by
  refine within_bind (within_readAll _) rfl ?_
  rintro _ rfl
  refine Block.within_declareAll (fun b hb scope => ?_) scope
  have hread := Block.readFrom_of_mem_readAll hb
  refine Block.within_declare scope (cover_sites _) hread ?_
  rintro t rfl r hr p hp htext
  have hread : t.ReadFrom _ := hread
  obtain ⟨l, hl, rfl⟩ := hread.content r hr
  obtain ⟨m, hm, hw, hname⟩ := (hread.params p hp).2
  exact ⟨rfl, l, hl, rfl, .inl (Lexeme.isWord_of_text_eq hm hl hw (by rw [htext, hname]))⟩

end Document

/-! ### Order -/

namespace Position

/-- Characters lead to a later place. -/
theorem comparePlace_advanceAll (p : Position) (c : Char) (cs : List Char) :
    (p.advanceAll (c :: cs)).comparePlace p = .gt := by
  have hstep : ∀ (p : Position) (c : Char), (p.advance c).comparePlace p = .gt := by
    intro p c
    rw [comparePlace_eq_gt, advance]
    split
    · exact .inl (Nat.lt_succ_self _)
    · exact .inr ⟨rfl, Nat.lt_succ_self _⟩
  induction cs generalizing p c with
  | nil => exact hstep p c
  | cons d cs ih =>
    have hrest := ih (p.advance c) d
    have hfirst := hstep p c
    rw [advanceAll_cons]
    rw [comparePlace_eq_gt] at *
    omega

end Position

namespace Token

theorem comparePlace_of_lt {text : String} {i j : Nat} {t u : Token} (hi : (scan text)[i]? = some t)
    (hj : (scan text)[j]? = some u) (hlt : i < j) : u.span.start.comparePlace t.span.start = .gt := by
  obtain ⟨hj, hu⟩ := List.getElem?_eq_some_iff.1 hj
  have hsplit : scan text = (scan text).take j ++ u :: (scan text).drop (j + 1) := by
    rw [← hu, ← List.drop_eq_getElem_cons, List.take_append_drop]
  have htake : ((scan text).take j)[i]? = some t := by rw [List.getElem?_take_of_lt hlt, hi]
  obtain ⟨hi, ht⟩ := List.getElem?_eq_some_iff.1 htake
  generalize (scan text).take j = before at hsplit hi ht
  have hbefore : before = before.take i ++ t :: before.drop (i + 1) := by
    rw [← ht, ← List.drop_eq_getElem_cons, List.take_append_drop]
  -- the text of the first token is among the characters between the two starts
  obtain ⟨c, cs, hcs⟩ : ∃ c cs, t.text.toList = c :: cs := by
    have hmem : t ∈ scan text := by
      rw [hsplit, hbefore]
      simp
    obtain ⟨p, hp, -, htext⟩ := exists_piece_of_mem_place hmem
    rw [htext, String.toList_ofList]
    exact List.exists_cons_of_ne_nil (ne_nil_of_mem_pieces hp)
  have hstart : t.span.start = ({} : Position).advanceAll ((before.take i).flatMap (·.text.toList)) := by
    rw [hbefore, List.append_assoc] at hsplit
    rw [span_place hsplit]
  have hstart' : u.span.start = t.span.start.advanceAll
      (c :: (cs ++ (before.drop (i + 1)).flatMap (·.text.toList))) := by
    rw [span_place hsplit, hstart, ← Position.advanceAll_append]
    conv_lhs => rw [hbefore, List.flatMap_append, List.flatMap_cons, hcs]
    rfl
  rw [hstart']
  exact Position.comparePlace_advanceAll _ _ _

end Token

namespace Diagnostic

/-- A diagnostic at a lexeme of a stream. -/
def IsIn (tokens : List Token) (d : Diagnostic) : Prop := ∃ r : Token.Ref, r.IsIn tokens ∧ d.At r

/-- By place is by token. -/
theorem le_iff {text : String} {d e : Diagnostic} (hd : d.IsIn (Token.scan text))
    (he : e.IsIn (Token.scan text)) :
    le d e = true ↔ d.token ≤ e.token := by
  obtain ⟨r, ⟨t, ht, -, -, -, htspan⟩, hdr⟩ := hd
  obtain ⟨q, ⟨u, hu, -, -, -, huspan⟩, heq⟩ := he
  rw [← hdr.1] at ht
  rw [← heq.1] at hu
  have hdspan : d.span = t.span := hdr.2.trans htspan.symm
  have hespan : e.span = u.span := heq.2.trans huspan.symm
  rw [← Bool.not_eq_false, le_eq_false, hdspan, hespan]
  rcases Nat.lt_trichotomy d.token e.token with hlt | heq | hgt
  · have hgt := Token.comparePlace_of_lt ht hu hlt
    simp only [Position.comparePlace_eq_gt, Position.comparePlace_eq_eq] at *
    omega
  · rw [heq, hu] at ht
    cases ht
    simp only [Position.comparePlace_eq_gt, Position.comparePlace_eq_eq]
    omega
  · have hgt' := Token.comparePlace_of_lt hu ht hgt
    simp only [hgt', true_or, not_true, false_iff]
    omega

/-- The same diagnostics by token; those at the same token are in the same order. -/
structure ByToken (ds es : List Diagnostic) : Prop where
  perm : es.Perm ds
  ordered : es.Pairwise fun d e => d.token ≤ e.token
  stable : ∀ i, es.filter (·.token == i) = ds.filter (·.token == i)

theorem byToken_sort {text : String} {ds : List Diagnostic} (h : ∀ d ∈ ds, d.IsIn (Token.scan text)) :
    ByToken ds (sort ds) := by
  have hperm : (sort ds).Perm ds := List.mergeSort_perm ds _
  have hsort : ∀ d ∈ sort ds, d.IsIn (Token.scan text) := fun d hd => h d (hperm.mem_iff.1 hd)
  refine ⟨hperm, ?_, fun i => ?_⟩
  · refine (List.pairwise_mergeSort le_trans le_total ds).imp_of_mem fun {d e} hd he hle => ?_
    exact (le_iff (hsort d hd) (hsort e he)).1 hle
  · -- diagnostics at one token are in order as they are, so sorting keeps them as a sublist
    have hpairwise : (ds.filter (·.token == i)).Pairwise fun d e => le d e = true := by
      refine List.pairwise_of_forall_mem_list fun d hd e he => ?_
      obtain ⟨hd, hdi⟩ := List.mem_filter.1 hd
      obtain ⟨he, hei⟩ := List.mem_filter.1 he
      rw [le_iff (h d hd) (h e he), beq_iff_eq.1 hdi, beq_iff_eq.1 hei]
    have hsub := List.sublist_mergeSort le_trans le_total hpairwise List.filter_sublist
    have hsub := hsub.filter (·.token == i)
    rw [List.filter_filter] at hsub
    simp only [Bool.and_self] at hsub
    exact (hsub.eq_of_length (hperm.filter _).length_eq.symm).symm

end Diagnostic

/-! ### Tokens -/

theorem getElem?_foldl_modify {α : Type} (index : α → Nat) (change : α → Token → Token) (as : List α)
    (ts : List Token) (i : Nat) :
    (as.foldl (fun ts a => ts.modify (index a) (change a)) ts)[i]? =
      ts[i]?.map fun t => (as.filter (index · == i)).foldl (fun t a => change a t) t := by
  induction as generalizing ts with
  | nil => simp
  | cons a as ih =>
    rw [List.foldl_cons, ih, List.getElem?_modify]
    by_cases ha : index a = i
    · rw [List.filter_cons_of_pos (by simpa using ha)]
      cases ts[i]? with
      | none => rfl
      | some t => simp [ha]
    · rw [List.filter_cons_of_neg (by simpa using ha)]
      cases ts[i]? with
      | none => rfl
      | some t => simp [ha]

namespace Mark

/-- Marks leave all but the kind and the comment of a token, and the last refinement wins. -/
theorem foldl_change (marks : List Mark) (t : Token) :
    let t' := marks.foldl (fun t m => m.change t) t
    t'.text = t.text ∧ t'.span = t.span ∧ t'.fault = t.fault ∧
      (t'.kind = t.kind ∧ (∀ i kind, .refine i kind ∉ marks) ∨ ∃ i, .refine i t'.kind ∈ marks) := by
  induction marks generalizing t with
  | nil => exact ⟨rfl, rfl, rfl, .inl ⟨rfl, nofun⟩⟩
  | cons m marks ih =>
    obtain ⟨htext, hspan, hfault, hkind⟩ := ih (m.change t)
    cases m with
    | comment j text =>
      refine ⟨htext, hspan, hfault, ?_⟩
      rcases hkind with ⟨hsame, hnone⟩ | ⟨i, hi⟩
      · exact .inl ⟨hsame, fun i kind hm => hnone i kind (by simpa using hm)⟩
      · exact .inr ⟨i, List.mem_cons_of_mem _ hi⟩
    | refine j kind =>
      refine ⟨htext, hspan, hfault, .inr ?_⟩
      rcases hkind with ⟨hsame, -⟩ | ⟨i, hi⟩
      · exact ⟨j, by rw [List.foldl_cons, hsame]; exact List.mem_cons_self ..⟩
      · exact ⟨i, List.mem_cons_of_mem _ hi⟩

end Mark

namespace Document

/-- The first fault stays. -/
theorem foldl_flagToken (ds : List Diagnostic) (t : Token) :
    ds.foldl (fun t d => flagToken d t) t = { t with fault := t.fault.or (ds.head?.map (·.fault)) } := by
  induction ds generalizing t with
  | nil => simp
  | cons d ds ih =>
    rw [List.foldl_cons, ih]
    cases hf : t.fault with
    | none => simp [flagToken, hf]
    | some f => simp [flagToken, hf]

/-- What becomes of a token: its text and span stay, it has the first fault at it and the last kind that
it was refined to. -/
structure Refined (notes : Notes) (i : Nat) (t t' : Token) : Prop where
  text : t'.text = t.text
  span : t'.span = t.span
  fault : t'.fault = ((Diagnostic.sort notes.diagnostics).find? (·.token == i)).map (·.fault)
  kind : t'.kind = t.kind ∧ (∀ kind, .refine i kind ∉ notes.marks) ∨ .refine i t'.kind ∈ notes.marks

theorem fault_eq_none_of_mem_scan {text : String} {t : Token} (h : t ∈ Token.scan text) : t.fault = none := by
  have hplace : ∀ (start : Position) (ps : List Token.Piece), ∀ t ∈ Token.place start ps, t.fault = none := by
    intro start ps
    induction ps generalizing start with
    | nil => exact fun t ht => absurd ht List.not_mem_nil
    | cons p ps ih => exact List.forall_mem_cons.2 ⟨rfl, ih _⟩
  exact hplace _ _ t h

variable (scope : Scope) (text : String)

theorem getElem?_tokens {i : Nat} {t : Token} (h : (Token.scan text)[i]? = some t) :
    ∃ t', (ofTokens scope (Token.scan text)).tokens.toList[i]? = some t' ∧
      Refined (checked scope (Token.scan text)).notes i t t' := by
  rw [toList_tokens, getElem?_foldl_modify, getElem?_foldl_modify, h, Option.map_some, Option.map_some]
  generalize hmarks : (checked scope (Token.scan text)).notes.marks.filter (·.token == i) = marks
  have hmem : ∀ j kind, .refine j kind ∈ marks ↔
      j = i ∧ .refine i kind ∈ (checked scope (Token.scan text)).notes.marks := by
    intro j kind
    rw [← hmarks, List.mem_filter, beq_iff_eq]
    constructor
    · rintro ⟨hm, rfl⟩
      exact ⟨rfl, hm⟩
    · rintro ⟨rfl, hm⟩
      exact ⟨hm, rfl⟩
  obtain ⟨htext, hspan, hfault, hkind⟩ := Mark.foldl_change marks t
  have hnone := fault_eq_none_of_mem_scan (List.mem_of_getElem? h)
  refine ⟨_, rfl, ?_⟩
  rw [foldl_flagToken, hfault, hnone, Option.none_or, List.head?_filter]
  refine ⟨htext, hspan, rfl, ?_⟩
  rcases hkind with ⟨hsame, hnone⟩ | ⟨j, hj⟩
  · exact .inl ⟨hsame, fun kind hm => hnone i kind ((hmem i kind).2 ⟨rfl, hm⟩)⟩
  · exact .inr ((hmem j _).1 hj).2

theorem length_tokens :
    (ofTokens scope (Token.scan text)).tokens.toList.length = (Token.scan text).length := by
  have hlength : ∀ {α : Type} (index : α → Nat) (change : α → Token → Token) (as : List α) (ts : List Token),
      (as.foldl (fun ts a => ts.modify (index a) (change a)) ts).length = ts.length := by
    intro α index change as ts
    induction as generalizing ts with
    | nil => rfl
    | cons a as ih => rw [List.foldl_cons, ih, List.length_modify]
  rw [toList_tokens, hlength, hlength]

end Document

/-! ### Blocks -/

theorem Expr.mem_headsAll {es : List Expr} {r : Token.Ref} : r ∈ headsAll es ↔ ∃ e ∈ es, r ∈ e.heads := by
  induction es with
  | nil => simp [headsAll]
  | cons e es ih => simp [headsAll, ih]

namespace RuleBlock

/-- The tokens that a rule refers to, without its keyword. -/
def words (b : RuleBlock) : List Token.Ref :=
  b.name :: b.params.flatMap (fun p => [p.type, p.name]) ++ Expr.headsAll b.targets ++
    Expr.headsAll b.assumptions ++ b.distinct.flatten

theorem wordIn_of_mem_words {b : RuleBlock} {ls : List Lexeme} (hb : b.ReadFrom ls) :
    ∀ r ∈ b.words, WordIn ls r := by
  intro r hr
  simp only [words, List.cons_append, List.mem_cons, List.mem_append, List.mem_flatMap, List.not_mem_nil, or_false,
    Expr.mem_headsAll, List.mem_flatten] at hr
  rcases hr with rfl | ((⟨p, hp, rfl | rfl⟩ | ⟨e, he, hr⟩) | ⟨e, he, hr⟩) | ⟨g, hg, hr⟩
  · exact hb.name
  · exact (hb.params p hp).1
  · exact (hb.params p hp).2
  · exact hb.targets e he r hr
  · exact hb.assumptions e he r hr
  · exact hb.members g hg r hr

end RuleBlock

namespace Block

/-- All tokens that a block refers to but its keyword: names, types, the form of a term, the heads of
expressions and the members of groups. -/
def words : Block → List Token.Ref
  | .types b => b.names
  | .term b => b.type :: b.name :: b.params.flatMap (fun p => [p.type, p.name]) ++ b.content
  | .axm b => b.words
  | .thm b => b.words ++ Expr.headsAll b.proof

/-- All tokens that a block refers to. -/
def refs (b : Block) : List Token.Ref := b.head :: b.words

theorem exists_lexeme_of_mem_words {ls : List Lexeme} {b : Block} (hb : b.ReadFrom ls) {r : Token.Ref}
    (hr : r ∈ b.words) : ∃ l ∈ ls, l.ref = r := by
  have hword : ∀ r, WordIn ls r → ∃ l ∈ ls, l.ref = r := by
    rintro r ⟨l, hl, -, hlr⟩
    exact ⟨l, hl, hlr⟩
  cases b with
  | types b => exact hword r (hb r hr)
  | term b =>
    have hb : b.ReadFrom ls := hb
    simp only [words, List.cons_append, List.mem_cons, List.mem_append, List.mem_flatMap, List.not_mem_nil,
      or_false] at hr
    rcases hr with rfl | rfl | ⟨p, hp, rfl | rfl⟩ | hr
    · exact hword _ hb.type
    · exact hword _ hb.name
    · exact hword _ (hb.params p hp).1
    · exact hword _ (hb.params p hp).2
    · obtain ⟨l, hl, hlr⟩ := hb.content r hr
      exact ⟨l, hl, hlr.symm⟩
  | axm b => exact hword r (RuleBlock.wordIn_of_mem_words hb r hr)
  | thm b =>
    obtain ⟨hrule, hproof⟩ := hb
    rcases List.mem_append.1 hr with hr | hr
    · exact hword r (RuleBlock.wordIn_of_mem_words hrule r hr)
    · obtain ⟨e, he, hr⟩ := Expr.mem_headsAll.1 hr
      exact hword r (hproof e he r hr)

/-- A block refers to lexemes of the stream that it is read from. -/
theorem exists_lexeme_of_mem_refs {tokens : List Token} {b : Block} (hb : b ∈ (readAll tokens).value)
    {r : Token.Ref} (hr : r ∈ b.refs) : ∃ l ∈ Lexeme.ofTokens tokens, l.ref = r := by
  rcases List.mem_cons.1 hr with rfl | hr
  · obtain ⟨s, hs, hstands⟩ := exists_section hb
    refine ⟨⟨.keyword, s.head⟩, ?_, hstands.head.symm⟩
    rw [← Section.split_append Keyword.startsBlock (Lexeme.ofTokens tokens)]
    exact List.mem_append_right _ (List.mem_flatMap.2 ⟨s, hs, List.mem_cons_self ..⟩)
  · exact exists_lexeme_of_mem_words (readFrom_of_mem_readAll hb) hr

end Block

namespace Document

variable {scope : Scope} {text : String}

/-- What is refined is refined to a name, so no token becomes a blank or a comment. -/
theorem isIn_tokens {r : Token.Ref} (h : r.IsIn (Token.scan text)) :
    r.IsIn (ofTokens scope (Token.scan text)).tokens.toList := by
  obtain ⟨t, ht, hblank, hcomment, htext, hspan⟩ := h
  obtain ⟨t', ht', hrefined⟩ := getElem?_tokens scope text ht
  have hkind : t'.kind ≠ .blank ∧ t'.kind ≠ .comment := by
    rcases hrefined.kind with ⟨hsame, -⟩ | hmark
    · rw [hsame]
      exact ⟨hblank, hcomment⟩
    · obtain ⟨r', ⟨hname, -⟩, -⟩ := (within_checked scope text).refines _ _ hmark
      refine ⟨fun he => ?_, fun he => ?_⟩
      · rw [he] at hname
        cases hname
      · rw [he] at hname
        cases hname
  exact ⟨t', ht', hkind.1, hkind.2, hrefined.text.trans htext, hrefined.span.trans hspan⟩

/-- A document of a text, with what reading and declaring find: diagnostics and blocks are where tokens of
the text are, as scanned and as the document has them. -/
structure Anchored (text : String) (read : Noted (List Block)) (declared : Noted Table) (doc : Document) :
    Prop where
  diagnostics : ∀ d ∈ doc.diagnostics, ∃ r : Token.Ref,
    d.At r ∧ r.IsIn (Token.scan text) ∧ r.IsIn doc.tokens.toList
  refs : ∀ b ∈ read.value, ∀ r ∈ b.refs, r.IsIn (Token.scan text) ∧ r.IsIn doc.tokens.toList
  sorted : Diagnostic.ByToken (read.notes.diagnostics ++ declared.notes.diagnostics) doc.diagnostics
  faults : ∀ (i : Nat) (t : Token), doc.tokens.toList[i]? = some t →
    t.fault = (doc.diagnostics.find? (·.token == i)).map (·.fault)

/-- Diagnostics and blocks of every text are at its tokens, and every token has the first fault at it. -/
theorem anchored_check (imports : List Table) (searchLimit : Nat) (text : String) :
    let read := Block.readAll (Token.scan text)
    Anchored text read (Block.declareAll { imports, searchLimit } read.value)
      (check imports searchLimit text) := by
  intro read
  let scope : Scope := { imports, searchLimit }
  have hnoted : ∀ d ∈ (checked scope (Token.scan text)).notes.diagnostics, d.IsIn (Token.scan text) := by
    intro d hd
    obtain ⟨r, ⟨l, hl, rfl⟩, hr⟩ := (within_checked scope text).diagnostics d hd
    exact ⟨l.ref, Lexeme.isIn_of_mem hl, hr⟩
  refine ⟨fun d hd => ?_, fun b hb r hr => ?_, Diagnostic.byToken_sort hnoted, fun i t ht => ?_⟩
  · obtain ⟨r, hr, hd⟩ := hnoted d (Diagnostic.mem_sort.1 hd)
    exact ⟨r, hd, hr, isIn_tokens hr⟩
  · obtain ⟨l, hl, rfl⟩ := Block.exists_lexeme_of_mem_refs hb hr
    have hl := Lexeme.isIn_of_mem hl
    exact ⟨hl, isIn_tokens hl⟩
  · have hi : i < (Token.scan text).length := by
      rw [← length_tokens scope text]
      exact (List.getElem?_eq_some_iff.1 ht).1
    obtain ⟨t', ht', hrefined⟩ := getElem?_tokens scope text (List.getElem?_eq_getElem hi)
    cases ht.symm.trans ht'
    exact hrefined.fault

end Document

end Sequitur
