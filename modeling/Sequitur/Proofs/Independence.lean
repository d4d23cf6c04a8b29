import Mathlib.Data.List.Forall2
import Sequitur.Block.Declare
import Sequitur.Proofs.Unplaced

/-!
# Places play no role in declaring

Declaring moved blocks gives the same declarations as declaring the blocks in any scope that agrees,
places aside, and the same notes, moved (`Block.matches_declareAll`). So it neither matters where a
text stands, nor whether what it refers to is in its own table or an imported one. Templates play no
role either, but for the comments that show how a term is written.
-/

namespace Sequitur

open Placed (relocate)
open Noted

variable {α β γ δ : Type} {φ : Relocation} {ρ : Template → Template}

/-! ### Checks of names and parameters -/

namespace Scope

variable {scope scope' : Scope}

theorem matches_checkFresh (h : scope.Agree ρ scope') (name : Token.Ref) :
    Matches φ ρ (fun ok ok' => ok = ok' ∧ (ok = true → scope.find? name.text = none))
      (scope.checkFresh name) (scope'.checkFresh (relocate φ name)) := by
  unfold checkFresh
  simp only [Token.Ref.text_relocate, h.isSome_find?]
  refine matches_ite (fun _ => ?_) fun _ => matches_ite (fun _ => ?_) fun hnone => ?_
  · exact matches_bind (matches_fault ..) fun _ _ _ => matches_pure ⟨rfl, nofun⟩
  · exact matches_bind (matches_fault ..) fun _ _ _ => matches_pure ⟨rfl, nofun⟩
  · exact matches_pure ⟨rfl, fun _ => Option.not_isSome_iff_eq_none.1 hnone⟩

theorem matches_checkType (h : scope.Agree ρ scope') (type : Token.Ref) :
    Matches φ ρ Eq (scope.checkType type) (scope'.checkType (relocate φ type)) := by
  unfold checkType
  rw [Token.Ref.text_relocate]
  cases hx : scope.find? type.text with
  | none =>
    rw [h.find?_none hx]
    exact matches_bind (matches_fault ..) fun _ _ _ => matches_pure rfl
  | some d =>
    obtain ⟨d', hd', he⟩ := h.find?_some hx
    rw [hd']
    have hfault := matches_bind (Q := @Eq Bool) (matches_fault (φ := φ) (ρ := ρ) .notType type) fun _ _ _ =>
      matches_pure (rfl : false = false)
    cases d with
    | type d => obtain ⟨d', rfl⟩ := Decl.unplaced_type he; exact matches_pure rfl
    | term d => obtain ⟨d', rfl, -⟩ := Decl.unplaced_term he; exact hfault
    | axm r => obtain ⟨r', rfl, -⟩ := Decl.unplaced_axm he; exact hfault
    | thm t => obtain ⟨t', rfl, -⟩ := Decl.unplaced_thm he; exact hfault

theorem matches_checkParams (h : scope.Agree ρ scope') (seen : List String) (ps : List Param) :
    Matches φ ρ Eq (scope.checkParams seen ps) (scope'.checkParams seen (relocate φ ps)) := by
  induction ps generalizing seen with
  | nil => exact matches_pure rfl
  | cons p ps ih =>
    refine matches_bind (matches_checkType h p.type) ?_
    rintro ok _ rfl
    refine matches_ite (fun _ => matches_pure rfl) fun _ => ?_
    refine matches_bind (matches_checkFresh h p.name) ?_
    rintro ok _ ⟨rfl, -⟩
    refine matches_ite (fun _ => matches_pure rfl) fun _ => matches_ite (fun _ => ?_) fun _ => ih _
    exact matches_bind (matches_fault ..) fun _ _ _ => matches_pure rfl

end Scope

theorem matches_checkArity (head : Token.Ref) (want got : Nat) :
    Matches φ ρ Eq (checkArity head want got) (checkArity (relocate φ head) want got) := by
  refine matches_ite (fun _ => matches_pure rfl) fun _ => ?_
  exact matches_bind (matches_fault ..) fun _ _ _ => matches_pure rfl

/-! ### Elaboration -/

theorem Param.find?_relocate (ps : List Param) (x : String) :
    Param.find? (relocate φ ps) x = relocate φ (Param.find? ps x) := by
  unfold Param.find?
  rw [relocate_eq_map, List.find?_map]
  rfl

theorem Param.alike_find? {ps ps' : List Param} (h : Alike ρ ps ps') (x : String) :
    Alike ρ (Param.find? ps x) (Param.find? ps' x) := by
  unfold Alike
  rw [← find?_relocate, ← find?_relocate, h]

theorem TermDecl.nameKind_eq {d d' : TermDecl} (h : Alike ρ d d') : d.nameKind = d'.nameKind :=
  h.apply_eq fun d => by
    show (if (relocate (.forget ρ) d.params).isEmpty then _ else _) = _
    rw [isEmpty_relocate]
    rfl

theorem TermDecl.alike_params {d d' : TermDecl} (h : Alike ρ d d') : Alike ρ d.params d'.params :=
  congrArg TermDecl.params h

theorem TermDecl.type_text_eq {d d' : TermDecl} (h : Alike ρ d d') : d.type.text = d'.type.text :=
  h.apply_eq (f := fun d => d.type.text) fun _ => rfl

namespace Term

theorem alike_var {p p' : Param} (h : Alike ρ p p') {head head' : Token.Ref} (hh : Alike ρ head head')
    (span span' : Span) : Alike ρ (Term.var head span p) (Term.var head' span' p') := by
  unfold Alike
  rw [relocate_var, relocate_var, hh, h]
  rfl

theorem alike_app {d d' : TermDecl} (h : Alike ρ d d') {head head' : Token.Ref} (hh : Alike ρ head head')
    (span span' : Span) {args args' : List Term} (ha : Alike ρ args args') :
    Alike ρ (Term.app head span d args) (Term.app head' span' d' args') := by
  unfold Alike
  rw [relocate_app, relocate_app, hh, h, ha]
  rfl

theorem alike_hole {p p' : Param} (h : Alike ρ p p') {head head' : Token.Ref} (hh : Alike ρ head head')
    (span span' : Span) : Alike ρ (Term.hole head span p) (Term.hole head' span' p') := by
  show Term.hole (relocate _ head) _ (relocate _ p) = Term.hole (relocate _ head') _ (relocate _ p')
  rw [hh, h]
  rfl

end Term

namespace Expr

theorem typedArgs_relocate (ts : List (Option Term)) (ps : List Param) :
    typedArgs (relocate φ ts) (relocate φ ps) = relocate φ (typedArgs ts ps) := by
  induction ts generalizing ps with
  | nil => cases ps <;> rfl
  | cons t ts ih =>
    cases ps with
    | nil => cases t <;> rfl
    | cons p ps =>
      cases t with
      | none => rfl
      | some t =>
        rw [relocate_cons, relocate_cons, relocate_some, typedArgs, typedArgs, ih, Term.type_relocate]
        show (if t.type = p.type.text then _ else _) = _
        split
        · cases typedArgs ts ps <;> rfl
        · rfl

theorem alike_typedArgs {ts ts' : List (Option Term)} (ht : Alike ρ ts ts') {ps ps' : List Param}
    (hp : Alike ρ ps ps') : Alike ρ (typedArgs ts ps) (typedArgs ts' ps') := by
  unfold Alike
  rw [← typedArgs_relocate, ← typedArgs_relocate, ht, hp]

variable {scope scope' : Scope} {params params' : List Param}

mutual
/-- The terms are alike, and each has the head of its expression. -/
theorem matches_elaborate (hs : scope.Agree ρ scope') (hp : Alike ρ params params') : ∀ e : Expr,
    Matches φ ρ (fun t t' => Alike ρ t t' ∧ ∀ s ∈ t, ∀ s' ∈ t', s'.head = relocate φ s.head)
      (e.elaborate scope params) ((relocate φ e).elaborate scope' params')
  | ⟨head, args, span⟩ => by
    rw [relocate_mk]
    unfold elaborate
    rw [Token.Ref.text_relocate]
    have hfound := Param.alike_find? hp head.text
    cases hfind : Param.find? params head.text with
    | some param =>
      rw [hfind] at hfound
      obtain ⟨param', hfind', hparam⟩ := hfound.exists_some
      rw [hfind']
      refine matches_bind (matches_refine ..) fun _ _ _ => ?_
      rw [isEmpty_relocate]
      refine matches_ite (fun _ => matches_pure ⟨?_, ?_⟩) fun _ => ?_
      · exact alike_some.2 (Term.alike_var hparam head.alike_relocate _ _)
      · rintro _ ⟨⟩ _ ⟨⟩
        rfl
      · exact matches_bind (matches_fault ..) fun _ _ _ => matches_pure ⟨rfl, nofun⟩
    | none =>
      rw [hfind] at hfound
      rw [hfound.eq_none]
      have hterm := hs.term? head.text
      cases hdecl : scope.term? head.text with
      | none =>
        rw [hdecl] at hterm
        simp only [hterm.eq_none]
        exact matches_bind (matches_fault ..) fun _ _ _ => matches_pure ⟨rfl, nofun⟩
      | some decl =>
        rw [hdecl] at hterm
        obtain ⟨decl', hdecl', hd⟩ := hterm.exists_some
        simp only [hdecl']
        rw [← (TermDecl.alike_params hd).length_eq, length_relocate, ← TermDecl.nameKind_eq hd]
        refine matches_bind (matches_checkArity ..) ?_
        rintro ok _ rfl
        refine matches_ite (fun _ => matches_pure ⟨rfl, nofun⟩) fun _ => ?_
        refine matches_bind (matches_refine ..) fun _ _ _ => ?_
        refine matches_bind (matches_elaborateAll hs hp args) fun ts ts' hts => ?_
        have htyped := alike_typedArgs hts (TermDecl.alike_params hd)
        cases hargs : typedArgs ts decl.params with
        | none =>
          rw [hargs] at htyped
          rw [htyped.eq_none]
          exact matches_bind (matches_fault ..) fun _ _ _ => matches_pure ⟨rfl, nofun⟩
        | some args =>
          rw [hargs] at htyped
          obtain ⟨args', hargs', ha⟩ := htyped.exists_some
          rw [hargs']
          refine matches_pure ⟨alike_some.2 (Term.alike_app hd head.alike_relocate _ _ ha), ?_⟩
          rintro _ ⟨⟩ _ ⟨⟩
          rfl
theorem matches_elaborateAll (hs : scope.Agree ρ scope') (hp : Alike ρ params params') : ∀ es : List Expr,
    Matches φ ρ (Alike ρ) (elaborateAll scope params es) (elaborateAll scope' params' (relocate φ es))
  | [] => by
    unfold elaborateAll
    exact matches_pure rfl
  | e :: es => by
    rw [relocate_cons]
    unfold elaborateAll
    refine matches_bind (matches_elaborate hs hp e) fun t t' ht => ?_
    exact matches_bind (matches_elaborateAll hs hp es) fun ts ts' hts =>
      matches_pure (alike_cons.2 ⟨ht.1, hts⟩)
end

end Expr

/-! ### Holes -/

namespace HoleTable

/-- Holes that are alike, under the same names. Where they are referred to plays no role. -/
structure Agree (ρ : Template → Template) (v v' : HoleTable) : Prop where
  index : v.index = v'.index
  terms : Alike ρ v.terms v'.terms
  byName : v.byName = v'.byName

namespace Agree

variable {v v' : HoleTable}

theorem empty : Agree ρ ∅ ∅ := ⟨rfl, rfl, rfl⟩

theorem alike_get? (h : v.Agree ρ v') (x : String) : Alike ρ (v.get? x) (v'.get? x) := by
  have hplace : ∀ (ts : List Term) (i : Nat), relocate (.forget ρ) ts[i]? = (relocate (.forget ρ) ts)[i]? := by
    intro ts i
    rw [relocate_eq_map, List.getElem?_map]
    rfl
  unfold get?
  rw [← h.byName]
  cases v.byName.get? x with
  | none => rfl
  | some i =>
    have hterms : relocate (.forget ρ) v.terms = _ := h.terms
    show relocate (.forget ρ) v.terms[i]? = relocate (.forget ρ) v'.terms[i]?
    rw [hplace, hplace, hterms]

theorem add (h : v.Agree ρ v') {t t' : Term} (ht : Alike ρ t t') : (v.add t).Agree ρ (v'.add t') where
  index := congrArg (· + 1) h.index
  terms := alike_append h.terms (alike_cons.2 ⟨ht, rfl⟩)
  byName := by
    have hkey : t.key = t'.key := ht.apply_eq Term.key_relocate
    rw [HoleTable.add, HoleTable.add, hkey, h.byName, h.terms.length_eq]

theorem useAt (h : v.Agree ρ v') (x : String) (span span' : Span) :
    (v.useAt x span).Agree ρ (v'.useAt x span') :=
  ⟨h.index, h.terms, h.byName⟩

theorem alike_freshTerm (h : v.Agree ρ v') (token token' : Token.Ref) (span span' : Span) {p p' : Param}
    (hp : Alike ρ p p') : Alike ρ (v.freshTerm token span p) (v'.freshTerm token' span' p') := by
  have hname : v.nextName p.type.text = v'.nextName p'.type.text := by
    rw [nextName, nextName, h.byName, h.index, (Param.alike_iff.1 hp).1]
  exact Term.alike_hole hp (Token.Ref.alike_iff.2 hname) span span'

end Agree

end HoleTable

namespace Filling

/-- Computations that match on all tables that agree, and leave such tables behind. -/
def Matches (φ : Relocation) (ρ : Template → Template) (R : α → β → Prop) (x : Filling α)
    (y : Filling β) : Prop :=
  ∀ v v', v.Agree ρ v' →
    Noted.Matches φ ρ (fun p p' => R p.1 p'.1 ∧ p.2.Agree ρ p'.2) (x.run v) (y.run v')

variable {R : α → β → Prop} {Q : γ → δ → Prop}

theorem matches_pure {a : α} {b : β} (h : R a b) : Matches φ ρ R (pure a) (pure b) :=
  fun _ _ hs => Noted.matches_pure ⟨h, hs⟩

theorem matches_bind {x : Filling α} {y : Filling β} {f : α → Filling γ} {g : β → Filling δ}
    (hx : Matches φ ρ R x y) (hf : ∀ a b, R a b → Matches φ ρ Q (f a) (g b)) :
    Matches φ ρ Q (x >>= f) (y >>= g) := by
  intro hs hs' h
  rw [StateT.run_bind, StateT.run_bind]
  exact Noted.matches_bind (hx hs hs' h) fun p p' hp => hf p.1 p'.1 hp.1 p.2 p'.2 hp.2

theorem matches_lift {x : Noted α} {y : Noted β} (h : Noted.Matches φ ρ R x y) :
    Matches φ ρ R (liftM x : Filling α) (liftM y : Filling β) := by
  intro hs hs' hh
  show Noted.Matches φ ρ _ (x >>= fun a => pure (a, hs)) (y >>= fun b => pure (b, hs'))
  exact Noted.matches_bind h fun _ _ hab => Noted.matches_pure ⟨hab, hh⟩

theorem matches_get? (x : String) : Matches φ ρ (Alike ρ) (Filling.get? x) (Filling.get? x) :=
  fun _ _ hv => Noted.matches_pure ⟨hv.alike_get? x, hv⟩

theorem matches_add {t t' : Term} (h : Alike ρ t t') : Matches φ ρ (Alike ρ) (add t) (add t') :=
  fun _ _ hv => Noted.matches_pure ⟨h, hv.add h⟩

theorem matches_useAt (x : String) (span span' : Span) :
    Matches φ ρ (fun _ _ => True) (useAt x span) (useAt x span') :=
  fun _ _ hv => Noted.matches_pure ⟨trivial, hv.useAt x span span'⟩

theorem matches_fresh (token : Token.Ref) (span span' : Span) {p p' : Param} (hp : Alike ρ p p') :
    Matches φ ρ (Alike ρ) (fresh token span p) (fresh (relocate φ token) span' p') :=
  fun v v' hv => matches_add (hv.alike_freshTerm token _ span span' hp) v v' hv

theorem matches_named (head : Token.Ref) (span span' : Span) {p p' : Param} (hp : Alike ρ p p') :
    Matches φ ρ (Alike ρ) (named head span p) (named (relocate φ head) span' p') :=
  matches_add (Term.alike_hole hp head.alike_relocate span span')

theorem matches_ite {c : Prop} [Decidable c] {x y : Filling α} {x' y' : Filling β}
    (hx : c → Matches φ ρ R x x') (hy : ¬c → Matches φ ρ R y y') :
    Matches φ ρ R (if c then x else y) (if c then x' else y') := by
  split
  · next h => exact hx h
  · next h => exact hy h

theorem matches_fault {x : Filling α} {y : Filling β} (k : Fault) (r : Token.Ref)
    (h : Matches φ ρ R x y) :
    Matches φ ρ R (liftM (fault k r) >>= fun _ : Unit => x)
      (liftM (fault k (relocate φ r)) >>= fun _ : Unit => y) :=
  matches_bind (matches_lift (Noted.matches_fault k r)) fun _ _ _ => h

theorem matches_faults (k : Fault) (r : Token.Ref) (as : List α) :
    Matches φ ρ (fun _ _ => True) (as.forM fun _ => (liftM (fault k r) : Filling Unit))
      (as.forM fun _ => (liftM (fault k (relocate φ r)) : Filling Unit)) := by
  induction as with
  | nil => exact matches_pure trivial
  | cons a as ih => exact matches_fault k r ih

end Filling

namespace Expr

open Filling

variable {scope scope' : Scope} {params params' : List Param}

mutual
theorem matches_fill (hs : scope.Agree ρ scope') (hp : Alike ρ params params') : ∀ (want want' : Param)
    (_ : Alike ρ want want') (e : Expr),
    Filling.Matches φ ρ (Alike ρ) (e.fill scope params want) ((relocate φ e).fill scope' params' want')
  | want, want', hw, ⟨head, args, span⟩ => by
    have htype := (Param.alike_iff.1 hw).1
    have hfresh := Filling.matches_fresh (φ := φ) head span (relocate φ span) hw
    rw [relocate_mk]
    unfold fill
    rw [Token.Ref.text_relocate, isEmpty_relocate]
    have hfound := Param.alike_find? hp head.text
    cases hfind : Param.find? params head.text with
    | some param =>
      rw [hfind] at hfound
      obtain ⟨param', hfind', hparam⟩ := hfound.exists_some
      rw [hfind']
      refine Filling.matches_bind (matches_lift (Noted.matches_refine ..)) fun _ _ _ => ?_
      have hvar : Filling.Matches φ ρ (Alike ρ)
          (if param.type.text = want.type.text then pure (.var head span param) else do
            liftM (fault .argTypeMismatch head)
            fresh head span want)
          (if param'.type.text = want'.type.text then
            pure (.var (relocate φ head) (relocate φ span) param') else do
            liftM (fault .argTypeMismatch (relocate φ head))
            fresh (relocate φ head) (relocate φ span) want') := by
        rw [(Param.alike_iff.1 hparam).1, htype]
        refine Filling.matches_ite (fun _ => Filling.matches_pure ?_) fun _ => matches_fault _ _ hfresh
        exact Term.alike_var hparam head.alike_relocate _ _
      exact Filling.matches_ite (fun _ => matches_fault _ _ hvar) fun _ => hvar
    | none =>
      rw [hfind] at hfound
      rw [hfound.eq_none]
      refine Filling.matches_bind (matches_get? head.text) fun hole? hole?' hhole => ?_
      cases hole? with
      | some hole =>
        obtain ⟨hole', rfl, hsame⟩ := hhole.exists_some
        have huse := Filling.matches_bind (matches_useAt (φ := φ) (ρ := ρ) head.text span (relocate φ span))
          fun _ _ _ => Filling.matches_pure hsame
        have hsame : hole.type = hole'.type := hsame.apply_eq Term.type_relocate
        simp only [hsame, htype]
        refine Filling.matches_ite (fun _ => ?_) fun _ => matches_fault _ _ hfresh
        exact Filling.matches_ite (fun _ => matches_fault _ _ huse) fun _ => huse
      | none =>
        rw [hhole.eq_none]
        cases hx : scope.find? head.text with
        | none =>
          simp only [hs.find?_none hx]
          exact matches_fault _ _ (matches_named head span _ hw)
        | some d =>
          obtain ⟨d', hd', he⟩ := hs.find?_some hx
          simp only [hd']
          have hundefined := matches_fault .termUndefined head hfresh
          cases d with
          | type d => obtain ⟨d', rfl⟩ := Decl.unplaced_type he; exact hundefined
          | axm r => obtain ⟨r', rfl, -⟩ := Decl.unplaced_axm he; exact hundefined
          | thm t => obtain ⟨t', rfl, -⟩ := Decl.unplaced_thm he; exact hundefined
          | term decl =>
            obtain ⟨decl', rfl, hd⟩ := Decl.unplaced_term he
            simp only [TermDecl.type_text_eq hd, htype, ← (TermDecl.alike_params hd).length_eq,
              length_relocate, ← TermDecl.nameKind_eq hd]
            refine Filling.matches_ite (fun _ => matches_fault _ _ hfresh) fun _ => ?_
            refine Filling.matches_bind (matches_lift (matches_checkArity ..)) ?_
            rintro ok _ rfl
            refine Filling.matches_ite (fun _ => hfresh) fun _ => ?_
            refine Filling.matches_bind (matches_lift (Noted.matches_refine ..)) fun _ _ _ => ?_
            refine Filling.matches_bind (matches_fillAll hs hp _ _ (TermDecl.alike_params hd) args) ?_
            intro ts ts' hts
            exact Filling.matches_pure (Term.alike_app hd head.alike_relocate _ _ hts)
theorem matches_fillAll (hs : scope.Agree ρ scope') (hp : Alike ρ params params') :
    ∀ (wants wants' : List Param) (_ : Alike ρ wants wants') (es : List Expr),
    Filling.Matches φ ρ (Alike ρ) (fillAll scope params wants es)
      (fillAll scope' params' wants' (relocate φ es))
  | wants, wants', hw, [] => by
    unfold fillAll
    exact Filling.matches_pure rfl
  | [], wants', hw, e :: es => by
    rw [hw.nil_left]
    unfold fillAll
    exact Filling.matches_pure rfl
  | want :: wants, wants', hw, e :: es => by
    obtain ⟨want', wants', rfl, hw, hws⟩ := hw.cons_left
    rw [relocate_cons]
    unfold fillAll
    refine Filling.matches_bind (matches_fill hs hp want want' hw e) fun t t' ht => ?_
    refine Filling.matches_bind (matches_fillAll hs hp wants wants' hws es) fun ts ts' hts => ?_
    exact Filling.matches_pure (alike_cons.2 ⟨ht, hts⟩)
end

end Expr

/-! ### Proofs -/

namespace Rule

variable {r r' : Rule}

theorem alike_params (h : Alike ρ r r') : Alike ρ r.params r'.params := congrArg Rule.params h

theorem alike_targets (h : Alike ρ r r') : Alike ρ r.targets r'.targets := congrArg Rule.targets h

theorem alike_assumptions (h : Alike ρ r r') : Alike ρ r.assumptions r'.assumptions :=
  congrArg Rule.assumptions h

theorem groups_eq (h : Alike ρ r r') : r.groups = r'.groups := h.apply_eq (f := Rule.groups) fun _ => rfl

theorem paramNames_relocate (r : Rule) : (relocate φ r).paramNames = r.paramNames :=
  map_relocate fun _ _ => rfl

theorem paramNames_eq (h : Alike ρ r r') : r.paramNames = r'.paramNames := h.apply_eq paramNames_relocate

theorem violations_eq (h : Alike ρ r r') (required : Distinct) :
    r.violations required = r'.violations required := by
  unfold violations distinct
  rw [groups_eq h, paramNames_eq h]

end Rule

theorem Distinct.instantiate_move (groups : List (List String)) (σ : Subst) :
    instantiate groups (σ.move φ) = instantiate groups σ := by
  have hleaves : ∀ x, ((σ.move φ).get? x).map Term.leafNames = (σ.get? x).map Term.leafNames := by
    intro x
    rw [Subst.move, NameMap.get?_map, Option.map_map]
    exact congrArg (Option.map · _) (funext Term.leafNames_relocate)
  unfold instantiate
  simp only [hleaves]

namespace Step

variable {scope scope' : Scope} {thm thm' : Rule}

/-- A rule applied to arguments says the same wherever it is written. -/
theorem unplaced_apply (hthm : Alike ρ thm thm') {rule rule' : Rule} (hrule : Alike ρ rule rule')
    {head head' : Token.Ref} (hhead : Alike ρ head head') (span span' : Span) {args args' : List Term}
    (hargs : Alike ρ args args') :
    (apply thm rule head span args).unplaced ρ = (apply thm' rule' head' span' args').unplaced ρ := by
  have hsubst : ∀ (rule : Rule) (args : List Term),
      Subst.move (.forget ρ) (.ofList (rule.paramNames.zip args)) =
        .ofList (rule.paramNames.zip (relocate (.forget ρ) args)) := by
    intro rule args
    rw [Subst.move, NameMap.map_ofList, relocate_eq_map, List.zip_map_right]
    rfl
  have hσ : Subst.move (.forget ρ) (.ofList (rule.paramNames.zip args)) =
      Subst.move (.forget ρ) (.ofList (rule'.paramNames.zip args')) := by
    rw [hsubst, hsubst, hargs, Rule.paramNames_eq hrule]
  have hinst : ∀ ts ts' : List Term, Alike ρ ts ts' →
      Alike ρ (ts.map (Term.subst (.ofList (rule.paramNames.zip args))))
        (ts'.map (Term.subst (.ofList (rule'.paramNames.zip args')))) := by
    intro ts ts' hts
    unfold Alike
    rw [← Term.substAll_relocate, ← Term.substAll_relocate, hσ, hts]
  have hdistinct : Distinct.instantiate rule.groups (.ofList (rule.paramNames.zip args)) =
      Distinct.instantiate rule'.groups (.ofList (rule'.paramNames.zip args')) := by
    rw [← Distinct.instantiate_move (φ := .forget ρ), hσ, Distinct.instantiate_move, Rule.groups_eq hrule]
  have htargets := hinst _ _ (Rule.alike_targets hrule)
  have hassumptions := hinst _ _ (Rule.alike_assumptions hrule)
  simp only [apply, unplaced, Step.mk.injEq]
  have hhole : args.any Term.hasHole = args'.any Term.hasHole :=
    hargs.apply_eq (f := fun ts : List Term => ts.any Term.hasHole) fun ts => by
      rw [relocate_eq_map, List.any_map]
      exact congrArg ts.any (funext fun t => Term.hasHole_relocate t)
  refine ⟨hhead, hargs, trivial, hrule, htargets, hassumptions, hdistinct, hhole, ?_, trivial⟩
  rw [hdistinct, Rule.violations_eq hthm]

/-- The steps are the same up to places, and the head of the second is that of the first, moved. -/
structure Moved (φ : Relocation) (ρ : Template → Template) (s s' : Step) : Prop where
  unplaced : s.unplaced ρ = s'.unplaced ρ
  head : s'.head = relocate φ s.head

theorem rule?_agree (hs : scope.Agree ρ scope') (x : String) :
    rule? scope x = none ∧ rule? scope' x = none ∨
      ∃ kind r r', rule? scope x = some (kind, r) ∧ rule? scope' x = some (kind, r') ∧ Alike ρ r r' := by
  unfold rule?
  cases hx : scope.find? x with
  | none => exact .inl ⟨rfl, by rw [hs.find?_none hx]⟩
  | some d =>
    obtain ⟨d', hd', he⟩ := hs.find?_some hx
    rw [hd']
    cases d with
    | type d => obtain ⟨d', rfl⟩ := Decl.unplaced_type he; exact .inl ⟨rfl, rfl⟩
    | term d => obtain ⟨d', rfl, -⟩ := Decl.unplaced_term he; exact .inl ⟨rfl, rfl⟩
    | axm r => obtain ⟨r', rfl, hr⟩ := Decl.unplaced_axm he; exact .inr ⟨_, _, _, rfl, rfl, hr⟩
    | thm t => obtain ⟨t', rfl, hr⟩ := Decl.unplaced_thm he; exact .inr ⟨_, _, _, rfl, rfl, hr⟩

open Filling

theorem matches_fillArgs (hs : scope.Agree ρ scope') {params params' : List Param}
    (hp : Alike ρ params params') (head : Token.Ref) {wants wants' : List Param} (hw : Alike ρ wants wants')
    (es : List Expr) :
    Filling.Matches φ ρ (Alike ρ) (fillArgs scope params head wants es)
      (fillArgs scope' params' (relocate φ head) wants' (relocate φ es)) := by
  induction wants generalizing wants' es with
  | nil =>
    rw [hw.nil_left]
    unfold fillArgs
    exact Filling.matches_pure rfl
  | cons want wants ih =>
    obtain ⟨want', wants', rfl, hw, hws⟩ := hw.cons_left
    cases es with
    | nil =>
      rw [relocate_nil]
      unfold fillArgs
      refine Filling.matches_bind (matches_fresh head _ _ hw) fun t t' ht => ?_
      refine Filling.matches_bind (ih hws []) fun ts ts' hts => ?_
      exact Filling.matches_pure (alike_cons.2 ⟨ht, hts⟩)
    | cons e es =>
      rw [relocate_cons]
      unfold fillArgs
      refine Filling.matches_bind (Expr.matches_fill hs hp want want' hw e) fun t t' ht => ?_
      refine Filling.matches_bind (ih hws es) fun ts ts' hts => ?_
      exact Filling.matches_pure (alike_cons.2 ⟨ht, hts⟩)

theorem matches_elaborate? (hs : scope.Agree ρ scope') (hthm : Alike ρ thm thm') (e : Expr) :
    Filling.Matches φ ρ (Option.Rel (Moved φ ρ)) (elaborate? scope thm e)
      (elaborate? scope' thm' (relocate φ e)) := by
  unfold elaborate?
  rw [Expr.head_relocate, Token.Ref.text_relocate]
  rcases rule?_agree hs e.head.text with ⟨hr, hr'⟩ | ⟨kind, r, r', hr, hr', hrule⟩
  · simp only [hr, hr']
    refine matches_fault _ _ (Filling.matches_bind (matches_lift (Noted.matches_refine ..)) fun _ _ _ => ?_)
    exact Filling.matches_pure .none
  · simp only [hr, hr', Expr.args_relocate, length_relocate, (Rule.alike_params hrule).length_eq]
    refine Filling.matches_bind (matches_lift (matches_checkArity ..)) fun _ _ _ => ?_
    refine Filling.matches_bind (matches_lift (Noted.matches_refine ..)) fun _ _ _ => ?_
    refine Filling.matches_bind (matches_fillArgs hs (Rule.alike_params hthm) e.head
      (Rule.alike_params hrule) e.args) fun args args' hargs => ?_
    have hhead := e.head.alike_relocate (φ := φ) (ρ := ρ)
    have hstep := unplaced_apply hthm hrule hhead e.span (relocate φ e).span hargs
    -- the same conditions are violated
    have hviolations : (apply thm r e.head e.span args).violations =
        (apply thm' r' (relocate φ e.head) (relocate φ e).span args').violations := by
      injection hstep
    rw [hviolations]
    refine Filling.matches_bind (matches_faults _ _ _) fun _ _ _ => ?_
    exact Filling.matches_pure (.some ⟨hstep, rfl⟩)

theorem matches_elaborateAll (hs : scope.Agree ρ scope') (hthm : Alike ρ thm thm') (es : List Expr) :
    Filling.Matches φ ρ (fun r r' => List.Forall₂ (Moved φ ρ) r.1 r'.1) (elaborateAll scope thm es)
      (elaborateAll scope' thm' (relocate φ es)) := by
  induction es with
  | nil => exact Filling.matches_pure .nil
  | cons e es ih =>
    rw [relocate_cons]
    unfold elaborateAll
    refine Filling.matches_bind (matches_elaborate? hs hthm e) fun s s' hstep => ?_
    refine Filling.matches_bind ih fun r r' hr => ?_
    cases hstep with
    | none => exact Filling.matches_pure hr
    | some hstep => exact Filling.matches_pure (.cons hstep hr)

end Step

namespace Goals

theorem added_relocate (assumed : NameSet) (seen : List String) (as : List Term) :
    added assumed seen (relocate φ as) = relocate φ (added assumed seen as) := by
  induction as generalizing seen with
  | nil => rfl
  | cons a as ih =>
    rw [relocate_cons, added, added, Term.key_relocate, ih, ih]
    split <;> rfl

theorem advance_relocate (assumed : NameSet) (current targets assumptions : List Term) :
    advance assumed (relocate φ current) (relocate φ targets) (relocate φ assumptions) =
      relocate φ (advance assumed current targets assumptions) := by
  have hany : (relocate φ current).any (fun t => (Term.keys targets).contains t.key) =
      current.any fun t => (Term.keys targets).contains t.key := by
    rw [relocate_eq_map, List.any_map]
    exact congrArg (current.any ·) (funext fun t => by rw [Function.comp_apply, Term.key_relocate])
  have hrest : (relocate φ current).filter
        (fun t => !(Term.keys targets).contains t.key && !assumed.contains t.key) =
      relocate φ (current.filter fun t => !(Term.keys targets).contains t.key && !assumed.contains t.key) := by
    rw [relocate_eq_map, relocate_eq_map, List.filter_map]
    exact congrArg (fun p => (current.filter p).map _)
      (funext fun t => by rw [Function.comp_apply, Term.key_relocate])
  unfold advance
  simp only [Term.keys_relocate, hany, hrest, added_relocate]
  split
  · rw [relocate_some, relocate_append]
  · rfl

theorem alike_advance (assumed : NameSet) {current current' targets targets' assumptions assumptions' : List Term}
    (hc : Alike ρ current current') (ht : Alike ρ targets targets') (ha : Alike ρ assumptions assumptions') :
    Alike ρ (advance assumed current targets assumptions) (advance assumed current' targets' assumptions') := by
  unfold Alike
  rw [← advance_relocate, ← advance_relocate, hc, ht, ha]

end Goals

namespace Step

variable {thm thm' : Rule}

theorem Moved.comment_eq {s s' : Step} (h : Moved φ ρ s s') {goals goals' : List Term}
    (hg : Alike ρ goals goals') (hρ : ρ = id) : s.comment goals = s'.comment goals' := by
  have htexts : Term.texts goals = Term.texts goals' := hg.apply_eq (Term.texts_relocate hρ)
  have hempty : goals.isEmpty = goals'.isEmpty := hg.apply_eq isEmpty_relocate
  unfold comment
  rw [h.head, Token.Ref.text_relocate, htexts, hempty]

theorem matches_replay (hthm : Alike ρ thm thm') (holes holes' : Holes) {current current' : List Term}
    (hc : Alike ρ current current') {steps steps' : List Step}
    (hsteps : List.Forall₂ (Moved φ ρ) steps steps') :
    Noted.Matches φ ρ (fun r r' => Alike ρ r.1 r'.1)
      (replay thm holes current steps) (replay thm' holes' current' steps') := by
  induction hsteps generalizing current current' with
  | nil => exact Noted.matches_pure rfl
  | cons hstep _ ih =>
    rename_i s s' steps steps' _
    have htargets : Alike ρ s.targets s'.targets := congrArg Step.targets hstep.unplaced
    have hassumptions : Alike ρ s.assumptions s'.assumptions := congrArg Step.assumptions hstep.unplaced
    have hkeys : Term.keys thm.assumptions = Term.keys thm'.assumptions :=
      (Rule.alike_assumptions hthm).apply_eq Term.keys_relocate
    have hadvance := Goals.alike_advance (.ofList (Term.keys thm.assumptions)) hc htargets hassumptions
    unfold replay
    rw [← hkeys]
    cases hgoals : Goals.advance (.ofList (Term.keys thm.assumptions)) current s.targets s.assumptions with
    | some goals =>
      rw [hgoals] at hadvance
      obtain ⟨goals', hgoals', hg⟩ := hadvance.exists_some
      simp only [hgoals']
      rw [hstep.head]
      refine Noted.matches_bind (matches_comment _ (hstep.comment_eq hg)) fun _ _ _ => ?_
      exact Noted.matches_bind (ih hg) fun r r' hr => Noted.matches_pure (alike_cons.2 ⟨hg, hr⟩)
    | none =>
      rw [hgoals] at hadvance
      simp only [hadvance.eq_none]
      rw [hstep.head]
      refine Noted.matches_bind (Noted.matches_fault ..) fun _ _ _ => ?_
      exact Noted.matches_bind (ih hc) fun r r' hr => Noted.matches_pure (alike_cons.2 ⟨hc, hr⟩)

end Step

namespace Thm

theorem isProved_unplaced (t : Thm) : (t.unplaced ρ).isProved = t.isProved := by
  have hgoals : (t.unplaced ρ).openGoals = relocate (.forget ρ) t.openGoals := by
    unfold openGoals unplaced
    rw [relocate_eq_map, List.getLast?_map]
    cases t.trace.getLast? <;> rfl
  rw [isProved, hgoals, isEmpty_relocate, isProved]

theorem map_unplaced_of_moved {steps steps' : List Step} (h : List.Forall₂ (Step.Moved φ ρ) steps steps') :
    steps.map (·.unplaced ρ) = steps'.map (·.unplaced ρ) := by
  induction h with
  | nil => rfl
  | cons hstep _ ih => rw [List.map_cons, List.map_cons, hstep.unplaced, ih]

theorem matches_prove {scope scope' : Scope} (hs : scope.Agree ρ scope') {rule rule' : Rule}
    (hrule : Alike ρ rule rule') (proof : List Expr) :
    Noted.Matches φ ρ (fun t t' => t.unplaced ρ = t'.unplaced ρ ∧ t.rule = rule) (prove scope rule proof)
      (prove scope' rule' (relocate φ proof)) := by
  refine Noted.matches_bind (Step.matches_elaborateAll hs hrule proof ∅ ∅ .empty) fun r r' hr => ?_
  refine Noted.matches_bind (Step.matches_replay hrule r.2.holes r'.2.holes (Rule.alike_targets hrule) hr.1) ?_
  intro q q' hq
  refine Noted.matches_pure ⟨?_, rfl⟩
  have hproof := map_unplaced_of_moved hr.1
  unfold unplaced
  rw [hrule, hproof, hq]

end Thm

/-! ### Declarations -/

namespace Scope

variable {scope scope' : Scope}

/-- Two tables are those of two scopes with declarations added that are the same up to places, and the
scopes still agree. -/
def Grown (ρ : Template → Template) (scope scope' : Scope) (table table' : Table) : Prop :=
  ∃ ds ds', table.decls = scope.table.decls ++ ds ∧ table'.decls = scope'.table.decls ++ ds' ∧
    ds.map (Decl.unplaced ρ) = ds'.map (Decl.unplaced ρ) ∧
      { scope with table }.Agree ρ { scope' with table := table' }

theorem Agree.grown (h : scope.Agree ρ scope') : scope.Grown ρ scope' scope.table scope'.table :=
  ⟨[], [], (List.append_nil _).symm, (List.append_nil _).symm, rfl, h⟩

theorem Grown.agree {table table' : Table} (h : scope.Grown ρ scope' table table') :
    { scope with table }.Agree ρ { scope' with table := table' } :=
  h.elim fun _ h => h.elim fun _ h => h.2.2.2

theorem Grown.trans {table table' table₂ table₂' : Table} (h : scope.Grown ρ scope' table table')
    (h₂ : Grown ρ { scope with table } { scope' with table := table' } table₂ table₂') :
    scope.Grown ρ scope' table₂ table₂' := by
  obtain ⟨ds, ds', hds, hds', he, -⟩ := h
  obtain ⟨es, es', hes, hes', he₂, hagree⟩ := h₂
  refine ⟨ds ++ es, ds' ++ es', ?_, ?_, ?_, hagree⟩
  · rw [hes, ← List.append_assoc, ← hds]
  · rw [hes', ← List.append_assoc, ← hds']
  · rw [List.map_append, List.map_append, he, he₂]

/-- What a name finds once a declaration of a new name is added. -/
theorem find?_insert {d : Decl} {table : Table} (ht : table.decls = scope.table.decls ++ [d])
    (hnew : scope.find? d.name.text = none) (x : String) :
    ({ scope with table } : Scope).find? x = if d.name.text = x then some d else scope.find? x := by
  obtain ⟨hnone, himports⟩ := Option.or_eq_none_iff.1 hnew
  have htable : table.find? x = (scope.table.find? x).or (if d.name.text = x then some d else none) := by
    unfold Table.find?
    rw [ht, List.find?_append, List.find?_singleton]
    simp only [beq_iff_eq]
  unfold find?
  rw [htable]
  split
  · next hx => rw [← hx, hnone]; rfl
  · rw [Option.or_none]

theorem insert_of_find?_none {d : Decl} (hnew : scope.find? d.name.text = none) :
    scope.table.insert d = .ok ⟨scope.table.decls ++ [d]⟩ := by
  obtain ⟨hnone, -⟩ := Option.or_eq_none_iff.1 hnew
  unfold Table.insert
  rw [hnone]
  rfl

theorem matches_declare (h : scope.Agree ρ scope') {d d' : Decl} (hd : d.unplaced ρ = d'.unplaced ρ)
    (hnew : scope.find? d.name.text = none) :
    Noted.Matches φ ρ (scope.Grown ρ scope') (scope.declare d) (scope'.declare d') := by
  have hnew' : scope'.find? d'.name.text = none := by
    rw [← Decl.name_text_eq hd]
    exact h.find?_none hnew
  unfold declare
  rw [insert_of_find?_none hnew, insert_of_find?_none hnew']
  refine Noted.matches_pure ⟨[d], [d'], rfl, rfl, by rw [List.map_singleton, List.map_singleton, hd], ?_⟩
  intro x
  rw [find?_insert rfl hnew, find?_insert rfl hnew', Decl.name_text_eq hd]
  split
  · exact congrArg some hd
  · exact h x

end Scope

variable {scope scope' : Scope}

theorem TypeBlock.matches_declareNames (h : scope.Agree ρ scope') (span span' : Span) (names : List Token.Ref) :
    Noted.Matches φ ρ (scope.Grown ρ scope') (declareNames scope span names)
      (declareNames scope' span' (relocate φ names)) := by
  induction names generalizing scope scope' with
  | nil => exact Noted.matches_pure h.grown
  | cons name names ih =>
    have hrest : ∀ table table', scope.Grown ρ scope' table table' →
        Noted.Matches φ ρ (scope.Grown ρ scope') (declareNames { scope with table } span names)
          (declareNames { scope' with table := table' } span' (relocate φ names)) := fun _ _ ht =>
      (ih ht.agree).mono fun _ _ ht₂ => ht.trans ht₂
    rw [relocate_cons]
    unfold declareNames
    refine Noted.matches_bind (Scope.matches_checkFresh h name) ?_
    rintro ok _ ⟨rfl, hfresh⟩
    refine Noted.matches_ite (fun hok => ?_) fun _ => ?_
    · exact Noted.matches_bind (Scope.matches_declare h rfl (hfresh hok)) hrest
    · exact Noted.matches_bind (Noted.matches_pure h.grown) hrest

/-- Marking the parameters in a form is no fault. -/
theorem TermBlock.diagnostics_marks (names : List String) (content : List Token.Ref) :
    (content.forM fun token =>
      if names.contains token.text then Noted.refine token .argName else pure ()).notes.diagnostics = [] := by
  induction content with
  | nil => rfl
  | cons token content ih =>
    show Notes.diagnostics (Noted.notes (ite _ _ _ >>= fun _ => content.forM _)) = []
    rw [Noted.notes_bind, Notes.diagnostics_append, ih, List.append_nil]
    split <;> rfl

/-- The form of a term block may change, if the template stays as it is. -/
theorem TermBlock.matches_declare (h : scope.Agree ρ scope') (b : TermBlock) {content : List Token.Ref}
    (hcontent : ρ = id → content = relocate φ b.content)
    (htemplate : ρ (Template.ofForm (b.params.map (·.name.text)) (b.content.map (·.text))) =
      ρ (Template.ofForm (b.params.map (·.name.text)) (content.map (·.text)))) :
    Noted.Matches φ ρ (scope.Grown ρ scope') (b.declare scope)
      (TermBlock.declare scope' { relocate φ b with content }) := by
  have hnames : (relocate φ b.params).map (·.name.text) = b.params.map (·.name.text) :=
    map_relocate fun _ _ => rfl
  unfold declare
  refine Noted.matches_bind (Scope.matches_checkType h b.type) ?_
  rintro ok _ rfl
  refine Noted.matches_ite (fun _ => Noted.matches_pure h.grown) fun _ => ?_
  refine Noted.matches_bind (Scope.matches_checkFresh h b.name) ?_
  rintro ok _ ⟨rfl, hfresh⟩
  refine Noted.matches_ite (fun _ => Noted.matches_pure h.grown) fun hok => ?_
  refine Noted.matches_bind (Scope.matches_checkParams h [] b.params) ?_
  rintro ok _ rfl
  refine Noted.matches_ite (fun _ => Noted.matches_pure h.grown) fun _ => ?_
  have hmarks : Noted.Matches φ ρ (fun _ _ => True)
      (b.content.forM fun token =>
        if (b.params.map (·.name.text)).contains token.text then Noted.refine token .argName else pure ())
      (content.forM fun token =>
        if (b.params.map (·.name.text)).contains token.text then Noted.refine token .argName else pure ()) := by
    refine ⟨trivial, ?_, fun hρ => ?_⟩
    · rw [diagnostics_marks, diagnostics_marks, relocate_nil]
    · rw [hcontent hρ]
      exact (Noted.matches_forM (ρ := ρ) (fun (token : Token.Ref) => Noted.matches_ite
        (fun _ => matches_refine token _) fun _ => Noted.matches_pure trivial) b.content).marks hρ
  show Noted.Matches φ ρ _ _ (_ >>= fun _ : Unit => _)
  simp only [show (relocate φ b).params = relocate φ b.params from rfl, hnames]
  refine Noted.matches_bind hmarks fun _ _ _ => Scope.matches_declare h ?_ (hfresh (by simpa using hok))
  refine congrArg Decl.term ?_
  show TermDecl.mk _ _ (relocate (.forget ρ) b.params) (ρ _) _ =
    TermDecl.mk _ _ (relocate (.forget ρ) (relocate φ b.params)) (ρ _) _
  rw [← Param.alikeAll_relocate (φ := φ) (ρ := ρ) b.params, htemplate]
  rfl

theorem RuleBlock.matches_statements (h : scope.Agree ρ scope') {params params' : List Param}
    (hp : Alike ρ params params') (es : List Expr) :
    Noted.Matches φ ρ (Alike ρ) (statements scope params es) (statements scope' params' (relocate φ es)) := by
  induction es with
  | nil => exact Noted.matches_pure rfl
  | cons e es ih =>
    rw [relocate_cons]
    unfold statements
    refine Noted.matches_bind (Expr.matches_elaborate h hp e) fun t t' ht => ?_
    cases t with
    | none =>
      rw [ht.1.eq_none]
      exact Noted.matches_pure rfl
    | some t =>
      obtain ⟨t', rfl, hterm⟩ := ht.1.exists_some
      have htext : ρ = id → t.text = t'.text := fun hρ => hterm.apply_eq (Term.text_relocate hρ)
      simp only [ht.2 t rfl t' rfl]
      refine Noted.matches_bind (matches_comment _ htext) fun _ _ _ => ?_
      refine Noted.matches_bind ih fun ts ts' hts => Noted.matches_pure ?_
      cases ts with
      | none => rw [hts.eq_none]; rfl
      | some ts =>
        obtain ⟨ts', rfl, hall⟩ := hts.exists_some
        exact alike_some.2 (alike_cons.2 ⟨hterm, hall⟩)

theorem RuleBlock.matches_rule? (h : scope.Agree ρ scope') (b : RuleBlock) :
    Noted.Matches φ ρ (fun r r' => Alike ρ r r' ∧ (∀ s ∈ r, scope.find? s.name.text = none) ∧
        ∀ s ∈ r, ∀ s' ∈ r', s'.name = relocate φ s.name)
      (b.rule? scope) ((relocate φ b).rule? scope') := by
  unfold rule?
  refine Noted.matches_bind (Scope.matches_checkFresh h b.name) ?_
  rintro ok _ ⟨rfl, hfresh⟩
  refine Noted.matches_ite (fun _ => Noted.matches_pure ⟨rfl, nofun, nofun⟩) fun hok => ?_
  refine Noted.matches_bind (Scope.matches_checkParams h [] b.params) ?_
  rintro ok _ rfl
  refine Noted.matches_ite (fun _ => Noted.matches_pure ⟨rfl, nofun, nofun⟩) fun _ => ?_
  have hp := Param.alikeAll_relocate (φ := φ) (ρ := ρ) b.params
  refine Noted.matches_bind (RuleBlock.matches_statements h hp b.targets) fun ts ts' hts => ?_
  cases ts with
  | none =>
    rw [hts.eq_none]
    exact Noted.matches_pure ⟨rfl, nofun, nofun⟩
  | some targets =>
    obtain ⟨targets', rfl, htargets⟩ := hts.exists_some
    refine Noted.matches_bind (RuleBlock.matches_statements h hp b.assumptions) fun as as' has => ?_
    cases as with
    | none =>
      rw [has.eq_none]
      exact Noted.matches_pure ⟨rfl, nofun, nofun⟩
    | some assumptions =>
      obtain ⟨assumptions', rfl, hassumptions⟩ := has.exists_some
      refine Noted.matches_pure ⟨alike_some.2 ?_, ?_, ?_⟩
      · have hgroups : (relocate φ b.distinct).map (·.map (·.text)) = b.distinct.map (·.map (·.text)) :=
          map_relocate fun _ _ => map_relocate fun _ _ => rfl
        show Rule.mk _ _ _ _ _ _ = Rule.mk _ _ _ _ _ _
        rw [htargets, hassumptions, hp]
        exact congrArg (Rule.mk _ _ _ _ · _) hgroups.symm
      · rintro _ ⟨⟩
        exact hfresh (by simpa using hok)
      · rintro _ ⟨⟩ _ ⟨⟩
        rfl

theorem RuleBlock.matches_declare (h : scope.Agree ρ scope') (b : RuleBlock) :
    Noted.Matches φ ρ (scope.Grown ρ scope') (b.declare scope) ((relocate φ b).declare scope') := by
  refine Noted.matches_bind (RuleBlock.matches_rule? h b) fun r r' hr => ?_
  cases r with
  | none =>
    rw [hr.1.eq_none]
    exact Noted.matches_pure h.grown
  | some r =>
    obtain ⟨r', rfl, hrule⟩ := hr.1.exists_some
    exact Scope.matches_declare h (congrArg Decl.axm hrule) (hr.2.1 r rfl)

theorem ThmBlock.matches_declare (h : scope.Agree ρ scope') (b : ThmBlock) :
    Noted.Matches φ ρ (scope.Grown ρ scope') (b.declare scope) ((relocate φ b).declare scope') := by
  refine Noted.matches_bind (RuleBlock.matches_rule? h b.toRuleBlock) fun r r' hr => ?_
  cases r with
  | none =>
    rw [hr.1.eq_none]
    exact Noted.matches_pure h.grown
  | some r =>
    obtain ⟨r', rfl, hrule⟩ := hr.1.exists_some
    refine Noted.matches_bind (Thm.matches_prove h hrule b.proof) fun t t' ht => ?_
    have hnew : scope.find? (Decl.thm t).name.text = none := by
      show scope.find? t.rule.name.text = none
      rw [ht.2]
      exact hr.2.1 r rfl
    have hthm : (Decl.thm t).unplaced ρ = (Decl.thm t').unplaced ρ := congrArg Decl.thm ht.1
    have hdeclare := Scope.matches_declare (φ := φ) h hthm hnew
    rw [← t'.isProved_unplaced, ← ht.1, t.isProved_unplaced, hr.2.2 r rfl r' rfl]
    exact Noted.matches_ite (fun _ => Noted.matches_bind (Noted.matches_fault ..) fun _ _ _ => hdeclare)
      fun _ => hdeclare

namespace Block

/-- In scopes that agree two blocks declare the same and have the same faults, up to places. -/
def Follows (φ : Relocation) (ρ : Template → Template) (b b' : Block) : Prop :=
  ∀ scope scope', Scope.Agree ρ scope scope' →
    Noted.Matches φ ρ (scope.Grown ρ scope') (b.declare scope) (b'.declare scope')

theorem follows_relocate (b : Block) : b.Follows φ ρ (relocate φ b) := by
  intro scope scope' h
  cases b with
  | types b => exact TypeBlock.matches_declareNames h b.span _ b.names
  | term b =>
    have htexts : (relocate φ b.content).map (·.text) = b.content.map (·.text) := map_relocate fun _ _ => rfl
    exact b.matches_declare h (fun _ => rfl) (by rw [htexts])
  | axm b => exact b.matches_declare h
  | thm b => exact b.matches_declare h

theorem follows_relocateAll (blocks : List Block) :
    List.Forall₂ (Follows φ ρ) blocks (relocate φ blocks) := by
  rw [relocate_eq_map, List.forall₂_map_right_iff]
  exact List.forall₂_same.2 fun b _ => b.follows_relocate

theorem matches_declareAll (h : scope.Agree ρ scope') {blocks blocks' : List Block}
    (hblocks : List.Forall₂ (Follows φ ρ) blocks blocks') :
    Noted.Matches φ ρ (scope.Grown ρ scope') (declareAll scope blocks) (declareAll scope' blocks') := by
  induction hblocks generalizing scope scope' with
  | nil => exact Noted.matches_pure h.grown
  | cons hb _ ih =>
    refine Noted.matches_bind (hb _ _ h) fun table table' ht => ?_
    exact (ih ht.agree).mono fun _ _ ht₂ => ht.trans ht₂

end Block

end Sequitur
