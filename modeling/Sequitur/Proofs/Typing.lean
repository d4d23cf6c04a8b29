import Mathlib.Data.List.Nodup
import Sequitur.Decl
import Sequitur.Proofs.Names
import Sequitur.Proofs.Substitution

/-!
# Typing

A term is well typed over earlier declarations and the parameters of a block if its parameters are
among those of the block and its applications are of declared terms, to arguments of the types they
want. It is complete if it has no holes besides.

Putting terms of the right types in the place of parameters keeps a term complete (`Complete.graft`).
Where names are words and no name is used twice, complete terms with the same key differ only in the
places where they were written (`Complete.bare_eq_of_key_eq`).
-/

namespace Sequitur

namespace Term

mutual
/-- Holes are taken as they are. -/
def WellTyped (decls : List Decl) (params : List Param) : Term → Prop
  | .var head _ param => param ∈ params ∧ head.text = param.name.text
  | .hole .. => True
  | .app head _ decl args =>
    .term decl ∈ decls ∧ head.text = decl.name.text ∧ Fits decls params args decl.params
/-- One well-typed term for each parameter, of its type. -/
def Fits (decls : List Decl) (params : List Param) : List Term → List Param → Prop
  | [], wants => wants = []
  | _ :: _, [] => False
  | t :: ts, want :: wants =>
    t.type = want.type.text ∧ WellTyped decls params t ∧ Fits decls params ts wants
end

structure Complete (decls : List Decl) (params : List Param) (t : Term) : Prop where
  wellTyped : t.WellTyped decls params
  noHole : t.hasHole = false

variable {decls decls' : List Decl} {params params' wants : List Param} {s t : Term} {ts : List Term}

theorem wellTyped_app {head : Token.Ref} {span : Span} {decl : TermDecl} {args : List Term} :
    WellTyped decls params (.app head span decl args) ↔
      .term decl ∈ decls ∧ head.text = decl.name.text ∧ Fits decls params args decl.params := by
  rw [WellTyped]

theorem fits_cons {want : Param} : Fits decls params (t :: ts) (want :: wants) ↔
    t.type = want.type.text ∧ t.WellTyped decls params ∧ Fits decls params ts wants := by
  rw [Fits]

theorem Fits.length_eq (h : Fits decls params ts wants) : ts.length = wants.length := by
  induction ts generalizing wants with
  | nil =>
    cases h
    rfl
  | cons t ts ih =>
    cases wants with
    | nil => exact h.elim
    | cons want wants => rw [List.length_cons, List.length_cons, ih (fits_cons.1 h).2.2]

theorem Fits.of_mem_zip {want : Param} (h : Fits decls params ts wants) (hm : (want, t) ∈ wants.zip ts) :
    t.type = want.type.text ∧ t.WellTyped decls params := by
  induction ts generalizing wants with
  | nil => simp at hm
  | cons u ts ih =>
    cases wants with
    | nil => exact h.elim
    | cons w wants =>
      obtain ⟨htype, hu, h⟩ := fits_cons.1 h
      rcases List.mem_cons.1 hm with he | hm
      · cases he
        exact ⟨htype, hu⟩
      · exact ih h hm

theorem Fits.wellTyped_of_mem (h : Fits decls params ts wants) (ht : t ∈ ts) :
    t.WellTyped decls params := by
  obtain ⟨i, hi, rfl⟩ := List.getElem_of_mem ht
  have hi' : i < wants.length := h.length_eq ▸ hi
  have hm : (wants[i], ts[i]) ∈ wants.zip ts :=
    List.mem_iff_getElem.2 ⟨i, by simp [h.length_eq, hi'], by simp⟩
  exact (h.of_mem_zip hm).2

/-- Terms that fit can be replaced by others of their types. -/
theorem Fits.map {f : Term → Term} (h : Fits decls params ts wants)
    (hf : ∀ t ∈ ts, t.WellTyped decls params → (f t).type = t.type ∧ (f t).WellTyped decls' params') :
    Fits decls' params' (ts.map f) wants := by
  induction ts generalizing wants with
  | nil => exact h
  | cons t ts ih =>
    cases wants with
    | nil => exact h.elim
    | cons want wants =>
      obtain ⟨htype, ht, h⟩ := fits_cons.1 h
      obtain ⟨htype', ht'⟩ := hf t (List.mem_cons_self ..) ht
      refine fits_cons.2 ⟨htype'.trans htype, ht', ih h fun u hu => ?_⟩
      exact hf u (List.mem_cons_of_mem _ hu)

theorem WellTyped.exists_of_mem_declNames {x : String} (h : t.WellTyped decls params)
    (hx : x ∈ t.declNames) : ∃ d ∈ decls, d.name.text = x := by
  induction t using Term.ind with
  | var => exact absurd hx List.not_mem_nil
  | hole => exact absurd hx List.not_mem_nil
  | app head span decl args ih =>
    obtain ⟨hdecl, -, hargs⟩ := wellTyped_app.1 h
    rw [declNames_app] at hx
    rcases List.mem_cons.1 hx with rfl | hx
    · exact ⟨_, hdecl, rfl⟩
    · obtain ⟨a, ha, hx⟩ := List.mem_flatMap.1 hx
      exact ih a ha (hargs.wellTyped_of_mem ha) hx

theorem WellTyped.exists_of_mem_varNames {x : String} (h : t.WellTyped decls params)
    (hx : x ∈ t.varNames) : ∃ p ∈ params, p.name.text = x := by
  induction t using Term.ind with
  | var head span param =>
    rw [List.mem_singleton.1 hx]
    exact ⟨param, h.1, rfl⟩
  | hole => exact absurd hx List.not_mem_nil
  | app head span decl args ih =>
    rw [varNames_app] at hx
    obtain ⟨a, ha, hx⟩ := List.mem_flatMap.1 hx
    exact ih a ha ((wellTyped_app.1 h).2.2.wellTyped_of_mem ha) hx

/-! ### Holes -/

@[simp] theorem hasHole_var (head : Token.Ref) (span : Span) (param : Param) :
    hasHole (.var head span param) = false := rfl

@[simp] theorem hasHole_hole (head : Token.Ref) (span : Span) (param : Param) :
    hasHole (.hole head span param) = true := rfl

theorem hasHole_eq_false : t.hasHole = false ↔ t.holes = [] := by
  simp [hasHole]

theorem hasHole_app {head : Token.Ref} {span : Span} {decl : TermDecl} {args : List Term} :
    hasHole (.app head span decl args) = false ↔ ∀ a ∈ args, a.hasHole = false := by
  simp only [hasHole_eq_false, holes_app, List.flatMap_eq_nil_iff]

theorem complete_app {head : Token.Ref} {span : Span} {decl : TermDecl} {args : List Term} :
    Complete decls params (.app head span decl args) ↔
      (.term decl ∈ decls ∧ head.text = decl.name.text) ∧
        Fits decls params args decl.params ∧ ∀ a ∈ args, a.hasHole = false := by
  constructor
  · rintro ⟨ht, hh⟩
    obtain ⟨hd, hn, hf⟩ := wellTyped_app.1 ht
    exact ⟨⟨hd, hn⟩, hf, hasHole_app.1 hh⟩
  · rintro ⟨⟨hd, hn⟩, hf, hh⟩
    exact ⟨wellTyped_app.2 ⟨hd, hn, hf⟩, hasHole_app.2 hh⟩

end Term

/-! ### Instances of parameters -/

/-- Maps the names of parameters to the arguments in their places. -/
def Subst.ofArgs (params : List Param) (args : List Term) : Subst :=
  .ofList ((params.map (·.name.text)).zip args)

/-- Complete terms for parameters, of their types. -/
structure IsInstance (decls : List Decl) (params wants : List Param) (args : List Term) : Prop where
  fits : Term.Fits decls params args wants
  noHoles : ∀ a ∈ args, a.hasHole = false

variable {decls decls' : List Decl} {params wants : List Param} {args : List Term} {t : Term}

theorem Subst.map_fst_zip_args (h : args.length = params.length) :
    ((params.map (·.name.text)).zip args).map (·.1) = params.map (·.name.text) := by
  exact List.map_fst_zip (by simp [h])

theorem Subst.get?_ofArgs_of_not_mem {x : String} (h : args.length = params.length)
    (hx : x ∉ params.map (·.name.text)) : (ofArgs params args).get? x = none := by
  refine NameMap.get?_ofList_of_not_mem ?_
  rwa [map_fst_zip_args h]

theorem Term.Fits.exists_get?_ofArgs (h : Fits decls params args wants)
    (hn : (wants.map (·.name.text)).Nodup) {want : Param} (hw : want ∈ wants) :
    ∃ t ∈ args, (Subst.ofArgs wants args).get? want.name.text = some t ∧ t.type = want.type.text := by
  have hlen := h.length_eq
  obtain ⟨i, hi, rfl⟩ := List.getElem_of_mem hw
  have hzip : (wants[i], args[i]) ∈ wants.zip args :=
    List.mem_iff_getElem.2 ⟨i, by simpa [hlen] using hi, by simp⟩
  refine ⟨args[i], List.getElem_mem _, NameMap.get?_ofList_of_mem ?_ ?_, (h.of_mem_zip hzip).1⟩
  · rwa [Subst.map_fst_zip_args hlen]
  · rw [List.zip_map_left]
    exact List.mem_map_of_mem (f := Prod.map _ id) hzip

theorem IsInstance.exists_get?_ofArgs (h : IsInstance decls params wants args)
    (hn : (wants.map (·.name.text)).Nodup) {want : Param} (hw : want ∈ wants) :
    ∃ t, (Subst.ofArgs wants args).get? want.name.text = some t ∧ t.type = want.type.text ∧
      t.Complete decls params := by
  obtain ⟨t, ht, hget, htype⟩ := h.fits.exists_get?_ofArgs hn hw
  exact ⟨t, hget, htype, h.fits.wellTyped_of_mem ht, h.noHoles t ht⟩

namespace Term

theorem Complete.graft (h : t.Complete decls wants) (hn : (wants.map (·.name.text)).Nodup)
    (hd : decls ⊆ decls') (hargs : IsInstance decls' params wants args) :
    (t.graft (.ofArgs wants args)).type = t.type ∧
      (t.graft (.ofArgs wants args)).Complete decls' params := by
  induction t using Term.ind with
  | var head span param =>
    obtain ⟨s, hs, htype, hc⟩ := hargs.exists_get?_ofArgs hn h.wellTyped.1
    rw [graft_var, hs, Option.getD_some]
    exact ⟨htype, hc⟩
  | hole head span param => exact absurd h.noHole (by simp)
  | app head span decl args' ih =>
    obtain ⟨⟨hdecl, hhead⟩, hfits, hholes⟩ := complete_app.1 h
    have hgraft : ∀ a ∈ args', (a.graft (.ofArgs wants args)).type = a.type ∧
        (a.graft (.ofArgs wants args)).Complete decls' params := fun a ha =>
      ih a ha ⟨hfits.wellTyped_of_mem ha, hholes a ha⟩
    rw [graft_app]
    refine ⟨rfl, complete_app.2 ⟨⟨hd hdecl, hhead⟩, hfits.map fun a ha _ => ?_, fun b hb => ?_⟩⟩
    · exact ⟨(hgraft a ha).1, (hgraft a ha).2.wellTyped⟩
    · obtain ⟨a, ha, rfl⟩ := List.mem_map.1 hb
      exact (hgraft a ha).2.noHole

/-! ### Places and keys -/

mutual
/-- The term without the places where it was written. -/
def bare : Term → Term
  | .var _ _ param => .var default default param
  | .hole head _ param => .hole { text := head.text } default param
  | .app _ _ decl args => .app default default decl (bareAll args)
def bareAll : List Term → List Term
  | [] => []
  | t :: ts => bare t :: bareAll ts
end

theorem bareAll_eq_map (ts : List Term) : bareAll ts = ts.map bare := by
  induction ts with
  | nil => rfl
  | cons t ts ih => simp [bareAll, ih]

@[simp] theorem bare_app (head : Token.Ref) (span : Span) (decl : TermDecl) (args : List Term) :
    bare (.app head span decl args) = .app default default decl (args.map bare) := by
  rw [bare, bareAll_eq_map]

theorem bare_graft (σ : Subst) (t : Term) :
    (t.graft σ).bare = t.bare.graft (σ.map fun _ s => s.bare) := by
  induction t using Term.ind with
  | var head span param =>
    rw [graft_var, bare, graft_var, NameMap.get?_map]
    cases σ.get? param.name.text <;> rfl
  | hole head span param =>
    rw [graft_hole, bare, graft_hole, NameMap.get?_map]
    cases σ.get? head.text <;> rfl
  | app head span decl args ih =>
    simp only [graft_app, bare_app, List.map_map]
    exact congrArg _ (List.map_congr_left ih)

end Term

/-- All names are words, and no name of a declaration or a parameter is used twice. -/
structure NamesApart (decls : List Decl) (params : List Param) : Prop where
  declNames : (decls.map (·.name.text)).Nodup
  paramNames : (params.map (·.name.text)).Nodup
  apart : ∀ p ∈ params, ∀ d ∈ decls, d.name.text ≠ p.name.text
  declWords : ∀ d ∈ decls, IsWord d.name.text
  paramWords : ∀ p ∈ params, IsWord p.name.text

namespace Term

variable {s : Term}

theorem Complete.words (h : t.Complete decls params) (hn : NamesApart decls params) : t.tree.Words := by
  induction t using Term.ind with
  | var head span param => exact ⟨hn.paramWords param h.wellTyped.1, trivial⟩
  | hole head span param => exact absurd h.noHole (by simp)
  | app head span decl args ih =>
    obtain ⟨⟨hdecl, -⟩, hfits, hholes⟩ := complete_app.1 h
    rw [tree_app]
    refine ⟨hn.declWords _ hdecl, Tree.wordsAll_iff.2 fun u hu => ?_⟩
    obtain ⟨a, ha, rfl⟩ := List.mem_map.1 hu
    exact ih a ha ⟨hfits.wellTyped_of_mem ha, hholes a ha⟩

theorem map_bare_eq_of_map_tree_eq {ss ts : List Term}
    (h : ∀ s ∈ ss, ∀ t ∈ ts, s.tree = t.tree → s.bare = t.bare) (he : ss.map tree = ts.map tree) :
    ss.map bare = ts.map bare := by
  induction ss generalizing ts with
  | nil =>
    rw [List.map_eq_nil_iff.1 he.symm]
  | cons s ss ih =>
    cases ts with
    | nil => exact absurd he nofun
    | cons t ts =>
      simp only [List.map_cons, List.cons.injEq] at he ⊢
      refine ⟨h s (List.mem_cons_self ..) t (List.mem_cons_self ..) he.1, ih ?_ he.2⟩
      exact fun s hs t ht => h s (List.mem_cons_of_mem _ hs) t (List.mem_cons_of_mem _ ht)

theorem Complete.bare_eq_of_tree_eq (hn : NamesApart decls params) (hs : s.Complete decls params)
    (ht : t.Complete decls params) (h : s.tree = t.tree) : s.bare = t.bare := by
  induction s using Term.ind generalizing t with
  | hole head span param => exact absurd hs.noHole (by simp)
  | var head span param =>
    have hparam := hs.wellTyped.1
    cases t with
    | hole => exact absurd ht.noHole (by simp)
    | var head' span' param' =>
      have hname : param.name.text = param'.name.text := by simpa using h
      have := List.inj_on_of_nodup_map hn.paramNames hparam ht.wellTyped.1 hname
      rw [bare, bare, this]
    | app head' span' decl args =>
      have hname : param.name.text = decl.name.text := by
        simp only [tree_var, tree_app, Tree.node.injEq] at h
        exact h.1
      exact absurd hname.symm (hn.apart param hparam _ (complete_app.1 ht).1.1)
  | app head span decl args ih =>
    obtain ⟨⟨hdecl, -⟩, hfits, hholes⟩ := complete_app.1 hs
    cases t with
    | hole => exact absurd ht.noHole (by simp)
    | var head' span' param =>
      have hname : decl.name.text = param.name.text := by
        simp only [tree_var, tree_app, Tree.node.injEq] at h
        exact h.1
      exact absurd hname (hn.apart param ht.wellTyped.1 _ hdecl)
    | app head' span' decl' args' =>
      obtain ⟨⟨hdecl', -⟩, hfits', hholes'⟩ := complete_app.1 ht
      simp only [tree_app, Tree.node.injEq] at h
      obtain ⟨hname, hargs⟩ := h
      have he : Decl.term decl = .term decl' := List.inj_on_of_nodup_map hn.declNames hdecl hdecl' hname
      cases he
      rw [bare_app, bare_app]
      refine congrArg _ (map_bare_eq_of_map_tree_eq (fun a ha b hb => ?_) hargs)
      exact ih a ha ⟨hfits.wellTyped_of_mem ha, hholes a ha⟩ ⟨hfits'.wellTyped_of_mem hb, hholes' b hb⟩

theorem Complete.bare_eq_of_key_eq (hn : NamesApart decls params) (hs : s.Complete decls params)
    (ht : t.Complete decls params) (h : s.key = t.key) : s.bare = t.bare :=
  hs.bare_eq_of_tree_eq hn ht (tree_eq_of_key_eq (hs.words hn) (ht.words hn) h)

/-- Substitution of arguments for the parameters of a rule is what it should be: none of its names is
also the name of a declared term. -/
theorem Complete.subst_eq_graft (hn : NamesApart decls wants) (h : t.Complete decls wants)
    (hlen : args.length = wants.length) :
    t.subst (.ofArgs wants args) = t.graft (.ofArgs wants args) := by
  have hdom : ∀ x, ((Subst.ofArgs wants args).get? x).isSome → ∃ p ∈ wants, p.name.text = x := by
    intro x hx
    by_contra hnot
    refine absurd hx ?_
    rw [Subst.get?_ofArgs_of_not_mem hlen fun hm => hnot (List.mem_map.1 hm)]
    exact Bool.false_ne_true
  refine Term.subst_eq_graft (fun x hx => ?_) fun x hx => Option.not_isSome_iff_eq_none.1 fun hx' => ?_
  · obtain ⟨p, hp, rfl⟩ := hdom x hx
    exact hn.paramWords p hp
  · obtain ⟨p, hp, rfl⟩ := hdom x hx'
    obtain ⟨d, hd, he⟩ := h.wellTyped.exists_of_mem_declNames hx
    exact hn.apart p hp d hd he

end Term

end Sequitur
