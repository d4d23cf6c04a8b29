import Sequitur.Proofs.MostGeneral

/-!
# Simultaneous substitution

`Term.subst` looks up the key of every subterm, and it makes a new term only where something inside it is
replaced. If it maps no key of an application in a term, then it is the simultaneous replacement of
parameters and holes (`Term.AppsFree.simultaneous`): the leaves are replaced once, all else stays, and a
term without a mapped leaf is not made anew.
-/

namespace Sequitur

namespace Term

variable {σ : Subst} {t : Term}

/-- What an application applies. -/
def decl? : Term → Option TermDecl
  | .app _ _ decl _ => some decl
  | _ => none

/-- Every application is to arguments of the types that its declaration wants. -/
def Applied (t : Term) : Prop :=
  ∀ u ∈ t.subterms, ∀ decl ∈ u.decl?, u.args.map type = decl.params.map (·.type.text)

/-- No key of an application in the term is mapped, be it to arguments or of a constant. -/
def AppsFree (σ : Subst) (t : Term) : Prop := ∀ u ∈ t.subterms, u.decl?.isSome → σ.get? u.key = none

/-- Every leaf that is replaced has the type of its replacement. -/
def LeavesTyped (σ : Subst) (t : Term) : Prop :=
  ∀ l ∈ t.leaves, ∀ s, σ.get? l.key = some s → s.type = l.type

/-! ### Subterms and leaves -/

theorem subterms_app (head : Token.Ref) (span : Span) (decl : TermDecl) (args : List Term) :
    subterms (.app head span decl args) = .app head span decl args :: args.flatMap subterms := by
  rw [subterms, subtermsAll_eq_flatMap]

theorem forall_subterms_app {P : Term → Prop} {head : Token.Ref} {span : Span} {decl : TermDecl}
    {args : List Term} : (∀ u ∈ subterms (.app head span decl args), P u) ↔
      P (.app head span decl args) ∧ ∀ a ∈ args, ∀ u ∈ a.subterms, P u := by
  rw [subterms_app, List.forall_mem_cons]
  simp only [List.mem_flatMap, forall_exists_index, and_imp]
  exact and_congr_right fun _ => ⟨fun h a ha u hu => h u a ha hu, fun h u a ha hu => h a ha u hu⟩

theorem forall_leaves_app {P : Term → Prop} (head : Token.Ref) (span : Span) (decl : TermDecl)
    {args : List Term} (hargs : args ≠ []) :
    (∀ l ∈ leaves (.app head span decl args), P l) ↔ ∀ a ∈ args, ∀ l ∈ a.leaves, P l := by
  rw [leaves_app_of_ne_nil head span decl hargs]
  simp only [List.mem_flatMap, forall_exists_index, and_imp]
  exact ⟨fun h a ha l hl => h l a ha hl, fun h l a ha hl => h a ha l hl⟩

theorem leaves_subset_of_mem_args {a : Term} {head : Token.Ref} {span : Span} {decl : TermDecl}
    {args : List Term} (ha : a ∈ args) : a.leaves ⊆ leaves (.app head span decl args) := by
  rw [leaves_app_of_ne_nil head span decl (List.ne_nil_of_mem ha)]
  exact fun l hl => List.mem_flatMap.2 ⟨a, ha, hl⟩

theorem leaves_subset_subterms (t : Term) : t.leaves ⊆ t.subterms := by
  induction t using Term.ind with
  | var head span param => exact List.Subset.refl _
  | hole head span param => exact List.Subset.refl _
  | app head span decl args ih =>
    rw [subterms_app]
    by_cases hargs : args = []
    · subst hargs
      rw [leaves_app_nil]
      exact List.Subset.refl _
    · rw [leaves_app_of_ne_nil head span decl hargs]
      intro l hl
      obtain ⟨a, ha, hl⟩ := List.mem_flatMap.1 hl
      exact List.mem_cons_of_mem _ (List.mem_flatMap.2 ⟨a, ha, ih a ha hl⟩)

theorem args_of_mem_leaves {l : Term} (h : l ∈ t.leaves) : l.args = [] := by
  induction t using Term.ind with
  | var head span param =>
    rw [List.mem_singleton.1 h]
    rfl
  | hole head span param =>
    rw [List.mem_singleton.1 h]
    rfl
  | app head span decl args ih =>
    by_cases hargs : args = []
    · subst hargs
      rw [leaves_app_nil] at h
      rw [List.mem_singleton.1 h]
      rfl
    · rw [leaves_app_of_ne_nil head span decl hargs] at h
      obtain ⟨a, ha, h⟩ := List.mem_flatMap.1 h
      exact ih a ha h

theorem leaves_leaf {l : Term} (h : l ∈ t.leaves) : l.leaves = [l] := by
  have hargs := args_of_mem_leaves h
  cases l with
  | var head span param => rfl
  | hole head span param => rfl
  | app head span decl args =>
    obtain rfl : args = [] := hargs
    exact leaves_app_nil head span decl

namespace AppsFree

theorem of_mem_args {a : Term} {head : Token.Ref} {span : Span} {decl : TermDecl} {args : List Term}
    (h : AppsFree σ (.app head span decl args)) (ha : a ∈ args) : AppsFree σ a :=
  (forall_subterms_app.1 h).2 a ha

theorem get?_app {head : Token.Ref} {span : Span} {decl : TermDecl} {args : List Term}
    (h : AppsFree σ (.app head span decl args)) : σ.get? (key (.app head span decl args)) = none :=
  (forall_subterms_app.1 h).1 rfl

theorem subst_eq_graft (h : AppsFree σ t) : t.subst σ = t.graft σ := by
  induction t using Term.ind with
  | var head span param => rfl
  | hole head span param => rfl
  | app head span decl args ih =>
    rw [subst_app, h.get?_app, Option.getD_none, graft_app]
    exact congrArg _ (List.map_congr_left fun a ha => ih a ha (h.of_mem_args ha))

end AppsFree

/-! ### When a term is made anew -/

theorem snd_replaceAll_eq_none {ts : List Term} :
    (replaceAll σ ts).2 = none ↔ ∀ t ∈ ts, t.subst? σ = none := by
  induction ts with
  | nil => simp [replaceAll]
  | cons t ts ih =>
    rw [List.forall_mem_cons, ← ih, replaceAll]
    simp only [subst?]
    cases (replace σ t).2 <;> cases (replaceAll σ ts).2 <;> simp

theorem AppsFree.subst?_eq_none (h : AppsFree σ t) :
    t.subst? σ = none ↔ ∀ l ∈ t.leaves, σ.get? l.key = none := by
  induction t using Term.ind with
  | var head span param =>
    rw [leaves, List.forall_mem_singleton]
    exact Iff.rfl
  | hole head span param =>
    rw [leaves, List.forall_mem_singleton]
    exact Iff.rfl
  | app head span decl args ih =>
    have hreplaced : subst? σ (.app head span decl args) = none ↔ ∀ a ∈ args, a.subst? σ = none := by
      have hkey := h.get?_app
      rw [← fst_replace σ] at hkey
      rw [← snd_replaceAll_eq_none, subst?, replace]
      simp only [replace] at hkey
      rw [hkey, Option.none_or, Option.map_eq_none_iff]
    rw [hreplaced]
    by_cases hargs : args = []
    · subst hargs
      rw [leaves_app_nil, List.forall_mem_singleton]
      exact iff_of_true (List.forall_mem_nil _) h.get?_app
    · rw [forall_leaves_app head span decl hargs]
      exact forall₂_congr fun a ha => ih a ha (h.of_mem_args ha)

/-! ### Leaves of the result -/

theorem leaves_graft (σ : Subst) (t : Term) :
    (t.graft σ).leaves = t.leaves.flatMap fun l => (l.graft σ).leaves := by
  induction t using Term.ind with
  | var head span param => simp [leaves]
  | hole head span param => simp [leaves]
  | app head span decl args ih =>
    by_cases hargs : args = []
    · subst hargs
      rw [leaves_app_nil, List.flatMap_singleton]
    · have hmap : args.map (graft σ) ≠ [] := by simpa using hargs
      rw [graft_app, leaves_app_of_ne_nil _ _ _ hmap, leaves_app_of_ne_nil _ _ _ hargs, List.flatMap_map,
        List.flatMap_assoc]
      exact List.flatMap_congr fun a ha => ih a ha

theorem AppsFree.graft_leaf {l : Term} (h : AppsFree σ t) (hl : l ∈ t.leaves) :
    l.graft σ = (σ.get? l.key).getD l := by
  have hfree := h l (leaves_subset_subterms t hl)
  have hargs := args_of_mem_leaves hl
  cases l with
  | var head span param => rfl
  | hole head span param => rfl
  | app head span decl args =>
    obtain rfl : args = [] := hargs
    rw [hfree rfl, graft_app]
    rfl

theorem AppsFree.mem_leafNames_graft (h : AppsFree σ t) {x : String} :
    x ∈ (t.graft σ).leafNames ↔ x ∈ t.leafNames ∧ σ.get? x = none ∨
      ∃ y ∈ t.leafNames, ∃ s, σ.get? y = some s ∧ x ∈ s.leafNames := by
  have hself : ∀ l ∈ t.leaves, x ∈ l.leafNames ↔ l.key = x := by
    intro l hl
    simp [mem_leafNames, leaves_leaf hl]
  have hleaf : x ∈ (t.graft σ).leafNames ↔ ∃ l ∈ t.leaves, x ∈ ((σ.get? l.key).getD l).leafNames := by
    rw [mem_leafNames, leaves_graft]
    simp only [mem_leafNames, List.mem_flatMap]
    constructor
    · rintro ⟨m, ⟨l, hl, hm⟩, hx⟩
      exact ⟨l, hl, m, h.graft_leaf hl ▸ hm, hx⟩
    · rintro ⟨l, hl, m, hm, hx⟩
      exact ⟨m, ⟨l, hl, h.graft_leaf hl ▸ hm⟩, hx⟩
  rw [hleaf]
  constructor
  · rintro ⟨l, hl, hx⟩
    cases hs : σ.get? l.key with
    | none =>
      rw [hs, Option.getD_none, hself l hl] at hx
      exact .inl ⟨mem_leafNames.2 ⟨l, hl, hx⟩, hx ▸ hs⟩
    | some s =>
      rw [hs, Option.getD_some] at hx
      exact .inr ⟨l.key, mem_leafNames.2 ⟨l, hl, rfl⟩, s, hs, hx⟩
  · rintro (⟨hx, hnone⟩ | ⟨y, hy, s, hs, hx⟩)
    · obtain ⟨l, hl, rfl⟩ := mem_leafNames.1 hx
      exact ⟨l, hl, by rw [hnone, Option.getD_none, hself l hl]⟩
    · obtain ⟨l, hl, rfl⟩ := mem_leafNames.1 hy
      exact ⟨l, hl, by rwa [hs, Option.getD_some]⟩

/-! ### Types -/

theorem LeavesTyped.of_mem_args {a : Term} {head : Token.Ref} {span : Span} {decl : TermDecl}
    {args : List Term} (h : LeavesTyped σ (.app head span decl args)) (ha : a ∈ args) : LeavesTyped σ a :=
  fun l hl => h l (leaves_subset_of_mem_args ha hl)

theorem LeavesTyped.type_graft (h : LeavesTyped σ t) : (t.graft σ).type = t.type := by
  have hleaf : ∀ l ∈ t.leaves, ((σ.get? l.key).getD l).type = l.type := by
    intro l hl
    cases hs : σ.get? l.key with
    | none => rfl
    | some s => exact h l hl s hs
  cases t with
  | var head span param => exact hleaf _ (List.mem_singleton_self _)
  | hole head span param => exact hleaf _ (List.mem_singleton_self _)
  | app head span decl args =>
    rw [graft_app]
    rfl

theorem applied_app {head : Token.Ref} {span : Span} {decl : TermDecl} {args : List Term} :
    Applied (.app head span decl args) ↔
      args.map type = decl.params.map (·.type.text) ∧ ∀ a ∈ args, a.Applied := by
  refine forall_subterms_app.trans (and_congr_left' ?_)
  exact ⟨fun h => h decl rfl, by rintro h _ ⟨⟩; exact h⟩

theorem applied_of_subterms_eq {l : Term} (hl : l.subterms = [l]) (hdecl : l.decl? = none) : l.Applied := by
  intro u hu
  rw [hl, List.mem_singleton] at hu
  rw [hu, hdecl]
  exact fun _ h => absurd h (Option.not_mem_none _)

/-- With replacements of the right types, the result is well applied iff the term and the replacements are. -/
theorem LeavesTyped.applied_graft (h : LeavesTyped σ t) (hfree : AppsFree σ t) :
    (t.graft σ).Applied ↔ t.Applied ∧ ∀ l ∈ t.leaves, ∀ s, σ.get? l.key = some s → s.Applied := by
  have hleaf : ∀ l : Term, l.Applied →
      (((σ.get? l.key).getD l).Applied ↔ l.Applied ∧ ∀ s, σ.get? l.key = some s → s.Applied) := by
    intro l hl
    cases hs : σ.get? l.key with
    | none => simp [hl]
    | some s => simp [hl]
  induction t using Term.ind with
  | var head span param =>
    rw [leaves, List.forall_mem_singleton]
    exact hleaf (.var head span param) (applied_of_subterms_eq rfl rfl)
  | hole head span param =>
    rw [leaves, List.forall_mem_singleton]
    exact hleaf (.hole head span param) (applied_of_subterms_eq rfl rfl)
  | app head span decl args ih =>
    have htypes : (args.map (graft σ)).map type = args.map type := by
      rw [List.map_map]
      exact List.map_congr_left fun a ha => (h.of_mem_args ha).type_graft
    rw [graft_app, applied_app, applied_app, htypes, and_assoc]
    refine and_congr_right fun _ => ?_
    have hargs : (∀ b ∈ args.map (graft σ), b.Applied) ↔ (∀ a ∈ args, a.Applied) ∧
        ∀ a ∈ args, ∀ l ∈ a.leaves, ∀ s, σ.get? l.key = some s → s.Applied := by
      rw [List.forall_mem_map, ← forall₂_and]
      exact forall₂_congr fun a ha => ih a ha (h.of_mem_args ha) (hfree.of_mem_args ha)
    rw [hargs]
    refine and_congr_right fun _ => ?_
    by_cases hnil : args = []
    · subst hnil
      rw [leaves_app_nil, List.forall_mem_singleton, hfree.get?_app]
      simp
    · exact (forall_leaves_app head span decl hnil).symm

/-! ### The law -/

/-- What `Term.replace` and `Term.subst` do as simultaneous replacement of leaves. -/
structure Simultaneous (σ : Subst) (t : Term) : Prop where
  /-- What is put in place is not replaced again. -/
  subst_eq_graft : t.subst σ = t.graft σ
  /-- The key that is looked up next, spelled from the keys of arguments, is that of the term as it was. -/
  fst_replace : (replace σ t).1 = t.key
  /-- A term is made anew exactly where a leaf is mapped. -/
  subst?_eq_none : t.subst? σ = none ↔ ∀ l ∈ t.leaves, σ.get? l.key = none
  mem_leafNames : ∀ x, x ∈ (t.subst σ).leafNames ↔ x ∈ t.leafNames ∧ σ.get? x = none ∨
    ∃ y ∈ t.leafNames, ∃ s, σ.get? y = some s ∧ x ∈ s.leafNames
  type_subst : LeavesTyped σ t → (t.subst σ).type = t.type
  applied_subst : LeavesTyped σ t →
    ((t.subst σ).Applied ↔ t.Applied ∧ ∀ l ∈ t.leaves, ∀ s, σ.get? l.key = some s → s.Applied)

/-- Substitution replaces parameters and holes at once, if no application in the term is mapped. -/
theorem AppsFree.simultaneous (happs : AppsFree σ t) : Simultaneous σ t where
  subst_eq_graft := happs.subst_eq_graft
  fst_replace := fst_replace σ t
  subst?_eq_none := happs.subst?_eq_none
  mem_leafNames _ := happs.subst_eq_graft ▸ happs.mem_leafNames_graft
  type_subst h := happs.subst_eq_graft ▸ h.type_graft
  applied_subst h := happs.subst_eq_graft ▸ h.applied_graft happs

end Term

end Sequitur
