import Sequitur.Proofs.Hygiene
import Sequitur.Proofs.UnifierInvariants

/-!
# Types under unification

Unification compares names and never looks at types. Still, the terms that holes are bound to have the
types of the holes, if each hole has one type wherever it stands and names denote one thing each
(`Context`): arguments that are paired stand in the places of one parameter. Only the two terms that
unification starts from stand in no such place. So they have to have one type if one of them is a hole
(`SameType`), and nothing else has to be asked (`Term.in_unify`).
-/

namespace Sequitur

/-- The names that the terms of a proof may hold. No two things have one name. -/
structure Context where
  decls : List Decl
  params : List Param
  /-- The types of holes. -/
  type? : String → Option String
  names : NamesApart decls params
  word : ∀ v, (type? v).isSome → IsWord v
  apart : ∀ v, (type? v).isSome → Apart decls params v

variable {Γ : Context} {σ : Subst} {s t : Term}

/-! ### Terms in a context -/

/-- Well typed, with holes of the types that the context gives them. -/
structure Term.In (Γ : Context) (t : Term) : Prop where
  wellTyped : t.WellTyped Γ.decls Γ.params
  holes : ∀ h ∈ t.holes, Γ.type? h.key = some h.type

/-- Maps holes to terms of their types. -/
def Subst.In (Γ : Context) (σ : Subst) : Prop :=
  ∀ v t, σ.get? v = some t → t.In Γ ∧ Γ.type? v = some t.type

namespace Term

theorem in_hole {head : Token.Ref} {span : Span} {param : Param} :
    In Γ (.hole head span param) ↔ Γ.type? head.text = some param.type.text :=
  ⟨fun h => h.holes _ (List.mem_singleton.2 rfl), fun h => ⟨trivial, fun x hx => by
    rw [List.mem_singleton.1 hx]
    exact h⟩⟩

theorem in_app {head : Token.Ref} {span : Span} {decl : TermDecl} {args : List Term} :
    In Γ (.app head span decl args) ↔
      (.term decl ∈ Γ.decls ∧ head.text = decl.name.text ∧ Fits Γ.decls Γ.params args decl.params) ∧
        ∀ a ∈ args, a.In Γ := by
  constructor
  · rintro ⟨ht, hh⟩
    obtain ⟨hdecl, hhead, hfits⟩ := wellTyped_app.1 ht
    refine ⟨⟨hdecl, hhead, hfits⟩, fun a ha => ⟨hfits.wellTyped_of_mem ha, fun h hm => hh h ?_⟩⟩
    rw [holes_app]
    exact List.mem_flatMap.2 ⟨a, ha, hm⟩
  · rintro ⟨ht, hargs⟩
    refine ⟨wellTyped_app.2 ht, fun h hm => ?_⟩
    rw [holes_app] at hm
    obtain ⟨a, ha, hm⟩ := List.mem_flatMap.1 hm
    exact (hargs a ha).holes h hm

/-- Arguments may be replaced by ones of their types. -/
theorem in_app_map {head : Token.Ref} {span : Span} {decl : TermDecl} {decls : List Decl}
    {params : List Param} {args : List Term} {f : Term → Term} (hmem : .term decl ∈ Γ.decls)
    (hhead : head.text = decl.name.text) (hfits : Fits decls params args decl.params)
    (hf : ∀ a ∈ args, (f a).type = a.type ∧ (f a).In Γ) : In Γ (.app head span decl (args.map f)) := by
  refine in_app.2 ⟨⟨hmem, hhead, hfits.map fun a ha _ => ?_⟩, fun b hb => ?_⟩
  · obtain ⟨htype, hin⟩ := hf a ha
    exact ⟨htype, hin.wellTyped⟩
  · obtain ⟨a, ha, rfl⟩ := List.mem_map.1 hb
    exact (hf a ha).2

theorem In.of_mem_args {a : Term} (h : t.In Γ) (ha : a ∈ t.args) : a.In Γ := by
  cases t with
  | app head span decl args => exact (in_app.1 h).2 a ha
  | _ => exact absurd ha List.not_mem_nil

theorem In.type?_key (h : t.In Γ) (ht : t.isHole = true) : Γ.type? t.key = some t.type := by
  cases t with
  | hole head span param => exact in_hole.1 h
  | _ => exact absurd ht nofun

theorem In.of_mem_holes {h : Term} (ht : t.In Γ) (hh : h ∈ t.holes) : h.In Γ := by
  have htype := ht.holes h hh
  cases h with
  | hole head span param => exact in_hole.2 htype
  | _ => exact absurd (mem_holes.1 hh).2 nofun

theorem Fits.type_of_mem_zip {decls : List Decl} {params wants : List Param} {args args' : List Term}
    (h : Fits decls params args wants) (h' : Fits decls params args' wants) {p : Term × Term}
    (hp : p ∈ args.zip args') : p.1.type = p.2.type := by
  induction args generalizing args' wants with
  | nil => exact absurd hp List.not_mem_nil
  | cons a args ih =>
    cases args' with
    | nil => exact absurd hp List.not_mem_nil
    | cons a' args' =>
      cases wants with
      | nil => exact h.elim
      | cons want wants =>
        obtain ⟨htype, -, h⟩ := fits_cons.1 h
        obtain ⟨htype', -, h'⟩ := fits_cons.1 h'
        rcases List.mem_cons.1 hp with rfl | hp
        · exact htype.trans htype'.symm
        · exact ih h h' hp

theorem Complete.in (h : t.Complete Γ.decls Γ.params) : t.In Γ :=
  ⟨h.wellTyped, by rw [hasHole_eq_false.1 h.noHole]; exact List.forall_mem_nil _⟩

end Term

namespace Subst.In

theorem onWords (h : σ.In Γ) : σ.OnWords := by
  intro v hv
  obtain ⟨t, ht⟩ := Option.isSome_iff_exists.1 hv
  exact Γ.word v (Option.isSome_of_eq_some (h v t ht).2)

theorem get?_eq_none (h : σ.In Γ) {x : String} (hx : ¬Apart Γ.decls Γ.params x) : σ.get? x = none := by
  cases ht : σ.get? x with
  | none => rfl
  | some t => exact absurd (Γ.apart x (Option.isSome_of_eq_some (h x t ht).2)) hx

/-- A substitution of holes by terms of their types keeps a term well typed and of its type. -/
theorem subst (hσ : σ.In Γ) (ht : t.In Γ) : (t.subst σ).type = t.type ∧ (t.subst σ).In Γ := by
  have hdecl : ∀ x ∈ t.declNames, σ.get? x = none := by
    intro x hx
    obtain ⟨d, hd, hname⟩ := ht.wellTyped.exists_of_mem_declNames hx
    exact hσ.get?_eq_none fun hapart => hapart.2 d hd hname
  rw [Term.subst_eq_graft hσ.onWords hdecl]
  clear hdecl
  induction t using Term.ind with
  | var head span param =>
    rw [Term.graft_var, hσ.get?_eq_none fun hapart => hapart.1 param ht.wellTyped.1 rfl]
    exact ⟨rfl, ht⟩
  | hole head span param =>
    rw [Term.graft_hole]
    cases hr : σ.get? head.text with
    | none => exact ⟨rfl, ht⟩
    | some r =>
      obtain ⟨hin, htype⟩ := hσ _ r hr
      rw [Term.in_hole.1 ht] at htype
      exact ⟨(Option.some.inj htype).symm, hin⟩
  | app head span decl args ih =>
    obtain ⟨⟨hmem, hhead, hfits⟩, hargs⟩ := Term.in_app.1 ht
    rw [Term.graft_app]
    exact ⟨rfl, Term.in_app_map hmem hhead hfits fun a ha => ih a ha (hargs a ha)⟩

end Subst.In

/-! ### Unification -/

/-- Terms to start from. -/
def SameType (s t : Term) : Prop := s.isHole = true ∨ t.isHole = true → s.type = t.type

namespace Unifier

/-- Arguments under one head stand in the places of the same parameters. -/
theorem sameType_of_mem_zip (hs : s.In Γ) (ht : t.In Γ) (hhead : s.head.text = t.head.text)
    {p : Term × Term} (hp : p ∈ s.args.zip t.args) : p.1.type = p.2.type := by
  cases s with
  | app head span decl args =>
    cases t with
    | app head' span' decl' args' =>
      obtain ⟨⟨hdecl, hname, hfits⟩, -⟩ := Term.in_app.1 hs
      obtain ⟨⟨hdecl', hname', hfits'⟩, -⟩ := Term.in_app.1 ht
      have he : Decl.term decl = .term decl' := by
        refine List.inj_on_of_nodup_map Γ.names.declNames hdecl hdecl' ?_
        exact hname.symm.trans (hhead.trans hname')
      cases he
      exact hfits.type_of_mem_zip hfits' hp
    | _ => exact absurd (List.of_mem_zip hp).2 List.not_mem_nil
  | _ => exact absurd (List.of_mem_zip hp).1 List.not_mem_nil

/-- Holes are bound to terms of their types and identified with holes of their types. Below the root `SameType`
comes for free, so it is asked of the two terms to start from only. -/
theorem discipline_in (Γ : Context) :
    Discipline (fun v t => t.In Γ ∧ Γ.type? v = some t.type) (fun v w => Γ.type? v = Γ.type? w)
      (fun s t => s.In Γ ∧ t.In Γ ∧ SameType s t) where
  symm := Eq.symm
  trans := Eq.trans
  move hvw hB := ⟨hB.1, hvw ▸ hB.2⟩
  compare hs ht := ⟨hs.1, ht.1, fun _ => Option.some.inj (hs.2.symm.trans ht.2)⟩
  swap hC := ⟨hC.2.1, hC.1, fun hor => (hC.2.2 hor.symm).symm⟩
  bind hC hs := ⟨hC.2.1, by rw [hC.1.type?_key hs, hC.2.2 (.inl hs)]⟩
  identify hC hs ht := by rw [hC.1.type?_key hs, hC.2.1.type?_key ht, hC.2.2 (.inl hs)]
  args := by
    rintro s t ⟨hs, ht, -⟩ hhead p hp
    obtain ⟨hps, hpt⟩ := List.of_mem_zip hp
    exact ⟨hs.of_mem_args hps, ht.of_mem_args hpt, fun _ => sameType_of_mem_zip hs ht hhead hp⟩
  holes hC h hh := ⟨hC.1.of_mem_holes hh, hC.1.holes h hh⟩
  subst hσ hB := by
    obtain ⟨htype, hin⟩ := Subst.In.subst hσ hB.1
    exact ⟨hin, htype ▸ hB.2⟩

end Unifier

/-- Unification of well-typed terms on top of a well-typed substitution gives one. -/
theorem Term.in_unify {base : Subst} (hbase : base.In Γ) (hs : s.In Γ) (ht : t.In Γ) (htype : SameType s t)
    (h : unify base s t = some σ) : σ.In Γ :=
  keeps_unify (Unifier.discipline_in Γ) hbase ⟨hs, ht, htype⟩ h

end Sequitur
