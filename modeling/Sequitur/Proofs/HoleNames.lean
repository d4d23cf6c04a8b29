import Sequitur.Proofs.Alternatives

/-!
# Names that unification maps

Unification binds and identifies holes, so what it maps are names of holes, and what it maps them to is put
together from parts of the terms that it is given. So a property that parts of terms have, and terms whose
arguments are replaced by others with it, is handed on to all that is found (`Term.within_unify`). Nothing
is asked of the terms, and a hole may have the name of something else. For the names of holes this says that
a candidate for a step maps only names of holes in the statements it was found from (`Candidate.holesIn`).
-/

namespace Sequitur

variable {P : String → Prop} {Q : Term → Prop} {σ : Subst} {s t : Term}

/-- A property of terms that arguments have, and applications that are given other arguments with it; `P`
holds of the names of holes. -/
structure Term.Inherited (P : String → Prop) (Q : Term → Prop) : Prop where
  args : ∀ t, Q t → ∀ a ∈ t.args, Q a
  hole : ∀ t, Q t → t.isHole = true → P t.key
  rebuild : ∀ head span decl args args', Q (.app head span decl args) → (∀ a ∈ args', Q a) →
    Q (.app head span decl args')

/-- Maps names with a property to terms with a property. -/
def Subst.Within (P : String → Prop) (Q : Term → Prop) (σ : Subst) : Prop :=
  ∀ v t, σ.get? v = some t → P v ∧ Q t

/-- The names of all holes have the property. -/
def Term.HolesIn (P : String → Prop) (t : Term) : Prop := ∀ h ∈ t.holes, P h.key

/-- Maps names with the property only, to terms all of whose holes have such names. -/
def Subst.HolesIn (P : String → Prop) (σ : Subst) : Prop := ∀ v t, σ.get? v = some t → P v ∧ t.HolesIn P

/-! ### Terms -/

namespace Term

namespace Inherited

theorem subst (hQ : Inherited P Q) (ht : Q t) (hσ : ∀ v s, σ.get? v = some s → Q s) : Q (t.subst σ) := by
  have hor : ∀ (x : String) (u : Term), Q u → Q ((σ.get? x).getD u) := by
    intro x u hu
    cases hs : σ.get? x with
    | none => exact hu
    | some s => exact hσ x s hs
  induction t using Term.ind with
  | var head span param => exact hor _ _ ht
  | hole head span param => exact hor _ _ ht
  | app head span decl args ih =>
    rw [subst_app]
    refine hor _ _ (hQ.rebuild head span decl args _ ht fun b hb => ?_)
    obtain ⟨a, ha, rfl⟩ := List.mem_map.1 hb
    exact ih a ha (hQ.args _ ht a ha)

theorem holes (hQ : Inherited P Q) (ht : Q t) : ∀ h ∈ t.holes, Q h := by
  induction t using Term.ind with
  | var head span param => exact List.forall_mem_nil _
  | hole head span param => exact List.forall_mem_singleton.2 ht
  | app head span decl args ih =>
    intro h hh
    rw [holes_app] at hh
    obtain ⟨a, ha, hh⟩ := List.mem_flatMap.1 hh
    exact ih a ha (hQ.args _ ht a ha) h hh

end Inherited

theorem holesIn_app {head : Token.Ref} {span : Span} {decl : TermDecl} {args : List Term} :
    HolesIn P (.app head span decl args) ↔ ∀ a ∈ args, a.HolesIn P := by
  simp only [HolesIn, holes_app, List.mem_flatMap, forall_exists_index, and_imp]
  exact ⟨fun h a ha x hx => h x a ha hx, fun h x a ha hx => h a ha x hx⟩

theorem inherited_holesIn (P : String → Prop) : Inherited P (HolesIn P) where
  args t ht a ha := by
    cases t with
    | app head span decl args => exact holesIn_app.1 ht a ha
    | _ => exact absurd ha List.not_mem_nil
  hole t ht hhole := by
    cases t with
    | hole head span param => exact ht _ (List.mem_singleton_self _)
    | _ => exact absurd hhole Bool.false_ne_true
  rebuild _ _ _ _ _ _ hargs := holesIn_app.2 hargs

theorem Complete.holesIn {decls : List Decl} {params : List Param} (h : t.Complete decls params) :
    t.HolesIn P := by
  rw [HolesIn, hasHole_eq_false.1 h.noHole]
  exact List.forall_mem_nil _

theorem HolesIn.subst (ht : t.HolesIn P) (hσ : ∀ v s, σ.get? v = some s → s.HolesIn P) :
    (t.subst σ).HolesIn P :=
  (inherited_holesIn P).subst ht hσ

end Term

/-! ### Unification -/

theorem Term.Inherited.discipline (hQ : Term.Inherited P Q) :
    Unifier.Discipline (fun v t => P v ∧ Q t) (fun v w => P v ∧ P w) (fun s t => Q s ∧ Q t) where
  symm := And.symm
  trans hvw hwx := ⟨hvw.1, hwx.2⟩
  move hvw hB := ⟨hvw.2, hB.2⟩
  compare hs ht := ⟨hs.2, ht.2⟩
  swap := And.symm
  bind hC hs := ⟨hQ.hole _ hC.1 hs, hC.2⟩
  identify hC hs ht := ⟨hQ.hole _ hC.1 hs, hQ.hole _ hC.2 ht⟩
  args := by
    rintro s t ⟨hs, ht⟩ - p hp
    obtain ⟨hps, hpt⟩ := List.of_mem_zip hp
    exact ⟨hQ.args s hs _ hps, hQ.args t ht _ hpt⟩
  holes hC h hh := by
    have hQh := hQ.holes hC.1 h hh
    exact ⟨hQ.hole h hQh (mem_holes.1 hh).2, hQh⟩
  subst hσ hB := ⟨hB.1, hQ.subst hB.2 fun w s hs => (hσ w s hs).2⟩

/-- Unification maps names of holes to terms made of those that it is given and of those that it starts on
top of. -/
theorem Term.within_unify (hQ : Inherited P Q) {base : Subst} (hbase : base.Within P Q) (hs : Q s) (ht : Q t)
    (h : unify base s t = some σ) : σ.Within P Q :=
  keeps_unify hQ.discipline hbase ⟨hs, ht⟩ h

namespace Candidate

variable {current targets assumptions hyps : List Term}

theorem within_found (hQ : Term.Inherited P Q) (h : σ ∈ found current targets assumptions hyps)
    (hcurrent : ∀ t ∈ current, Q t) (htargets : ∀ t ∈ targets, Q t) (hassumptions : ∀ t ∈ assumptions, Q t)
    (hhyps : ∀ t ∈ hyps, Q t) : σ.Within P Q := by
  have hempty : Subst.Within P Q ∅ := fun v t ht => by cases ht
  obtain ⟨goal, hgoal, target, htarget, σ₀, hσ₀, hor⟩ := mem_found.1 h
  have hin := Term.within_unify hQ hempty (htargets _ htarget) (hcurrent _ hgoal) hσ₀
  rcases hor with rfl | hext
  · exact hin
  · obtain ⟨a, ha, x, hx, hσ, -⟩ := mem_extensions.1 hext
    exact Term.within_unify hQ hin (hassumptions _ ha) (hhyps _ hx) hσ

theorem holesIn (h : σ ∈ candidates current targets assumptions hyps) (hcurrent : ∀ t ∈ current, t.HolesIn P)
    (htargets : ∀ t ∈ targets, t.HolesIn P) (hassumptions : ∀ t ∈ assumptions, t.HolesIn P)
    (hhyps : ∀ t ∈ hyps, t.HolesIn P) : σ.HolesIn P :=
  within_found (Term.inherited_holesIn P) (found_of_mem_candidates h) hcurrent htargets hassumptions hhyps

end Candidate

end Sequitur
