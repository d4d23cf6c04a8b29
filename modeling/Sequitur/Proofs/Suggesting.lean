import Sequitur.Proof.Goals
import Sequitur.Proofs.Extension

/-!
# Candidates make a step useful

A candidate comes from one unification, of a target with a goal, or from two: the second one, of an
assumption with a hypothesis, is on top of the substitution that the first one gave. What the first made
equal stays equal after the second, since the solutions of a finished substitution are solutions of what
it was made from (`Finishes.eval_eq`). So a step has a target among the goals under each of its
candidates; and it has a candidate if it has a target among the goals under any substitution of holes
(`candidates_useful`).
-/

namespace Sequitur

theorem Term.fill_eval {K N : String → Prop} {t : Term} {f : String → Tree} (h : t.Spelled K N)
    (hN : ∀ x, N x → f x = Unifier.leaf x) (θ : String → Tree) :
    (t.eval θ).fill f = t.eval fun v => (θ v).fill f := by
  induction t using Term.ind with
  | var head span param => rw [eval_var, eval_var, Tree.fill_leaf, hN _ (spelled_var.1 h).2, Unifier.leaf]
  | hole head span param => rfl
  | app head span decl args ih =>
    obtain ⟨hhead, hargs⟩ := spelled_app.1 h
    rw [eval_app, eval_app]
    by_cases hnil : args = []
    · rw [hnil, List.map_nil, List.map_nil, Tree.fill_leaf, hN _ hhead.2, Unifier.leaf]
    · rw [Tree.fill_node _ _ (by simpa using hnil), List.map_map]
      exact congrArg _ (List.map_congr_left fun a ha => ih a ha (hargs a ha))

namespace Unifier

variable {K K' N : String → Prop} {θ : String → Tree} {u : Unifier} {base σ : Subst} {s t : Term}
  {node? : String → Option Term}

/-! ### Solutions of a finished substitution -/

namespace Finishes

theorem mono (h : Finishes K' N u σ) (hK : ∀ v, K' v → K v) : Finishes K N u σ where
  key v t ht := hK v (h.key v t ht)
  spelled v t ht := (h.spelled v t ht).mono fun w _ hw => ⟨hK w hw.1, hw.2⟩
  value := h.value
  solves := h.solves

theorem resolved (h : Finishes K N u σ) : σ.Resolved :=
  fun v t ht _ hw => ((h.spelled v t ht).of_mem_holeNames hw).2

theorem bound (h : Finishes K N u σ) : ∀ v t, σ.get? v = some t → K v ∧ t.Spelled K N :=
  fun v t ht => ⟨h.key v t ht, (h.spelled v t ht).mono fun _ _ hw => hw.1⟩

/-- Every solution of the finished substitution is the one that leaves unmapped holes as they are, with
these filled. -/
theorem eval_eq (h : Finishes K N u σ) (hKN : NamesOk K N) (hs : s.Spelled K N) (ht : t.Spelled K N)
    (he : s.eval (σ.value leaf) = t.eval (σ.value leaf)) (hθ : ({ bindings := σ } : Unifier).Solves θ) :
    s.eval θ = t.eval θ := by
  classical
  let f : String → Tree := fun x => if K x then θ x else leaf x
  have hK : ∀ x, K x → f x = θ x := fun x hx => if_pos hx
  have hN : ∀ x, N x → f x = leaf x := fun x hx => if_neg fun hKx => hKN.apart x hKx hx
  have hvalue : ∀ v, K v → (σ.value leaf v).fill f = θ v := by
    intro v hv
    cases hσ : σ.get? v with
    | none => rw [Subst.value_of_none hσ, leaf, Tree.fill_leaf, hK v hv]
    | some r =>
      obtain ⟨-, hr⟩ := h.bound v r hσ
      rw [Subst.value_of_some hσ, Term.fill_eval hr hN, hθ.bindings v r hσ]
      refine Term.eval_congr fun w hw => ?_
      rw [leaf, Tree.fill_leaf, hK w (hr.of_mem_holeNames (Term.mem_holeNames.2 hw))]
  have hfill : ∀ r : Term, r.Spelled K N → (r.eval (σ.value leaf)).fill f = r.eval θ := by
    intro r hr
    rw [Term.fill_eval hr hN]
    exact Term.eval_congr fun w hw => hvalue w (hr.of_mem_holeNames (Term.mem_holeNames.2 hw))
  rw [← hfill s hs, ← hfill t ht, he]

end Finishes

/-- What unification on top of `base` is to give: a substitution with the solutions of `base` that make
the terms equal, or nothing if there are none. -/
def Decides (K N : String → Prop) (base : Subst) (s t : Term) : Option Subst → Prop
  | some σ => ∃ u, Finishes K N u σ ∧
      ∀ θ, u.Solves θ ↔ ({ bindings := base } : Unifier).Solves θ ∧ s.eval θ = t.eval θ
  | none => ∀ θ, ({ bindings := base } : Unifier).Solves θ → ¬s.eval θ = t.eval θ

theorem decides_unify_empty (hKN : NamesOk K N) (hs : s.Spelled K N) (ht : t.Spelled K N) :
    Decides K N ∅ s t (Term.unify ∅ s t) := by
  -- the holes of the two terms
  let K' : String → Prop := fun v => K v ∧ (Term.findHole? (s :: t :: NameMap.values ∅) v).isSome
  have hspelled : ∀ x ∈ s :: t :: NameMap.values ∅, x.Spelled K N → x.Spelled K' N := fun x hx hspelled =>
    hspelled.mono fun w hw hKw => ⟨hKw, Term.isSome_findHole? hx hw⟩
  have hout := outcome_unify Term.inPlay_spelled (ready_empty K' (Term.Spelled K' N))
    (hspelled s (by simp) hs) (hspelled t (by simp) ht)
  rw [Term.unify]
  cases hr : ({ bindings := ∅ } : Unifier).unify s t with
  | mk ok u =>
    rw [hr] at hout
    cases ok with
    | false => exact hout
    | true =>
      have hKN' : NamesOk K' N := ⟨fun v hv => hKN.holes v hv.1, hKN.others, fun v hv => hKN.apart v hv.1⟩
      have hfin := finishes_finish hout.1 hKN' (nodesOk_findHole? _) fun v hv => hv.2
      exact ⟨u, hfin.mono fun v hv => hv.1, hout.2⟩

theorem decides_unify_ground (hbase : base.Resolved) (hKN : NamesOk K N)
    (hbound : ∀ v r, base.get? v = some r → K v ∧ r.Spelled K N) (hs : s.Spelled K N) (ht : t.Spelled K N)
    (hground : t.hasHole = false) : Decides K N base s t (Term.unify base s t) := by
  have hout := outcome_base_ground hbase hbound Term.inPlay_spelled hs ht (.inr hground)
  rw [Term.unify, unify]
  cases hr : unifyWithin (({ bindings := base } : Unifier).depthBound s t) s t { bindings := base } with
  | none =>
    rw [hr] at hout
    exact hout.elim
  | some a =>
    obtain ⟨ok, u⟩ := a
    rw [hr] at hout
    cases ok with
    | false => exact hout
    | true => exact ⟨u, hout.1.finishes hbase hKN _, hout.2⟩

end Unifier

/-! ### Candidates -/

theorem Goals.isSome_advance {assumed : NameSet} {current targets assumptions : List Term} :
    (advance assumed current targets assumptions).isSome ↔
      ∃ target ∈ targets, ∃ goal ∈ current, target.key = goal.key := by
  rw [advance, Option.isSome_ite, List.any_eq_true, Term.keys_eq_map]
  constructor
  · rintro ⟨goal, hgoal, hkey⟩
    obtain ⟨target, htarget, hkey⟩ := List.mem_map.1 (List.contains_iff_mem.1 hkey)
    exact ⟨target, htarget, goal, hgoal, hkey⟩
  · rintro ⟨target, htarget, goal, hgoal, hkey⟩
    exact ⟨goal, hgoal, List.contains_iff_mem.2 (hkey ▸ List.mem_map_of_mem htarget)⟩

/-- Makes a target a goal. -/
def Subst.Meets (σ : Subst) (current targets : List Term) : Prop :=
  ∃ target ∈ targets, ∃ goal ∈ current, (target.subst σ).key = (goal.subst σ).key

theorem Subst.isSome_advance_iff_meets {σ : Subst} {assumed : NameSet}
    {current targets assumptions : List Term} :
    (Goals.advance assumed (current.map (Term.subst σ)) (targets.map (Term.subst σ))
      assumptions).isSome ↔ σ.Meets current targets := by
  simp only [Goals.isSome_advance, List.mem_map, Subst.Meets, exists_exists_and_eq_and]

namespace Candidate

variable {current targets assumptions hyps : List Term} {σ τ : Subst}

theorem mem_extensions : τ ∈ extensions assumptions hyps σ ↔
    ∃ a ∈ assumptions, ∃ h ∈ hyps, Term.unify σ a h = some τ ∧ σ.size < τ.size := by
  simp [extensions, List.mem_flatMap, List.mem_filterMap, Option.filter_eq_some_iff]

theorem mem_found : τ ∈ found current targets assumptions hyps ↔
    ∃ goal ∈ current, ∃ target ∈ targets, ∃ σ, Term.unify ∅ target goal = some σ ∧
      (τ = σ ∨ τ ∈ extensions assumptions hyps σ) := by
  simp only [found, List.mem_flatMap]
  refine exists_congr fun goal => and_congr_right fun _ => exists_congr fun target =>
    and_congr_right fun _ => ?_
  cases Term.unify ∅ target goal <;> simp

theorem dedup_subset (seen : NameSet) (σs : List Subst) : dedup seen σs ⊆ σs := by
  induction σs generalizing seen with
  | nil => exact List.Subset.refl _
  | cons σ σs ih =>
    rw [dedup]
    split
    · exact List.subset_cons_of_subset _ (ih seen)
    · exact List.cons_subset_cons _ (ih _)

theorem dedup_empty_ne_nil {σs : List Subst} (h : σs ≠ []) : dedup ∅ σs ≠ [] := by
  cases σs with
  | nil => exact absurd rfl h
  | cons σ σs => simp [dedup]

theorem mem_candidates : σ ∈ candidates current targets assumptions hyps ↔
    σ ∈ dedup ∅ (found current targets assumptions hyps) :=
  List.mem_mergeSort

theorem found_of_mem_candidates (h : σ ∈ candidates current targets assumptions hyps) :
    σ ∈ found current targets assumptions hyps :=
  dedup_subset _ _ (mem_candidates.1 h)

theorem candidates_ne_nil : candidates current targets assumptions hyps ≠ [] ↔
    ∃ goal ∈ current, ∃ target ∈ targets, (Term.unify ∅ target goal).isSome := by
  constructor
  · intro h
    obtain ⟨σ, hσ⟩ := List.exists_mem_of_ne_nil _ h
    obtain ⟨goal, hgoal, target, htarget, τ, hτ, -⟩ := mem_found.1 (found_of_mem_candidates hσ)
    exact ⟨goal, hgoal, target, htarget, Option.isSome_of_eq_some hτ⟩
  · rintro ⟨goal, hgoal, target, htarget, hsome⟩
    obtain ⟨σ, hσ⟩ := Option.isSome_iff_exists.1 hsome
    have hfound : σ ∈ found current targets assumptions hyps :=
      mem_found.2 ⟨goal, hgoal, target, htarget, σ, hσ, .inl rfl⟩
    obtain ⟨τ, hτ⟩ := List.exists_mem_of_ne_nil _ (dedup_empty_ne_nil (List.ne_nil_of_mem hfound))
    exact List.ne_nil_of_mem (mem_candidates.2 hτ)

/-- The terms that are unified with one another: targets with goals, and assumptions with hypotheses. -/
def pairs (current targets assumptions hyps : List Term) : List (Term × Term) :=
  targets.product current ++ assumptions.product hyps

theorem forall_mem_pairs {p : Term × Term → Prop} :
    (∀ e ∈ pairs current targets assumptions hyps, p e) ↔
      (∀ target ∈ targets, ∀ goal ∈ current, p (target, goal)) ∧
        ∀ a ∈ assumptions, ∀ h ∈ hyps, p (a, h) := by
  simp only [pairs, List.forall_mem_append, Prod.forall, List.pair_mem_product]
  grind

open Unifier

/-- The second unification keeps what the first made equal. -/
theorem meets_of_mem_found (h : WellSpelled (pairs current targets assumptions hyps))
    (hground : ∀ x ∈ hyps, x.hasHole = false) (hσ : σ ∈ found current targets assumptions hyps) :
    σ.Spares (OtherOf (pairs current targets assumptions hyps)) ∧ σ.Meets current targets := by
  have hKN := h.namesOk
  obtain ⟨hmain, hextra⟩ := forall_mem_pairs.1 h.spelled
  obtain ⟨goal, hgoal, target, htarget, σ₀, hσ₀, hor⟩ := mem_found.1 hσ
  obtain ⟨ht, hg⟩ := hmain target htarget goal hgoal
  have hfirst := decides_unify_empty hKN ht hg
  rw [hσ₀] at hfirst
  obtain ⟨u, hfin, hsolves⟩ := hfirst
  have he := ((hsolves _).1 hfin.solves).2
  rcases hor with rfl | hext
  · have hspares := hfin.spares hKN
    exact ⟨hspares, target, htarget, goal, hgoal, (hspares.key_subst_eq_iff hKN ht hg).2 he⟩
  · obtain ⟨a, ha, x, hx, hσ, -⟩ := mem_extensions.1 hext
    obtain ⟨ha, hxs⟩ := hextra a ha x hx
    have hsecond := decides_unify_ground hfin.resolved hKN hfin.bound ha hxs (hground x hx)
    rw [hσ] at hsecond
    obtain ⟨u', hfin', hsolves'⟩ := hsecond
    have hspares := hfin'.spares hKN
    refine ⟨hspares, target, htarget, goal, hgoal, (hspares.key_subst_eq_iff hKN ht hg).2 ?_⟩
    exact hfin.eval_eq hKN ht hg he ((hsolves' _).1 hfin'.solves).1

end Candidate

open Unifier Candidate

/-- Under each candidate a step is useful, and there are candidates if it is useful under any
substitution of holes. -/
theorem candidates_useful {current targets assumptions hyps : List Term}
    (h : WellSpelled (pairs current targets assumptions hyps))
    (hground : ∀ x ∈ hyps, x.hasHole = false) :
    (∀ σ ∈ candidates current targets assumptions hyps,
      σ.Spares (OtherOf (pairs current targets assumptions hyps)) ∧ σ.Meets current targets ∧
        ∀ assumed, (Goals.advance assumed (current.map (Term.subst σ)) (targets.map (Term.subst σ))
          (assumptions.map (Term.subst σ))).isSome) ∧
    (candidates current targets assumptions hyps ≠ [] ↔
      ∃ θ : Subst, θ.Spares (OtherOf (pairs current targets assumptions hyps)) ∧
        θ.Meets current targets) := by
  have hmeets : ∀ σ ∈ candidates current targets assumptions hyps,
      σ.Spares (OtherOf (pairs current targets assumptions hyps)) ∧ σ.Meets current targets :=
    fun σ hσ => meets_of_mem_found h hground (found_of_mem_candidates hσ)
  refine ⟨fun σ hσ => ?_, fun hne => ?_, ?_⟩
  · obtain ⟨hspares, hσ⟩ := hmeets σ hσ
    exact ⟨hspares, hσ, fun assumed => Subst.isSome_advance_iff_meets.2 hσ⟩
  · obtain ⟨σ, hσ⟩ := List.exists_mem_of_ne_nil _ hne
    exact ⟨σ, hmeets σ hσ⟩
  · rintro ⟨θ, hθ, target, htarget, goal, hgoal, hkey⟩
    refine candidates_ne_nil.2 ⟨goal, hgoal, target, htarget, ?_⟩
    obtain ⟨ht, hg⟩ := (forall_mem_pairs.1 h.spelled).1 target htarget goal hgoal
    have hdecides := decides_unify_empty h.namesOk ht hg
    cases hr : Term.unify ∅ target goal with
    | some σ => rfl
    | none =>
      rw [hr] at hdecides
      exact absurd ((hθ.key_subst_eq_iff h.namesOk ht hg).1 hkey) (hdecides _ (solves_empty _))

instance (σ : Subst) (current targets : List Term) : Decidable (σ.Meets current targets) :=
  inferInstanceAs (Decidable (∃ target ∈ targets, ∃ goal ∈ current, _))

namespace HypothesisBound

open OneType

def goals : List Term := [join (hole "A") (hole "A"), var "y"]

/-- Holes of the step that become aliases of a hole in a goal. -/
def targets : List Term := [join (hole "B") (hole "C")]

/-- The second candidate binds all of them, by the hypothesis `g(x)`. A hole is no part of its own term,
so there the step is useless under any substitution. -/
theorem candidates_useful_aliased :
    WellSpelled (Candidate.pairs goals targets [wrap "g" (hole "B")] [wrap "g" (var "x")]) ∧
    (∀ x ∈ [wrap "g" (var "x")], x.hasHole = false) ∧
    (∃ σ ∈ candidates goals targets [wrap "g" (hole "B")] [wrap "g" (var "x")],
      ((hole "A").subst σ).key = "x" ∧ σ.Meets goals targets ∧
        ∀ assumed, (Goals.advance assumed (goals.map (Term.subst σ)) (targets.map (Term.subst σ))
          ([wrap "g" (hole "B")].map (Term.subst σ))).isSome) ∧
    ¬∃ θ : Subst, θ.Spares (OtherOf (Candidate.pairs [hole "A"] [wrap "g" (hole "A")] [] [])) ∧
      θ.Meets [hole "A"] [wrap "g" (hole "A")] := by
  have hspelled : WellSpelled (Candidate.pairs goals targets [wrap "g" (hole "B")] [wrap "g" (var "x")]) := by
    decide +kernel
  have hground : ∀ x ∈ [wrap "g" (var "x")], x.hasHole = false := by decide +kernel
  have hmem : ∃ σ ∈ Candidate.dedup ∅ (found goals targets [wrap "g" (hole "B")] [wrap "g" (var "x")]),
      ((hole "A").subst σ).key = "x" := by decide +kernel
  have hloop : WellSpelled (Candidate.pairs [hole "A"] [wrap "g" (hole "A")] [] []) := by decide +kernel
  have hnil : candidates [hole "A"] [wrap "g" (hole "A")] [] [] = [] := by
    rw [← List.isEmpty_iff]
    decide +kernel
  refine ⟨hspelled, hground, ?_, fun hθ => (candidates_useful hloop nofun).2.2 hθ hnil⟩
  obtain ⟨σ, hσ, hkey⟩ := hmem
  replace hσ := mem_candidates.2 hσ
  exact ⟨σ, hσ, hkey, ((candidates_useful hspelled hground).1 σ hσ).2⟩

end HypothesisBound

end Sequitur
