import Sequitur.Proofs.MostGeneral
import Sequitur.Proofs.Typing

/-!
# Matching

Unification on top of given bindings, against a term without holes. Such a term makes no hole depend
on anything, so the dependency check never fails, no holes are identified, and every hole that is bound
on the way gets a term without holes (`Matching`). The given bindings only have to be resolved: a hole
may be bound to another hole. From a bound hole it takes one step to its term and at most one more to a
term without holes, so a depth of three steps for each part of the term is enough
(`Unifier.outcome_unifyWithin_ground`).
-/

namespace Sequitur

/-- No value holds a hole that is mapped. -/
def Subst.Resolved (σ : Subst) : Prop := ∀ v t, σ.get? v = some t → ∀ w ∈ t.holeNames, σ.get? w = none

instance (σ : Subst) : Decidable σ.Resolved :=
  decidable_of_iff (∀ e ∈ σ.toList, ∀ w ∈ e.2.holeNames.toList, (σ.get? w).isNone = true)
    ⟨fun h v t ht w hw => Option.isNone_iff_eq_none.1 (h (v, t) (NameMap.mem_toList.2 ht) w hw),
      fun h e he w hw => Option.isNone_iff_eq_none.2 (h e.1 e.2 (NameMap.mem_toList.1 he) w hw)⟩

/-- The values of a resolved substitution do not change when it is used once more. -/
theorem Subst.Resolved.eval_value {σ : Subst} (h : σ.Resolved) {v : String} {t : Term}
    (ht : σ.get? v = some t) (θ : String → Tree) : t.eval (σ.value θ) = t.eval θ :=
  Term.eval_congr fun w hw => Subst.value_of_none (h v t ht w (Term.mem_holeNames.2 hw)) θ

namespace Term

variable {s t a : Term} {w : String}

theorem isHole_of_hasHole (h : t.hasHole = false) : t.isHole = false := by
  cases t with
  | hole => exact absurd h nofun
  | _ => rfl

theorem hasHole_of_mem_args (h : t.hasHole = false) (ha : a ∈ t.args) : a.hasHole = false := by
  cases t with
  | app head span decl args => exact hasHole_app.1 h a ha
  | _ => exact absurd ha List.not_mem_nil

theorem holeNames_eq_empty (h : t.hasHole = false) : t.holeNames = ∅ := by
  rw [holeNames, hasHole_eq_false.1 h]
  rfl

theorem key_mem_holeNames (h : t.isHole = true) : t.key ∈ t.holeNames := by
  cases t with
  | hole head span param => exact mem_holeNames.2 (List.mem_singleton.2 rfl)
  | _ => exact absurd h nofun

theorem holeNames_of_mem_args (ha : a ∈ t.args) (hw : w ∈ a.holeNames) : w ∈ t.holeNames := by
  cases t with
  | app head span decl args =>
    rw [mem_holeNames] at hw ⊢
    rw [holes_app, List.map_flatMap]
    exact List.mem_flatMap.2 ⟨a, ha, hw⟩
  | _ => exact absurd ha List.not_mem_nil

theorem size_le_sizes {ts : List Term} (h : t ∈ ts) : t.size ≤ sizes ts := by
  induction ts with
  | nil => exact absurd h List.not_mem_nil
  | cons s ts ih =>
    rw [sizes]
    rcases List.mem_cons.1 h with rfl | h
    · omega
    · have := ih h
      omega

theorem size_lt_of_mem_args (ha : a ∈ t.args) : a.size < t.size := by
  cases t with
  | app head span decl args =>
    have := size_le_sizes (show a ∈ args from ha)
    rw [size]
    omega
  | _ => exact absurd ha List.not_mem_nil

end Term

namespace Unifier

variable {K N : String → Prop} {Q : Term → Prop} {base : Subst} {u u' : Unifier} {s t : Term} {v w : String}
  {n : Nat} {rec : Term → Term → Unifier → Option (Bool × Unifier)}

/-! ### States -/

theorem get?_assign_of_some {r : Term} (hv : u.bindings.get? v = none) (hw : u.bindings.get? w = some r) :
    (u.assign v t).bindings.get? w = some r := by
  rw [get?_assign, if_neg]
  · exact hw
  · rintro rfl
    rw [hv] at hw
    exact absurd hw nofun

/-- A state without classes that has the given bindings, and terms without holes for other holes. -/
structure Matching (K : String → Prop) (Q : Term → Prop) (base : Subst) (u : Unifier) : Prop where
  noClass : u.classes = []
  kept : ∀ v t, base.get? v = some t → u.bindings.get? v = some t
  added : ∀ v t, u.bindings.get? v = some t → base.get? v = none → t.hasHole = false
  bound : ∀ v t, u.bindings.get? v = some t → K v ∧ Q t

theorem matching_base (hbase : ∀ v t, base.get? v = some t → K v ∧ Q t) :
    Matching K Q base { bindings := base } where
  noClass := rfl
  kept _ _ ht := ht
  added v t ht hnone := by
    rw [hnone] at ht
    exact absurd ht nofun
  bound := hbase

namespace Matching

theorem members (h : Matching K Q base u) (hw : w ∈ u.members v) : w = v := by
  rw [Unifier.members, h.noClass] at hw
  exact List.mem_singleton.1 (NameSet.mem_ofList.1 hw)

theorem solves_iff (h : Matching K Q base u) {θ : String → Tree} :
    u.Solves θ ↔ ∀ v t, u.bindings.get? v = some t → θ v = t.eval θ := by
  refine ⟨Solves.bindings, fun hb => ⟨hb, fun v w hw => ?_⟩⟩
  rw [h.members hw]

theorem get?_of_binding? (h : Matching K Q base u) (ht : u.binding? v = some t) :
    u.bindings.get? v = some t := by
  obtain ⟨p, hp, ht⟩ := exists_get?_of_binding? ht
  rwa [← h.members hp]

theorem assign (h : Matching K Q base u) (hv : u.bindings.get? v = none) (hK : K v) (hQ : Q t)
    (ht : t.hasHole = false) : Matching K Q base (u.assign v t) where
  noClass := h.noClass
  kept p r hr := get?_assign_of_some hv (h.kept p r hr)
  added p r hr hnone := by
    rw [get?_assign] at hr
    split at hr
    · cases hr
      exact ht
    · exact h.added p r hr hnone
  bound p r hr := by
    rw [get?_assign] at hr
    split at hr
    · next hp =>
      cases hr
      exact ⟨hp ▸ hK, hQ⟩
    · exact h.bound p r hr

end Matching

/-! ### Steps -/

theorem outcome_bind_ground (hu : Matching K Q base u) (hK : K v) (hQ : Q t) (ht : t.hasHole = false)
    (hrec : ∀ old, u.bindings.get? v = some old →
      Outcome (Matching K Q base) False u (fun θ => old.eval θ = t.eval θ) (rec old t u)) :
    Outcome (Matching K Q base) False u (fun θ => θ v = t.eval θ) (u.bind rec v t) := by
  refine .bind (fun hcycle => ?_) (fun old hold => hrec old (hu.get?_of_binding? hold)) (fun u' hu' _ => ?_)
    fun _ hnone => ?_
  · rw [Term.holeNames_eq_empty ht] at hcycle
    exact absurd hcycle Bool.false_ne_true
  · exact ⟨hu'.noClass, hu'.kept, hu'.added, hu'.bound⟩
  · exact hu.assign (binding?_eq_none.1 hnone v (u.self_mem_members v)) hK hQ ht

/-- How many steps a term is from one that is no hole. -/
def hops (base : Subst) (s : Term) : Nat :=
  if s.isHole then (if (base.get? s.key).isSome then 2 else 1) else 0

theorem hops_le (base : Subst) (s : Term) : hops base s ≤ 2 := by
  unfold hops
  split
  · split <;> omega
  · omega

/-- The term of a hole is closer to one that is no hole. -/
theorem hops_lt (hbase : base.Resolved) (hu : Matching K Q base u) (hs : s.isHole = true) {old : Term}
    (hold : u.bindings.get? s.key = some old) : hops base old < hops base s := by
  unfold hops
  rw [if_pos hs]
  cases hb : base.get? s.key with
  | none =>
    rw [if_neg (Bool.not_eq_true _ ▸ Term.isHole_of_hasHole (hu.added _ old hold hb))]
    exact Nat.zero_lt_one
  | some r =>
    have hr := hu.kept _ r hb
    rw [hold] at hr
    cases hr
    rw [Option.isSome_some, if_pos rfl]
    split
    · next hhole =>
      rw [hbase _ old hb _ (Term.key_mem_holeNames hhole)]
      exact Nat.one_lt_two
    · exact Nat.zero_lt_two

/-- There is an answer. -/
theorem outcome_unifyWithin_ground (hbase : base.Resolved) (hQ : InPlay K Q) (hu : Matching K Q base u) (hs : Q s)
    (ht : Q t) (hground : t.hasHole = false) (hn : 3 * t.size + hops base s < n) :
    Outcome (Matching K Q base) False u (fun θ => s.eval θ = t.eval θ) (unifyWithin n s t u) := by
  induction n generalizing s t u with
  | zero => exact absurd hn (Nat.not_lt_zero _)
  | succ n ih =>
    have hnt := Term.isHole_of_hasHole hground
    rw [unifyWithin, hnt]
    cases hhs : s.isHole with
    | true =>
      simp only [Term.eval_of_isHole hhs]
      refine outcome_bind_ground hu (hQ.hole s hs hhs) ht hground fun old hold => ?_
      refine ih hu (hu.bound _ old hold).2 ht hground ?_
      have := hops_lt hbase hu hhs hold
      omega
    | false =>
      simp only [eval_eq_iff hQ hs ht hhs hnt]
      split
      · next hhead =>
        simp only [hhead, true_and, and_self]
        refine .unifyPairs hu fun p hp u hu => ?_
        obtain ⟨ha, hb⟩ := List.of_mem_zip hp
        refine ih hu (hQ.args s hs _ ha) (hQ.args t ht _ hb) (Term.hasHole_of_mem_args hground hb) ?_
        have hsize := Term.size_lt_of_mem_args hb
        have hhops := hops_le base p.1
        omega
      · next hhead => exact fun θ _ he => hhead he.1

/-- It does not matter on which side the term without holes stands. -/
theorem unifyWithin_comm (ht : t.hasHole = false) (n : Nat) (s : Term) (u : Unifier) :
    unifyWithin n t s u = unifyWithin n s t u := by
  induction n generalizing s t u with
  | zero => rfl
  | succ n ih =>
    rw [unifyWithin, unifyWithin, Term.isHole_of_hasHole ht]
    cases s.isHole with
    | true => rfl
    | false =>
      have hpairs : ∀ (as bs : List Term) (u : Unifier), (∀ b ∈ bs, b.hasHole = false) →
          unifyPairs (unifyWithin n) (bs.zip as) u = unifyPairs (unifyWithin n) (as.zip bs) u := by
        intro as
        induction as with
        | nil => intro bs u _; rw [List.zip_nil_right, List.zip_nil_left]
        | cons a as iha =>
          intro bs u hbs
          cases bs with
          | nil => rfl
          | cons b bs =>
            obtain ⟨hb, hbs⟩ := List.forall_mem_cons.1 hbs
            rw [List.zip_cons_cons, List.zip_cons_cons, unifyPairs, unifyPairs, ih hb]
            simp only [iha bs _ hbs]
      dsimp only
      rw [hpairs s.args t.args u fun b hb => Term.hasHole_of_mem_args ht hb]
      simp only [eq_comm (a := t.head.text), eq_comm (a := t.args.length)]

/-! ### The result -/

/-- A mapped hole leads to unmapped holes in at most two rounds. -/
theorem Matching.unfolds (hbase : base.Resolved) (hu : Matching K (Term.Spelled K N) base u) :
    Unfolds K N u.Solves (fun v => (u.bindings.get? v).isSome)
      (fun v => if (base.get? v).isSome then 1 else 0) 0 u.bindings where
  domain _ := Iff.rfl
  key v hv := by
    obtain ⟨t, ht⟩ := Option.isSome_iff_exists.1 hv
    exact (hu.bound v t ht).1
  spelled v t ht := by
    refine (hu.bound v t ht).2.mono fun w hw hK => ⟨hK, fun _ => ?_⟩
    cases hv : base.get? v with
    | none =>
      rw [Term.holeNames_eq_empty (hu.added v t ht hv)] at hw
      exact absurd hw (NameSet.not_mem_empty w)
    | some r =>
      have hr := hu.kept v r hv
      rw [ht] at hr
      cases hr
      rw [hbase v t hv w hw]
      exact Nat.zero_lt_one
  value θ hθ := hθ.bindings

/-- The solution where unbound holes are left as they are. -/
theorem Matching.solves_value (hbase : base.Resolved) (hu : Matching K Q base u) :
    u.Solves (u.bindings.value (u.bindings.value leaf)) := by
  refine hu.solves_iff.2 fun v t ht => ?_
  rw [Subst.value_of_some ht]
  refine Term.eval_congr fun w hw => ?_
  have hw := Term.mem_holeNames.2 hw
  -- a hole in a given term is unbound, or bound to a term without holes
  cases hv : base.get? v with
  | none =>
    rw [Term.holeNames_eq_empty (hu.added v t ht hv)] at hw
    exact absurd hw (NameSet.not_mem_empty w)
  | some r =>
    have hr := hu.kept v r hv
    rw [ht] at hr
    cases hr
    cases hwr : u.bindings.get? w with
    | none => rw [Subst.value_of_none hwr, Subst.value_of_none hwr, Subst.value_of_none hwr]
    | some g =>
      rw [Subst.value_of_some hwr, Subst.value_of_some hwr]
      refine Term.eval_congr fun x hx => absurd (Term.mem_holeNames.2 hx) ?_
      rw [Term.holeNames_eq_empty (hu.added w g hwr (hbase v t hv w hw))]
      exact NameSet.not_mem_empty x

theorem Matching.finishes (hbase : base.Resolved) (hu : Matching K (Term.Spelled K N) base u)
    (hKN : NamesOk K N) (node? : String → Option Term) : Finishes K N u (u.finish node?) := by
  have hrounds := (hu.unfolds hbase).resolveWithin hKN (u.bindings.size + 1)
  have hfinish : u.finish node? = resolveWithin (u.bindings.size + 1) u.bindings := by
    rw [finish, hu.noClass]
    rfl
  rw [hfinish]
  refine hrounds.finishes (fun v _ => ?_) (hu.solves_value hbase) fun v hv => ?_
  · split <;> omega
  · have hnone := Option.not_isSome_iff_eq_none.1 hv
    rw [Subst.value_of_none hnone, Subst.value_of_none hnone]

end Unifier

end Sequitur
