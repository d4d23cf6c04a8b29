import Sequitur.Proofs.DistinctComposition

/-!
# What the distinctness check finds

An applied rule demands that the leaves of terms at two different places of a group differ. In a theorem
with the groups `D` and the parameters `P` a demanded pair is a violation if it is one name twice, or if it
is a pair of parameters that no group of `D` declares. The check lists exactly these pairs, in ascending
order and each once (`Distinct.violations_instantiate`).

What is demanded and what is declared are kept apart and only meet in the lookup of a pair. That works
because both keep a pair under its lesser name (`Distinct.le_of_has_instantiate`), which also gives the order.
-/

namespace Sequitur

theorem pair_sublist_iff_getElem? {α : Type} {a b : α} {l : List α} :
    [a, b].Sublist l ↔ ∃ i j : Nat, i < j ∧ l[i]? = some a ∧ l[j]? = some b := by
  induction l with
  | nil => simp
  | cons c l ih =>
    rw [pair_sublist_cons, ih]
    constructor
    · rintro (⟨rfl, hb⟩ | ⟨i, j, hij, ha, hb⟩)
      · obtain ⟨j, hj⟩ := List.mem_iff_getElem?.1 hb
        exact ⟨0, j + 1, Nat.succ_pos j, List.getElem?_cons_zero, hj⟩
      · exact ⟨i + 1, j + 1, Nat.succ_lt_succ hij, ha, hb⟩
    · rintro ⟨i, j, hij, ha, hb⟩
      obtain ⟨j, rfl⟩ := Nat.exists_eq_add_one_of_ne_zero (Nat.ne_zero_of_lt hij)
      rw [List.getElem?_cons_succ] at hb
      cases i with
      | zero => exact .inl ⟨(Option.some.inj ha).symm, List.mem_of_getElem? hb⟩
      | succ i => exact .inr ⟨i, j, Nat.lt_of_succ_lt_succ hij, ha, hb⟩

/-- Two members that differ stand at two places, in one order or the other. -/
theorem pair_sublist_of_ne {α : Type} {a b : α} {l : List α} (ha : a ∈ l) (hb : b ∈ l) (hne : a ≠ b) :
    [a, b].Sublist l ∨ [b, a].Sublist l := by
  obtain ⟨i, hi⟩ := List.mem_iff_getElem?.1 ha
  obtain ⟨j, hj⟩ := List.mem_iff_getElem?.1 hb
  rcases Nat.lt_trichotomy i j with hij | rfl | hij
  · exact .inl (pair_sublist_iff_getElem?.2 ⟨i, j, hij, hi, hj⟩)
  · exact absurd (Option.some.inj (hi.symm.trans hj)) hne
  · exact .inr (pair_sublist_iff_getElem?.2 ⟨j, i, hij, hj, hi⟩)

namespace Distinct

variable {G D : List (List String)} {σ : Subst} {P : NameSet} {a b x y : String}

/-! ### Pairs under their lesser names -/

theorem ordered_of_le (h : a ≤ b) : ordered a b = (a, b) := if_pos h

theorem le_of_eq_ordered (h : (x, y) = ordered a b) : x ≤ y := by
  unfold ordered at h
  split at h
  · next hab =>
    cases h
    exact hab
  · next hab =>
    cases h
    exact (String.le_total a b).resolve_left hab

theorem le_of_has_instantiate (h : (instantiate G σ).has x y = true) : x ≤ y := by
  obtain ⟨g, -, p, q, s, t, -, -, -, a, -, b, -, hxy⟩ := has_instantiate.1 h
  exact le_of_eq_ordered hxy

/-- Declared pairs are the pairs of members of a group. -/
theorem has_ofGroups_iff_mem (hle : x ≤ y) (hne : x ≠ y) :
    (ofGroups D).has x y = true ↔ ∃ g ∈ D, x ∈ g ∧ y ∈ g := by
  rw [has_ofGroups]
  refine exists_congr fun g => and_congr_right fun _ => ⟨?_, ?_⟩
  · rintro ⟨a, b, hab, hxy⟩
    have ha : a ∈ g := hab.subset (List.mem_cons_self ..)
    have hb : b ∈ g := hab.subset (List.mem_cons_of_mem _ (List.mem_cons_self ..))
    rcases ordered_cases hxy with ⟨rfl, rfl⟩ | ⟨rfl, rfl⟩
    · exact ⟨ha, hb⟩
    · exact ⟨hb, ha⟩
  · rintro ⟨hx, hy⟩
    rcases pair_sublist_of_ne hx hy hne with h | h
    · exact ⟨x, y, h, (ordered_of_le hle).symm⟩
    · exact ⟨y, x, h, by rw [ordered_comm, ordered_of_le hle]⟩

/-- A group has terms with the leaves `x` and `y` at two of its places. -/
def Demands (groups : List (List String)) (σ : Subst) (x y : String) : Prop :=
  ∃ g ∈ groups, ∃ i j : Nat, i ≠ j ∧ ∃ s t, g[i]?.bind σ.get? = some s ∧ g[j]?.bind σ.get? = some t ∧
    x ∈ s.leafNames ∧ y ∈ t.leafNames

theorem has_instantiate_iff_demands (hle : x ≤ y) :
    (instantiate G σ).has x y = true ↔ Demands G σ x y := by
  rw [has_instantiate]
  refine exists_congr fun g => and_congr_right fun _ => ⟨?_, ?_⟩
  · rintro ⟨p, q, s, t, hpq, hs, ht, a, ha, b, hb, hxy⟩
    obtain ⟨i, j, hij, hi, hj⟩ := pair_sublist_iff_getElem?.1 hpq
    have hi : g[i]?.bind σ.get? = some s := by rw [hi, Option.bind_some, hs]
    have hj : g[j]?.bind σ.get? = some t := by rw [hj, Option.bind_some, ht]
    rcases ordered_cases hxy with ⟨rfl, rfl⟩ | ⟨rfl, rfl⟩
    · exact ⟨i, j, Nat.ne_of_lt hij, s, t, hi, hj, ha, hb⟩
    · exact ⟨j, i, Nat.ne_of_gt hij, t, s, hj, hi, hb, ha⟩
  · rintro ⟨i, j, hij, s, t, hi, hj, hx, hy⟩
    obtain ⟨p, hp, hs⟩ := Option.bind_eq_some_iff.1 hi
    obtain ⟨q, hq, ht⟩ := Option.bind_eq_some_iff.1 hj
    rcases Nat.lt_or_gt_of_ne hij with hij | hij
    · exact ⟨p, q, s, t, pair_sublist_iff_getElem?.2 ⟨i, j, hij, hp, hq⟩, hs, ht, x, hx, y, hy,
        (ordered_of_le hle).symm⟩
    · exact ⟨q, p, t, s, pair_sublist_iff_getElem?.2 ⟨j, i, hij, hq, hp⟩, ht, hs, y, hy, x, hx, by
        rw [ordered_comm, ordered_of_le hle]⟩

/-! ### Order -/

/-- All that is listed for a name starts with it. -/
theorem fst_of_mem_listed {c : Prop} [Decidable c] {bs : List String} {p : String × String}
    (h : p ∈ (if c then [(a, a)] else []) ++ bs.map fun b => (a, b)) : p.1 = a := by
  rcases List.mem_append.1 h with h | h
  · split at h
    · rw [List.mem_singleton.1 h]
    · exact absurd h List.not_mem_nil
  · obtain ⟨b, -, rfl⟩ := List.mem_map.1 h
    rfl

/-- What is kept under lesser names is listed in order: a name comes with itself first. -/
theorem pairwise_violations {required : Distinct} (declared : Distinct) (params : NameSet)
    (h : ∀ x y, required.has x y = true → x ≤ y) :
    (required.violations declared params).Pairwise (Prod.Lex (· < ·) (· < ·)) := by
  rw [violations, List.pairwise_flatMap]
  constructor
  · rintro ⟨a, bs⟩ hbs
    have hlt : ∀ b ∈ bs, b ≠ a → a < b := by
      intro b hb hne
      have hle : a ≤ b := h a b (has_iff.2 ⟨bs, NameMap.mem_toList.1 hbs, hb⟩)
      refine Decidable.by_contra fun hn => hne ?_
      exact String.le_antisymm (String.not_lt.1 hn) hle
    refine List.pairwise_append.2 ⟨?_, ?_, ?_⟩
    · split
      · exact List.pairwise_singleton ..
      · exact .nil
    · rw [List.pairwise_map]
      exact (bs.ascending.filter _).imp fun hb => .right _ hb
    · intro p hp q hq
      obtain ⟨b, hb, rfl⟩ := List.mem_map.1 hq
      obtain ⟨hb, hcond⟩ := List.mem_filter.1 hb
      split at hp
      · rw [List.mem_singleton.1 hp]
        simp only [Bool.and_eq_true, bne_iff_ne] at hcond
        exact .right _ (hlt b hb hcond.1.1.2)
      · exact absurd hp List.not_mem_nil
  · refine required.partners.ascending.imp fun hlt p hp q hq => Prod.lex_def.2 (.inl ?_)
    rw [fst_of_mem_listed hp, fst_of_mem_listed hq]
    exact hlt

/-- The violations in a theorem are the demanded pairs that are reflexive, or of parameters that no group
declares, the lesser name first. They come in ascending order, so none comes twice. -/
theorem violations_instantiate (G D : List (List String)) (σ : Subst) (P : NameSet) :
    ((instantiate G σ).violations (ofGroups D) P).Pairwise (Prod.Lex (· < ·) (· < ·)) ∧
    ∀ x y, (x, y) ∈ (instantiate G σ).violations (ofGroups D) P ↔
      x ≤ y ∧ Demands G σ x y ∧ (x = y ∨ x ∈ P ∧ y ∈ P ∧ ∀ g ∈ D, ¬(x ∈ g ∧ y ∈ g)) := by
  refine ⟨pairwise_violations _ _ fun x y => le_of_has_instantiate, fun x y => ?_⟩
  have hbad (hle : x ≤ y) : (x = y ∨ x ∈ P ∧ y ∈ P ∧ (ofGroups D).has x y = false) ↔
      (x = y ∨ x ∈ P ∧ y ∈ P ∧ ∀ g ∈ D, ¬(x ∈ g ∧ y ∈ g)) := by
    refine or_congr_right' fun hne => and_congr_right fun _ => and_congr_right fun _ => ?_
    rw [← Bool.not_eq_true, has_ofGroups_iff_mem hle hne]
    simp only [not_exists, not_and]
  rw [mem_violations]
  constructor
  · rintro ⟨hhas, h⟩
    have hle := le_of_has_instantiate hhas
    exact ⟨hle, (has_instantiate_iff_demands hle).1 hhas, (hbad hle).1 h⟩
  · rintro ⟨hle, hdemands, h⟩
    exact ⟨(has_instantiate_iff_demands hle).2 hdemands, (hbad hle).2 h⟩

end Distinct

end Sequitur
