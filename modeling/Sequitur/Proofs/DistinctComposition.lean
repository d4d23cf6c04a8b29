import Sequitur.Distinct
import Sequitur.Proofs.Names
import Sequitur.Proofs.Substitution

/-!
# Distinctness conditions through two applications

A rule with the groups `G` is applied by `σ` in a theorem with the groups `D`, and that theorem by `τ`
in one with the groups `E`. If neither application violates a condition, expanding the theorem into
its proof can still do so, in one way only: the arguments of the rule bring in a constant beside a
parameter, and `τ` puts the same constant in the place of that parameter
(`mem_violations_comp_iff`). Pairs of a parameter and a constant are never looked at, so no
condition records that the two have to stay apart.
-/

namespace Sequitur

/-! ### What conditions hold -/

theorem pair_sublist_cons {α : Type} {a b c : α} {l : List α} :
    [a, b].Sublist (c :: l) ↔ a = c ∧ b ∈ l ∨ [a, b].Sublist l := by
  constructor
  · intro h
    cases h with
    | cons _ h => exact .inr h
    | cons_cons _ h => exact .inl ⟨rfl, List.singleton_sublist.1 h⟩
  · rintro (⟨rfl, hb⟩ | h)
    · exact (List.singleton_sublist.2 hb).cons_cons a
    · exact h.cons c

theorem pair_sublist_map {α β : Type} {f : α → β} {a b : β} {l : List α} :
    [a, b].Sublist (l.map f) ↔ ∃ x y, [x, y].Sublist l ∧ f x = a ∧ f y = b := by
  constructor
  · intro h
    obtain ⟨l', hl, he⟩ := List.sublist_map_iff.1 h
    match l', he with
    | [x, y], he =>
      simp only [List.map_cons, List.map_nil, List.cons.injEq, and_true] at he
      exact ⟨x, y, hl, he.1.symm, he.2.symm⟩
  · rintro ⟨x, y, h, rfl, rfl⟩
    exact h.map f

theorem pair_sublist_filterMap {α β : Type} {f : α → Option β} {a b : β} {l : List α} :
    [a, b].Sublist (l.filterMap f) ↔ ∃ x y, [x, y].Sublist l ∧ f x = some a ∧ f y = some b := by
  constructor
  · induction l with
    | nil => exact fun h => absurd h (by simp)
    | cons c l ih =>
      intro h
      rw [List.filterMap_cons] at h
      split at h
      · obtain ⟨x, y, hl, hxy⟩ := ih h
        exact ⟨x, y, hl.cons c, hxy⟩
      · next d hd =>
        rcases pair_sublist_cons.1 h with ⟨rfl, hb⟩ | h
        · obtain ⟨y, hy, hfy⟩ := List.mem_filterMap.1 hb
          exact ⟨c, y, pair_sublist_cons.2 (.inl ⟨rfl, hy⟩), hd, hfy⟩
        · obtain ⟨x, y, hl, hxy⟩ := ih h
          exact ⟨x, y, hl.cons c, hxy⟩
  · rintro ⟨x, y, h, hx, hy⟩
    have := h.filterMap f
    simpa [hx, hy] using this

namespace Distinct

theorem has_foldl_insertProduct {d : Distinct} {s : NameSet} {sets : List NameSet} {x y : String} :
    (sets.foldl (fun d t => d.insertProduct s t) d).has x y = true ↔
      (∃ t ∈ sets, ∃ a ∈ s, ∃ b ∈ t, (x, y) = ordered a b) ∨ d.has x y = true := by
  induction sets generalizing d with
  | nil => simp
  | cons t sets ih => simp [ih, has_insertProduct, or_assoc, or_left_comm]

theorem has_insertAcross {d : Distinct} {sets : List NameSet} {x y : String} :
    (d.insertAcross sets).has x y = true ↔
      (∃ s t, [s, t].Sublist sets ∧ ∃ a ∈ s, ∃ b ∈ t, (x, y) = ordered a b) ∨ d.has x y = true := by
  induction sets generalizing d with
  | nil => simp [insertAcross]
  | cons s sets ih =>
    rw [insertAcross, ih, has_foldl_insertProduct]
    constructor
    · rintro (⟨t, u, h, hxy⟩ | ⟨t, ht, hxy⟩ | h)
      · exact .inl ⟨t, u, h.cons s, hxy⟩
      · exact .inl ⟨s, t, pair_sublist_cons.2 (.inl ⟨rfl, ht⟩), hxy⟩
      · exact .inr h
    · rintro (⟨t, u, h, hxy⟩ | h)
      · rcases pair_sublist_cons.1 h with ⟨rfl, hu⟩ | h
        · exact .inr (.inl ⟨u, hu, hxy⟩)
        · exact .inl ⟨t, u, h, hxy⟩
      · exact .inr (.inr h)

theorem has_foldl_insertAcross {α : Type} {f : α → List NameSet} {d : Distinct} {l : List α}
    {x y : String} :
    (l.foldl (fun d g => d.insertAcross (f g)) d).has x y = true ↔
      (∃ g ∈ l, ∃ s t, [s, t].Sublist (f g) ∧ ∃ a ∈ s, ∃ b ∈ t, (x, y) = ordered a b) ∨
        d.has x y = true := by
  induction l generalizing d with
  | nil => simp
  | cons g l ih => simp [ih, has_insertAcross, or_assoc, or_left_comm]

theorem has_empty (x y : String) : (∅ : Distinct).has x y = false := rfl

/-- Groups stand for the pairs of names at two of their places. -/
theorem has_ofGroups {groups : List (List String)} {x y : String} :
    (ofGroups groups).has x y = true ↔
      ∃ g ∈ groups, ∃ a b, [a, b].Sublist g ∧ (x, y) = ordered a b := by
  rw [ofGroups, has_foldl_insertAcross, has_empty]
  constructor
  · rintro (⟨g, hg, s, t, hst, a, ha, b, hb, hxy⟩ | h)
    · obtain ⟨p, q, hpq, rfl, rfl⟩ := pair_sublist_map.1 hst
      rw [NameSet.mem_ofList, List.mem_singleton] at ha hb
      subst ha hb
      exact ⟨g, hg, a, b, hpq, hxy⟩
    · exact absurd h nofun
  · rintro ⟨g, hg, a, b, hab, hxy⟩
    exact .inl ⟨g, hg, _, _, pair_sublist_map.2 ⟨a, b, hab, rfl, rfl⟩, a, by simp, b, by simp, hxy⟩

theorem has_instantiate {groups : List (List String)} {σ : Subst} {x y : String} :
    (instantiate groups σ).has x y = true ↔
      ∃ g ∈ groups, ∃ p q s t, [p, q].Sublist g ∧ σ.get? p = some s ∧ σ.get? q = some t ∧
        ∃ a ∈ s.leafNames, ∃ b ∈ t.leafNames, (x, y) = ordered a b := by
  rw [instantiate, has_foldl_insertAcross, has_empty]
  constructor
  · rintro (⟨g, hg, s, t, hst, hab⟩ | h)
    · obtain ⟨p, q, hpq, hp, hq⟩ := pair_sublist_filterMap.1 hst
      obtain ⟨s, hs, rfl⟩ := Option.map_eq_some_iff.1 hp
      obtain ⟨t, ht, rfl⟩ := Option.map_eq_some_iff.1 hq
      exact ⟨g, hg, p, q, s, t, hpq, hs, ht, hab⟩
    · exact absurd h nofun
  · rintro ⟨g, hg, p, q, s, t, hpq, hs, ht, hab⟩
    refine .inl ⟨g, hg, _, _, pair_sublist_filterMap.2 ⟨p, q, hpq, ?_, ?_⟩, hab⟩
    · rw [hs, Option.map_some]
    · rw [ht, Option.map_some]

theorem has_iff {d : Distinct} {a b : String} :
    d.has a b = true ↔ ∃ bs, d.partners.get? a = some bs ∧ b ∈ bs := by
  unfold has partnersOf
  cases d.partners.get? a <;> simp

/-- A required pair is a violation if it is reflexive, or one of parameters that is not declared. -/
theorem mem_violations {required declared : Distinct} {params : NameSet} {a b : String} :
    (a, b) ∈ required.violations declared params ↔
      required.has a b = true ∧ (a = b ∨ a ∈ params ∧ b ∈ params ∧ declared.has a b = false) := by
  simp only [violations, List.mem_flatMap, Prod.exists, List.mem_append, List.mem_map,
    List.mem_filter, Bool.and_eq_true, NameSet.contains_iff, bne_iff_ne, Bool.not_eq_true',
    NameSet.mem_toList, NameMap.mem_toList, has_iff, Prod.mk.injEq]
  constructor
  · rintro ⟨c, bs, hc, h | ⟨d, ⟨hd, hp⟩, rfl, rfl⟩⟩
    · split at h
      · next hb =>
        simp only [List.mem_singleton, Prod.mk.injEq] at h
        obtain ⟨rfl, rfl⟩ := h
        exact ⟨⟨bs, hc, hb⟩, .inl rfl⟩
      · exact absurd h List.not_mem_nil
    · exact ⟨⟨bs, hc, hd⟩, .inr ⟨hp.1.1.1, hp.1.2, hp.2⟩⟩
  · rintro ⟨⟨bs, hc, hb⟩, h⟩
    refine ⟨a, bs, hc, ?_⟩
    by_cases hab : b = a
    · subst hab
      rw [if_pos hb]
      exact .inl (List.mem_singleton.2 rfl)
    · rcases h with rfl | ⟨ha, hbp, hn⟩
      · exact absurd rfl hab
      · exact .inr ⟨b, ⟨hb, ⟨⟨ha, hab⟩, hbp⟩, hn⟩, rfl, rfl⟩

theorem ordered_self (a : String) : ordered a a = (a, a) := by
  simp [ordered]

theorem ordered_comm (a b : String) : ordered a b = ordered b a := by
  unfold ordered
  by_cases h : a ≤ b
  · by_cases h' : b ≤ a
    · rw [String.le_antisymm h h']
    · rw [if_pos h, if_neg h']
  · rw [if_neg h, if_pos ((String.le_total a b).resolve_left h)]

theorem ordered_cases {a b x y : String} (h : (x, y) = ordered a b) : x = a ∧ y = b ∨ x = b ∧ y = a := by
  unfold ordered at h
  split at h
  · exact .inl (Prod.mk.inj h)
  · exact .inr (Prod.mk.inj h)

theorem eq_or_swap_of_ordered_eq {a b c d : String} (h : ordered a b = ordered c d) :
    a = c ∧ b = d ∨ a = d ∧ b = c := by
  rcases ordered_cases (x := (ordered a b).1) (y := (ordered a b).2) rfl with h₁ | h₁ <;>
    rcases ordered_cases (x := (ordered a b).1) (y := (ordered a b).2) h with h₂ | h₂
  · exact .inl ⟨h₁.1.symm.trans h₂.1, h₁.2.symm.trans h₂.2⟩
  · exact .inr ⟨h₁.1.symm.trans h₂.1, h₁.2.symm.trans h₂.2⟩
  · exact .inr ⟨h₁.2.symm.trans h₂.2, h₁.1.symm.trans h₂.1⟩
  · exact .inl ⟨h₁.2.symm.trans h₂.2, h₁.1.symm.trans h₂.1⟩

theorem ordered_mem {s : NameSet} {a b : String} (ha : a ∈ s) (hb : b ∈ s) :
    (ordered a b).1 ∈ s ∧ (ordered a b).2 ∈ s := by
  unfold ordered
  split
  · exact ⟨ha, hb⟩
  · exact ⟨hb, ha⟩

end Distinct

/-! ### One substitution after the other -/

/-- The leaves of a term are parameters and constants. -/
def Term.Over (params : NameSet) (constant : String → Prop) (t : Term) : Prop :=
  ∀ l ∈ t.leaves, (∃ head span param, l = .var head span param ∧ param.name.text ∈ params) ∨
    ∃ head span decl, l = .app head span decl [] ∧ constant decl.name.text

namespace Subst

def Over (params : NameSet) (constant : String → Prop) (σ : Subst) : Prop :=
  ∀ x t, σ.get? x = some t → t.Over params constant

/-- `σ` followed by `τ`. -/
def comp (σ τ : Subst) : Subst := σ.map fun _ t => t.subst τ

/-- `σ` brings in the constant `c` beside a parameter in whose place `τ` puts `c`, at two places of a
group. -/
def Captures (groups : List (List String)) (params : NameSet) (σ τ : Subst) (c : String) : Prop :=
  ∃ g ∈ groups, ∃ x y s t p r, ([x, y].Sublist g ∨ [y, x].Sublist g) ∧ σ.get? x = some s ∧
    σ.get? y = some t ∧ p ∈ params ∧ p ∈ s.leafNames ∧ τ.get? p = some r ∧ c ∈ r.leafNames ∧
    c ∈ t.leafNames

end Subst

section Composition

variable {P Q : NameSet} {constant : String → Prop} {σ τ : Subst}

/-- The leaves of a term under `τ` are its constants and the leaves that `τ` gives its parameters. -/
theorem Term.Over.mem_leafNames_subst {t : Term} (ht : t.Over P constant)
    (hP : ∀ x ∈ P, IsWord x ∧ ¬constant x) (hτ : ∀ x, (τ.get? x).isSome ↔ x ∈ P) {x : String} :
    x ∈ (t.subst τ).leafNames ↔ constant x ∧ x ∈ t.leafNames ∨
      ∃ p ∈ P, p ∈ t.leafNames ∧ ∃ r, τ.get? p = some r ∧ x ∈ r.leafNames := by
  have hword : τ.OnWords := fun y hy => (hP y ((hτ y).1 hy)).1
  have hconst : ∀ y, constant y → τ.get? y = none := fun y hy =>
    Option.not_isSome_iff_eq_none.1 fun hs => (hP y ((hτ y).1 hs)).2 hy
  rw [Term.mem_leafNames_subst hword]
  constructor
  · rintro ⟨l, hl, hx⟩
    rcases ht l hl with ⟨head, span, param, rfl, hp⟩ | ⟨head, span, decl, rfl, hc⟩
    · obtain ⟨r, hr⟩ := Option.isSome_iff_exists.1 ((hτ _).2 hp)
      rw [Term.subst_var, hr, Option.getD_some] at hx
      exact .inr ⟨_, hp, Term.mem_leafNames.2 ⟨_, hl, rfl⟩, r, hr, hx⟩
    · rw [Term.subst_app, show Term.key (.app head span decl []) = decl.name.text from rfl,
        hconst _ hc, Option.getD_none, Term.mem_leafNames] at hx
      obtain ⟨m, hm, rfl⟩ := hx
      rw [List.map_nil, Term.leaves_app_nil, List.mem_singleton] at hm
      subst hm
      exact .inl ⟨hc, Term.mem_leafNames.2 ⟨_, hl, rfl⟩⟩
  · rintro (⟨hc, hx⟩ | ⟨p, hp, hpt, r, hr, hx⟩)
    · obtain ⟨l, hl, rfl⟩ := Term.mem_leafNames.1 hx
      refine ⟨l, hl, ?_⟩
      rcases ht l hl with ⟨head, span, param, rfl, hp⟩ | ⟨head, span, decl, rfl, -⟩
      · exact absurd hc (hP _ hp).2
      · rw [Term.subst_app, hconst _ hc, Option.getD_none, Term.mem_leafNames]
        exact ⟨_, by rw [List.map_nil, Term.leaves_app_nil]; exact List.mem_singleton_self _, rfl⟩
    · obtain ⟨l, hl, rfl⟩ := Term.mem_leafNames.1 hpt
      refine ⟨l, hl, ?_⟩
      rcases ht l hl with ⟨head, span, param, rfl, -⟩ | ⟨head, span, decl, rfl, hc⟩
      · rw [Term.subst_var, show τ.get? param.name.text = some r from hr]
        exact hx
      · exact absurd hc (hP _ hp).2

namespace Distinct

variable {D E G : List (List String)}

theorem has_comp {x y : String} :
    (instantiate G (σ.comp τ)).has x y = true ↔
      ∃ g ∈ G, ∃ p q s t, [p, q].Sublist g ∧ σ.get? p = some s ∧ σ.get? q = some t ∧
        ∃ a ∈ (s.subst τ).leafNames, ∃ b ∈ (t.subst τ).leafNames, (x, y) = ordered a b := by
  rw [has_instantiate]
  constructor
  · rintro ⟨g, hg, p, q, s, t, hpq, hs, ht, hab⟩
    rw [Subst.comp, NameMap.get?_map, Option.map_eq_some_iff] at hs ht
    obtain ⟨s, hs, rfl⟩ := hs
    obtain ⟨t, ht, rfl⟩ := ht
    exact ⟨g, hg, p, q, s, t, hpq, hs, ht, hab⟩
  · rintro ⟨g, hg, p, q, s, t, hpq, hs, ht, hab⟩
    refine ⟨g, hg, p, q, _, _, hpq, ?_, ?_, hab⟩
    · rw [Subst.comp, NameMap.get?_map, hs, Option.map_some]
    · rw [Subst.comp, NameMap.get?_map, ht, Option.map_some]

/-- Parameters that are kept apart in the theorem: what `τ` puts in their places is kept apart too. -/
theorem has_instantiate_of_declared {p q a b : String} {r r' : Term}
    (h : (ofGroups D).has (ordered p q).1 (ordered p q).2 = true) (hp : τ.get? p = some r)
    (hq : τ.get? q = some r') (ha : a ∈ r.leafNames) (hb : b ∈ r'.leafNames) :
    (instantiate D τ).has (ordered a b).1 (ordered a b).2 = true := by
  obtain ⟨g, hg, c, d, hcd, he⟩ := has_ofGroups.1 h
  rcases eq_or_swap_of_ordered_eq he with ⟨rfl, rfl⟩ | ⟨rfl, rfl⟩
  · exact has_instantiate.2 ⟨g, hg, p, q, r, r', hcd, hp, hq, a, ha, b, hb, rfl⟩
  · refine has_instantiate.2 ⟨g, hg, q, p, r', r, hcd, hq, hp, b, hb, a, ha, ?_⟩
    rw [ordered_comm]

variable (hP : ∀ x ∈ P, IsWord x ∧ ¬constant x) (hQ : ∀ x ∈ Q, ¬constant x)
  (hσ : σ.Over P constant) (hτ : ∀ x, (τ.get? x).isSome ↔ x ∈ P)

include hP hσ hτ

/-- A captured constant has to differ from itself. -/
theorem mem_violations_comp_of_captures {c : String} (hc : constant c)
    (h : Subst.Captures G P σ τ c) :
    (c, c) ∈ (instantiate G (σ.comp τ)).violations (ofGroups E) Q := by
  obtain ⟨g, hg, x, y, s, t, p, r, hxy, hs, ht, hp, hps, hr, hcr, hct⟩ := h
  have hcs : c ∈ (s.subst τ).leafNames :=
    ((hσ x s hs).mem_leafNames_subst hP hτ).2 (.inr ⟨p, hp, hps, r, hr, hcr⟩)
  have hct : c ∈ (t.subst τ).leafNames :=
    ((hσ y t ht).mem_leafNames_subst hP hτ).2 (.inl ⟨hc, hct⟩)
  refine mem_violations.2 ⟨has_comp.2 ⟨g, hg, ?_⟩, .inl rfl⟩
  rcases hxy with hxy | hxy
  · exact ⟨x, y, s, t, hxy, hs, ht, c, hcs, c, hct, (ordered_self c).symm⟩
  · exact ⟨y, x, t, s, hxy, ht, hs, c, hct, c, hcs, (ordered_self c).symm⟩

include hQ

theorem captures_of_mem_violations_comp
    (h₁ : (instantiate G σ).violations (ofGroups D) P = [])
    (h₂ : (instantiate D τ).violations (ofGroups E) Q = []) {a b : String}
    (h : (a, b) ∈ (instantiate G (σ.comp τ)).violations (ofGroups E) Q) :
    a = b ∧ constant a ∧ Subst.Captures G P σ τ a := by
  obtain ⟨hhas, hbad⟩ := mem_violations.1 h
  obtain ⟨g, hg, x, y, s, t, hxy, hs, ht, c, hc, d, hd, hab⟩ := has_comp.1 hhas
  -- a pair with a constant in it is bad only if it is reflexive
  have hself : constant c ∨ constant d → a = c ∧ b = c ∧ c = d := by
    intro hcd
    rcases hbad with rfl | ⟨ha, hb, -⟩
    · rcases ordered_cases hab with ⟨rfl, h⟩ | ⟨h, rfl⟩
      · exact ⟨rfl, rfl, h⟩
      · exact ⟨rfl, rfl, h⟩
    · exfalso
      rcases ordered_cases hab with ⟨rfl, rfl⟩ | ⟨rfl, rfl⟩
      · exact hcd.elim (hQ _ ha) (hQ _ hb)
      · exact hcd.elim (hQ _ hb) (hQ _ ha)
  have hrequired : ∀ {p q : String}, p ∈ s.leafNames → q ∈ t.leafNames →
      (instantiate G σ).has (ordered p q).1 (ordered p q).2 = true := fun {p q} hp hq =>
    has_instantiate.2 ⟨g, hg, x, y, s, t, hxy, hs, ht, p, hp, q, hq, rfl⟩
  have hgood : ∀ {p q : String}, (p, q) ∉ (instantiate G σ).violations (ofGroups D) P := by
    rw [h₁]
    exact List.not_mem_nil
  rcases ((hσ x s hs).mem_leafNames_subst hP hτ).1 hc with ⟨hcc, hcs⟩ | ⟨p, hp, hps, r, hr, hcr⟩ <;>
    rcases ((hσ y t ht).mem_leafNames_subst hP hτ).1 hd with ⟨hdc, hdt⟩ | ⟨q, hq, hqt, r', hr', hdr⟩
  · -- two constants: they were compared where the rule is applied
    obtain ⟨-, -, rfl⟩ := hself (.inl hcc)
    refine absurd (mem_violations.2 ⟨?_, .inl rfl⟩) (hgood (p := c) (q := c))
    simpa only [ordered_self] using hrequired hcs hdt
  · obtain ⟨rfl, rfl, rfl⟩ := hself (.inl hcc)
    exact ⟨rfl, hcc, g, hg, y, x, t, s, q, r', .inr hxy, ht, hs, hq, hqt, hr', hdr, hcs⟩
  · obtain ⟨rfl, rfl, rfl⟩ := hself (.inr hdc)
    exact ⟨rfl, hdc, g, hg, x, y, s, t, p, r, .inl hxy, hs, ht, hp, hps, hr, hcr, hdt⟩
  · -- two parameters: the theorem declares them, so its application was checked for them
    have hdecl : (ofGroups D).has (ordered p q).1 (ordered p q).2 = true := by
      by_contra hn
      refine hgood (mem_violations.2 ⟨hrequired hps hqt, ?_⟩)
      obtain ⟨h₁, h₂⟩ := ordered_mem hp hq
      exact .inr ⟨h₁, h₂, Bool.eq_false_iff.2 hn⟩
    have hD := has_instantiate_of_declared hdecl hr hr' hcr hdr
    rw [← hab] at hD
    have : (a, b) ∈ (instantiate D τ).violations (ofGroups E) Q := mem_violations.2 ⟨hD, hbad⟩
    rw [h₂] at this
    exact absurd this List.not_mem_nil

/-- What expanding a theorem can violate although applying it does not. -/
theorem mem_violations_comp_iff
    (h₁ : (instantiate G σ).violations (ofGroups D) P = [])
    (h₂ : (instantiate D τ).violations (ofGroups E) Q = []) {a b : String} :
    (a, b) ∈ (instantiate G (σ.comp τ)).violations (ofGroups E) Q ↔
      a = b ∧ constant a ∧ Subst.Captures G P σ τ a := by
  constructor
  · exact captures_of_mem_violations_comp hP hQ hσ hτ h₁ h₂
  · rintro ⟨rfl, hc, h⟩
    exact mem_violations_comp_of_captures hP hσ hτ hc h

end Distinct

end Composition

/-! ### A captured constant -/

namespace Capture

open OneType

/-- The arguments `p` and `f(q,c)` of a rule that wants `x` and `y` distinct. -/
def inner : Subst := .ofList [("x", var "p"), ("y", join (var "q") (constant "c"))]

/-- `f(u,c)` and `v` for `p` and `q`. -/
def outer : Subst := .ofList [("p", join (var "u") (constant "c")), ("q", var "v")]

theorem params_words : ∀ x ∈ NameSet.ofList ["p", "q"], IsWord x ∧ ¬x = "c" := by
  intro x hx
  simp only [NameSet.mem_ofList, List.mem_cons, List.not_mem_nil, or_false] at hx
  rcases hx with rfl | rfl <;> decide

theorem inner_over : inner.Over (.ofList ["p", "q"]) (· = "c") := by
  intro x t h
  have hm := NameMap.mem_toList.2 h
  rw [show inner.toList = [("x", var "p"), ("y", join (var "q") (constant "c"))] from rfl] at hm
  simp only [List.mem_cons, Prod.mk.injEq, List.not_mem_nil, or_false] at hm
  rcases hm with ⟨-, rfl⟩ | ⟨-, rfl⟩ <;>
    simp [Term.Over, var, join, constant, app, param, Term.leaves, Term.leavesAll]

theorem outer_over : outer.Over (.ofList ["u", "v"]) (· = "c") := by
  intro x t h
  have hm := NameMap.mem_toList.2 h
  rw [show outer.toList = [("p", join (var "u") (constant "c")), ("q", var "v")] from rfl] at hm
  simp only [List.mem_cons, Prod.mk.injEq, List.not_mem_nil, or_false] at hm
  rcases hm with ⟨-, rfl⟩ | ⟨-, rfl⟩ <;>
    simp [Term.Over, var, join, constant, app, param, Term.leaves, Term.leavesAll]

theorem isSome_get?_outer (x : String) :
    (outer.get? x).isSome ↔ x ∈ NameSet.ofList ["p", "q"] := by
  rw [outer, NameMap.ofList, NameMap.insertAll]
  simp only [List.foldl_cons, List.foldl_nil, NameMap.get?_insert, NameMap.get?_empty,
    NameSet.mem_ofList, List.mem_cons, List.not_mem_nil, or_false]
  split
  · simp [*]
  · split
    · simp [*]
    · simp [*]

end Capture

namespace Distinct

/-- The constant `c` is captured, and nothing else goes wrong. -/
theorem mem_violations_comp_capture :
    ("c", "c") ∈ (instantiate [["x", "y"]] (Capture.inner.comp Capture.outer)).violations
        (ofGroups [["u", "v"]]) (.ofList ["u", "v"]) ∧
      ("u", "v") ∉ (instantiate [["x", "y"]] (Capture.inner.comp Capture.outer)).violations
        (ofGroups [["u", "v"]]) (.ofList ["u", "v"]) := by
  have hiff : ∀ {a b : String},
      (a, b) ∈ (instantiate [["x", "y"]] (Capture.inner.comp Capture.outer)).violations
        (ofGroups [["u", "v"]]) (.ofList ["u", "v"]) ↔
      a = b ∧ a = "c" ∧ Subst.Captures [["x", "y"]] (.ofList ["p", "q"]) Capture.inner Capture.outer a :=
    mem_violations_comp_iff (D := [["p", "q"]]) Capture.params_words (by decide) Capture.inner_over
      Capture.isSome_get?_outer (by decide) (by decide)
  refine ⟨hiff.2 ⟨rfl, rfl, ?_⟩, fun h => absurd (hiff.1 h).1 (by decide)⟩
  exact ⟨["x", "y"], List.mem_singleton_self _, "x", "y", _, _, "p", _, .inl (List.Sublist.refl _),
    rfl, rfl, by decide, by decide, rfl, by decide, by decide⟩

/-- Conditions are not closed under using theorems as rules. -/
theorem not_violations_comp_eq_nil :
    ¬∀ (P Q : NameSet) (constant : String → Prop) (G D E : List (List String)) (σ τ : Subst),
      (∀ x ∈ P, IsWord x ∧ ¬constant x) → (∀ x ∈ Q, ¬constant x) → σ.Over P constant →
      (∀ x, (τ.get? x).isSome ↔ x ∈ P) → τ.Over Q constant →
      (instantiate G σ).violations (ofGroups D) P = [] →
      (instantiate D τ).violations (ofGroups E) Q = [] →
      (instantiate G (σ.comp τ)).violations (ofGroups E) Q = [] := by
  intro h
  have := h (.ofList ["p", "q"]) (.ofList ["u", "v"]) (· = "c") [["x", "y"]] [["p", "q"]] [["u", "v"]]
    Capture.inner Capture.outer Capture.params_words (by decide) Capture.inner_over
    Capture.isSome_get?_outer Capture.outer_over (by decide) (by decide)
  exact absurd this (by decide)

end Distinct

end Sequitur
