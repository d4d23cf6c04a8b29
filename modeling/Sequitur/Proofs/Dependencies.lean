import Sequitur.Proofs.Names
import Sequitur.Term.Unifier

/-!
# Classes and dependencies of holes

In a unifier with disjoint classes, being identified is an equivalence, and each operation does to it
what it should (`mem_members_merge`). `Below` is what the dependency search looks for: the holes that
are reached from a hole through terms recorded for it, the holes of a class counting as one. The search
finds all of them and nothing else (`mem_below_iff`): a level that adds something has a hole with
dependencies that no level before had, so there are at most as many such levels as there are entries.
-/

namespace Sequitur

theorem findSome?_congr {α β : Type} {f g : α → Option β} {l : List α} (h : ∀ x ∈ l, f x = g x) :
    l.findSome? f = l.findSome? g := by
  induction l with
  | nil => rfl
  | cons x l ih =>
    obtain ⟨hx, hl⟩ := List.forall_mem_cons.1 h
    rw [List.findSome?_cons, List.findSome?_cons, hx, ih hl]

theorem countP_lt_countP {α : Type} {p q : α → Bool} {l : List α} {x : α} (hx : x ∈ l)
    (hpq : ∀ y ∈ l, p y = true → q y = true) (hq : q x = true) (hp : p x = false) :
    l.countP p < l.countP q := by
  induction l with
  | nil => exact absurd hx List.not_mem_nil
  | cons y l ih =>
    have hl : ∀ y ∈ l, p y = true → q y = true := fun y hy => hpq y (List.mem_cons_of_mem _ hy)
    have hle := List.countP_mono_left hl
    have hy := hpq y (List.mem_cons_self ..)
    rw [List.countP_cons, List.countP_cons]
    rcases List.mem_cons.1 hx with rfl | hx
    · rw [hp, hq]
      simp only [Bool.false_eq_true, if_false, if_true]
      omega
    · have hlt := ih hx hl
      cases hpy : p y with
      | false =>
        simp only [Bool.false_eq_true, if_false]
        omega
      | true =>
        rw [hy hpy]
        omega

namespace Unifier

variable {u : Unifier} {v w x y : String}

/-! ### Classes -/

/-- No hole is in two classes. -/
def Disjoint (u : Unifier) : Prop := u.classes.Pairwise fun c d => ∀ v ∈ c, v ∉ d

theorem Disjoint.eq_of_mem (hu : u.Disjoint) {c d : NameSet} (hc : c ∈ u.classes) (hd : d ∈ u.classes)
    (hvc : v ∈ c) (hvd : v ∈ d) : c = d := by
  unfold Disjoint at hu
  generalize u.classes = cs at hu hc hd
  induction hu with
  | nil => exact absurd hc List.not_mem_nil
  | cons hhead _ ih =>
    rcases List.mem_cons.1 hc with hce | hcs
    · rcases List.mem_cons.1 hd with hde | hds
      · rw [hce, hde]
      · exact absurd hvd (hhead d hds v (hce ▸ hvc))
    · rcases List.mem_cons.1 hd with hde | hds
      · exact absurd hvc (hhead c hcs v (hde ▸ hvd))
      · exact ih hcs hds

theorem members_of_mem (hu : u.Disjoint) {c : NameSet} (hc : c ∈ u.classes) (hv : v ∈ c) :
    u.members v = c := by
  unfold members
  cases h : u.classes.find? (·.contains v) with
  | none => exact absurd (NameSet.contains_iff.2 hv) (by simpa using List.find?_eq_none.1 h c hc)
  | some d =>
    have hd : v ∈ d := by simpa using List.find?_some h
    exact hu.eq_of_mem (List.mem_of_find?_eq_some h) hc hd hv

theorem mem_members_iff (hu : u.Disjoint) :
    w ∈ u.members v ↔ w = v ∨ ∃ c ∈ u.classes, v ∈ c ∧ w ∈ c := by
  constructor
  · unfold members
    cases h : u.classes.find? (·.contains v) with
    | none =>
      intro hw
      exact .inl (by simpa using hw)
    | some c =>
      intro hw
      exact .inr ⟨c, List.mem_of_find?_eq_some h, by simpa using List.find?_some h, hw⟩
  · rintro (rfl | ⟨c, hc, hv, hw⟩)
    · exact u.self_mem_members w
    · rwa [members_of_mem hu hc hv]

theorem members_eq (hu : u.Disjoint) (h : w ∈ u.members v) : u.members w = u.members v := by
  rcases (mem_members_iff hu).1 h with rfl | ⟨c, hc, hv, hw⟩
  · rfl
  · rw [members_of_mem hu hc hv, members_of_mem hu hc hw]

theorem mem_members_symm (hu : u.Disjoint) (h : w ∈ u.members v) : v ∈ u.members w := by
  rw [members_eq hu h]
  exact u.self_mem_members v

theorem mem_members_trans (hu : u.Disjoint) (h : w ∈ u.members v) (h' : x ∈ u.members w) :
    x ∈ u.members v := by
  rwa [members_eq hu h] at h'

theorem sameClass_iff : u.sameClass v w = true ↔ w ∈ u.members v := NameSet.contains_iff

/-! ### Merging -/

theorem mem_foldl_union {cs : List NameSet} {s : NameSet} :
    x ∈ cs.foldl (· ∪ ·) s ↔ x ∈ s ∨ ∃ c ∈ cs, x ∈ c := by
  induction cs generalizing s with
  | nil => simp
  | cons c cs ih => simp [ih, or_assoc]

/-- The class that merging makes. -/
def joined (u : Unifier) (v w : String) : NameSet :=
  (u.classes.filter fun c => c.contains v || c.contains w).foldl (· ∪ ·) (.ofList [v, w])

theorem mem_joined (hu : u.Disjoint) : x ∈ u.joined v w ↔ x ∈ u.members v ∨ x ∈ u.members w := by
  rw [joined, mem_foldl_union, mem_members_iff hu, mem_members_iff hu]
  simp only [NameSet.mem_ofList, List.mem_cons, List.not_mem_nil, or_false, List.mem_filter,
    Bool.or_eq_true, NameSet.contains_iff]
  grind

theorem mem_classes_merge {c : NameSet} :
    c ∈ (u.merge v w).classes ↔ (c ∈ u.classes ∧ v ∉ c ∧ w ∉ c) ∨ c = u.joined v w := by
  simp only [merge, joined, List.mem_append, List.mem_filter, List.mem_singleton, Bool.not_eq_true',
    Bool.or_eq_false_iff, NameSet.contains_eq_false]

theorem disjoint_merge (hu : u.Disjoint) : (u.merge v w).Disjoint := by
  refine List.pairwise_append.2 ⟨List.Pairwise.filter _ hu, List.pairwise_singleton .., ?_⟩
  intro c hc d hd x hx hj
  rw [List.mem_singleton.1 hd] at hj
  obtain ⟨hc, hvw⟩ := List.mem_filter.1 hc
  simp only [Bool.not_eq_true', Bool.or_eq_false_iff, NameSet.contains_eq_false] at hvw
  rcases (mem_joined hu).1 hj with hj | hj
  · exact hvw.1 (members_of_mem hu hc hx ▸ mem_members_symm hu hj)
  · exact hvw.2 (members_of_mem hu hc hx ▸ mem_members_symm hu hj)

/-- Merging identifies the members of two classes and nothing else. -/
theorem mem_members_merge (hu : u.Disjoint) : y ∈ (u.merge v w).members x ↔
    y ∈ u.members x ∨ (x ∈ u.joined v w ∧ y ∈ u.joined v w) := by
  rw [mem_members_iff (disjoint_merge hu)]
  constructor
  · rintro (rfl | ⟨c, hc, hx, hy⟩)
    · exact .inl (u.self_mem_members y)
    · rcases mem_classes_merge.1 hc with ⟨hc, -⟩ | rfl
      · exact .inl ((mem_members_iff hu).2 (.inr ⟨c, hc, hx, hy⟩))
      · exact .inr ⟨hx, hy⟩
  · rintro (hy | ⟨hx, hy⟩)
    · rcases (mem_members_iff hu).1 hy with rfl | ⟨c, hc, hx, hy⟩
      · exact .inl rfl
      · by_cases hj : v ∈ c ∨ w ∈ c
        · have hin : ∀ z ∈ c, z ∈ u.joined v w := by
            intro z hz
            rw [mem_joined hu]
            rcases hj with hv | hw
            · exact .inl ((mem_members_iff hu).2 (.inr ⟨c, hc, hv, hz⟩))
            · exact .inr ((mem_members_iff hu).2 (.inr ⟨c, hc, hw, hz⟩))
          exact .inr ⟨_, mem_classes_merge.2 (.inr rfl), hin x hx, hin y hy⟩
        · rw [not_or] at hj
          exact .inr ⟨c, mem_classes_merge.2 (.inl ⟨hc, hj⟩), hx, hy⟩
    · exact .inr ⟨_, mem_classes_merge.2 (.inr rfl), hx, hy⟩

/-! ### Dependencies -/

/-- The holes that a hole depends on, the members of a class counting as one. -/
inductive Below (u : Unifier) (v : String) : String → Prop where
  | direct {p c y : String} : p ∈ u.members v → c ∈ u.depsOf p → y ∈ u.members c → Below u v y
  | step {p c y : String} : Below u v p → c ∈ u.depsOf p → y ∈ u.members c → Below u v y

/-- With the holes of a set also the classes of what they depend on. -/
def Closed (u : Unifier) (S : String → Prop) : Prop :=
  ∀ p, S p → ∀ c ∈ u.depsOf p, ∀ y ∈ u.members c, S y

theorem mem_succs {s : NameSet} : y ∈ u.succs s ↔ ∃ p ∈ s, ∃ c ∈ u.depsOf p, y ∈ u.members c := by
  have hfold : ∀ l : List String, y ∈ l.foldr (fun c r => u.members c ∪ r) ∅ ↔ ∃ c ∈ l, y ∈ u.members c := by
    intro l
    induction l with
    | nil => simp
    | cons c l ih => simp [ih]
  rw [succs, hfold]
  constructor
  · rintro ⟨c, hc, hy⟩
    obtain ⟨p, hp, hc⟩ := List.mem_flatMap.1 hc
    exact ⟨p, hp, c, hc, hy⟩
  · rintro ⟨p, hp, c, hc, hy⟩
    exact ⟨c, List.mem_flatMap.2 ⟨p, hp, hc⟩, hy⟩

/-- The search finds nothing outside a closed set. -/
theorem mem_of_mem_reach {S : String → Prop} (hS : u.Closed S) {n : Nat} {seen front : NameSet}
    (hseen : ∀ x ∈ seen, S x) (hfront : ∀ x ∈ front, S x) (h : y ∈ u.reach n seen front) : S y := by
  induction n generalizing seen front with
  | zero => exact hseen y h
  | succ n ih =>
    rw [reach] at h
    have hnew : ∀ x ∈ (u.succs front).filter (!seen.contains ·), S x := by
      intro x hx
      obtain ⟨p, hp, c, hc, hx⟩ := mem_succs.1 (NameSet.mem_filter.1 hx).1
      exact hS p (hfront p hp) c hc x hx
    split at h
    · exact hseen y h
    · refine ih (fun x hx => ?_) hnew h
      exact (NameSet.mem_union.1 hx).elim (hseen x) (hnew x)

theorem mem_keys_of_mem_depsOf {p c : String} (h : c ∈ u.depsOf p) : p ∈ u.deps.keys := by
  unfold depsOf at h
  cases hp : u.deps.get? p with
  | none =>
    rw [hp] at h
    exact absurd h (NameSet.not_mem_empty c)
  | some s => exact List.mem_map.2 ⟨(p, s), NameMap.mem_toList.2 hp, rfl⟩

/-- The entries that the search has still to look at. -/
def pending (u : Unifier) (seen front : NameSet) : Nat :=
  u.deps.keys.countP fun k => !seen.contains k || front.contains k

/-- A level that adds something has looked at an entry for the first time. -/
theorem pending_lt {seen front new : NameSet} (hfront : ∀ x ∈ front, x ∈ seen)
    (hnew : ∀ x, x ∈ new ↔ x ∈ u.succs front ∧ x ∉ seen) (hy : y ∈ new) :
    u.pending (seen ∪ new) new < u.pending seen front := by
  obtain ⟨p, hp, c, hc, -⟩ := mem_succs.1 ((hnew y).1 hy).1
  refine countP_lt_countP (mem_keys_of_mem_depsOf hc) (fun k _ hk => ?_) (by simp [hp]) ?_
  · simp only [Bool.or_eq_true, Bool.not_eq_true', NameSet.contains_eq_false, NameSet.contains_iff,
      NameSet.mem_union, not_or] at hk ⊢
    exact .inl (hk.elim And.left fun hk => ((hnew k).1 hk).2)
  · have hnot : p ∉ new := fun h => ((hnew p).1 h).2 (hfront p hp)
    simp [hfront p hp, hnot]

/-- The search goes on until it has a closed set. -/
theorem closed_reach {n : Nat} {seen front : NameSet} (hfront : ∀ x ∈ front, x ∈ seen)
    (hdone : ∀ p ∈ seen, p ∉ front → ∀ c ∈ u.depsOf p, ∀ y ∈ u.members c, y ∈ seen)
    (hn : u.pending seen front ≤ n) :
    (∀ x ∈ seen, x ∈ u.reach n seen front) ∧ u.Closed (· ∈ u.reach n seen front) := by
  induction n generalizing seen front with
  | zero =>
    refine ⟨fun x hx => hx, fun p hp c hc y hy => hdone p hp (fun hpf => ?_) c hc y hy⟩
    have hnone := List.countP_eq_zero.1 (Nat.le_zero.1 hn) p (mem_keys_of_mem_depsOf hc)
    simp [hpf] at hnone
  | succ n ih =>
    rw [reach]
    have hnew : ∀ x, x ∈ (u.succs front).filter (!seen.contains ·) ↔ x ∈ u.succs front ∧ x ∉ seen := by
      simp
    generalize (u.succs front).filter (!seen.contains ·) = new at hnew
    -- every hole of the front is done after this level
    have hdone' : ∀ p ∈ seen, ∀ c ∈ u.depsOf p, ∀ y ∈ u.members c, y ∈ seen ∨ y ∈ new := by
      intro p hp c hc y hy
      by_cases hy' : y ∈ seen
      · exact .inl hy'
      by_cases hpf : p ∈ front
      · exact .inr ((hnew y).2 ⟨mem_succs.2 ⟨p, hpf, c, hc, hy⟩, hy'⟩)
      · exact .inl (hdone p hp hpf c hc y hy)
    split
    · next hempty =>
      refine ⟨fun x hx => hx, fun p hp c hc y hy => (hdone' p hp c hc y hy).resolve_right fun hy' => ?_⟩
      rw [← NameSet.mem_toList, List.isEmpty_iff.1 hempty] at hy'
      exact absurd hy' List.not_mem_nil
    · next hne =>
      obtain ⟨y, hy⟩ := List.exists_mem_of_ne_nil new.toList (fun h => hne (List.isEmpty_iff.2 h))
      have hlt := pending_lt hfront hnew hy
      have hnext : ∀ p ∈ seen ∪ new, p ∉ new → ∀ c ∈ u.depsOf p, ∀ y ∈ u.members c, y ∈ seen ∪ new := by
        intro p hp hpn c hc y hy
        have hp : p ∈ seen := by simpa [hpn] using hp
        simpa using hdone' p hp c hc y hy
      obtain ⟨hsub, hclosed⟩ := ih (fun x hx => by simp [hx]) hnext (by omega)
      exact ⟨fun x hx => hsub x (by simp [hx]), hclosed⟩

theorem mem_below_iff : y ∈ u.below v ↔ u.Below v y := by
  have hdirect : ∀ x, x ∈ u.succs (u.members v) → u.Below v x := by
    intro x hx
    obtain ⟨p, hp, c, hc, hx⟩ := mem_succs.1 hx
    exact .direct hp hc hx
  have hstart : u.pending (u.succs (u.members v)) (u.succs (u.members v)) ≤ u.deps.size := by
    refine Nat.le_trans List.countP_le_length (Nat.le_of_eq ?_)
    rw [NameMap.keys, List.length_map, NameMap.size]
  obtain ⟨hsub, hclosed⟩ := closed_reach (fun x hx => hx) (fun p hp hpn => absurd hp hpn) hstart
  constructor
  · intro hy
    exact mem_of_mem_reach (S := u.Below v) (fun p hp c hc y hy => .step hp hc hy) hdirect hdirect hy
  · intro hy
    induction hy with
    | direct hp hc hy => exact hsub _ (mem_succs.2 ⟨_, hp, _, hc, hy⟩)
    | step _ hc hy ih => exact hclosed _ ih _ hc _ hy

theorem depends_iff : u.depends v w = true ↔ u.Below v w := by
  rw [depends, NameSet.contains_iff, mem_below_iff]

theorem Below.trans (hu : u.Disjoint) (h : u.Below v w) (h' : u.Below w x) : u.Below v x := by
  -- with `w` its whole class is below `v`
  have hclass : ∀ p ∈ u.members w, u.Below v p := by
    intro p hp
    cases h with
    | direct hq hc hw => exact .direct hq hc (mem_members_trans hu hw hp)
    | step hq hc hw => exact .step hq hc (mem_members_trans hu hw hp)
  induction h' with
  | direct hp hc hy => exact .step (hclass _ hp) hc hy
  | step _ hc hy ih => exact .step ih hc hy

/-! ### More dependencies -/

variable {u' : Unifier}

theorem members_congr (hclasses : u'.classes = u.classes) (v : String) : u'.members v = u.members v := by
  rw [members, members, hclasses]

/-- A state with the same classes finds the dependencies again if it has them recorded. -/
theorem depends_mono (hclasses : u'.classes = u.classes)
    (hdeps : ∀ p, ∀ c ∈ u.depsOf p, c ∈ u'.depsOf p) (h : u.depends v w = true) : u'.depends v w = true := by
  have hmembers := members_congr hclasses
  rw [depends_iff] at h ⊢
  induction h with
  | direct hp hc hy => exact .direct (hmembers _ ▸ hp) (hdeps _ _ hc) (hmembers _ ▸ hy)
  | step _ hc hy ih => exact .step ih (hdeps _ _ hc) (hmembers _ ▸ hy)

theorem wouldCycle_mono (hclasses : u'.classes = u.classes)
    (hdeps : ∀ p, ∀ c ∈ u.depsOf p, c ∈ u'.depsOf p) {ws : NameSet} (h : u.wouldCycle v ws = true) :
    u'.wouldCycle v ws = true := by
  obtain ⟨w, hw, hvw⟩ := List.any_eq_true.1 h
  refine List.any_eq_true.2 ⟨w, hw, ?_⟩
  rw [Bool.or_eq_true, sameClass] at hvw ⊢
  rw [members_congr hclasses]
  exact hvw.imp_right (depends_mono hclasses hdeps)

theorem depends_congr (hclasses : u'.classes = u.classes) (hdeps : u'.deps = u.deps) :
    u'.depends v w = u.depends v w := by
  have hsame : ∀ p, u'.depsOf p = u.depsOf p := fun p => by rw [depsOf, depsOf, hdeps]
  refine Bool.eq_iff_iff.2 ⟨depends_mono hclasses.symm ?_, depends_mono hclasses ?_⟩
  · exact fun p c hc => hsame p ▸ hc
  · exact fun p c hc => (hsame p).symm ▸ hc

theorem wouldCycle_congr {ws : NameSet} (hclasses : u'.classes = u.classes) (hdeps : u'.deps = u.deps) :
    u'.wouldCycle v ws = u.wouldCycle v ws := by
  unfold wouldCycle sameClass
  simp only [members_congr hclasses, depends_congr hclasses hdeps]

end Unifier

end Sequitur
