import Sequitur.Proofs.Dependencies
import Sequitur.Proofs.Trees

/-!
# Unification

A state of the unifier stands for conditions on trees in the place of holes: a bound hole has the value
of its term, and identified holes have the same value (`Solves`). Unifying two terms adds the condition
that their values are equal, or fails where no solution meets it (`unifies_unifyWithin`).

What keeps a state solvable is that its unbound classes can be given any values (`Consistent.free`). The
dependency check is used twice. Where it finds a dependency, values of a solution would be parts of
themselves (`Consistent.size`). Where it finds none, the value of one side is not touched by a change
at the other, so the condition can be met by such a change (`Consistent.exists_solution_at`).
-/

namespace Sequitur

namespace Term

/-- The name that a term goes by. -/
def name : Term → String
  | .var _ _ param => param.name.text
  | .hole head _ _ => head.text
  | .app _ _ decl _ => decl.name.text

variable {t : Term} {w : String}

theorem eval_of_isHole (h : t.isHole = true) (θ : String → Tree) : t.eval θ = θ t.key := by
  cases t with
  | hole head span param => rfl
  | _ => exact absurd h nofun

theorem eval_of_not_isHole (h : t.isHole = false) (θ : String → Tree) :
    t.eval θ = .node t.name (t.args.map (eval θ)) := by
  cases t with
  | var head span param => rfl
  | hole => exact absurd h nofun
  | app head span decl args => rw [eval_app]; rfl

theorem mem_holeNames : w ∈ t.holeNames ↔ w ∈ t.holes.map key := by
  rw [holeNames, NameSet.mem_ofList, keys_eq_map]

theorem size_le_of_mem_holeNames (h : w ∈ t.holeNames) (θ : String → Tree) :
    (θ w).size ≤ (t.eval θ).size := by
  rw [mem_holeNames] at h
  induction t using Term.ind with
  | var => exact absurd h List.not_mem_nil
  | hole head span param =>
    rw [List.mem_singleton.1 h]
    exact Nat.le_refl _
  | app head span decl args ih =>
    rw [holes_app, List.map_flatMap] at h
    obtain ⟨a, ha, hw⟩ := List.mem_flatMap.1 h
    have hle := ih a ha hw
    have hlt : (a.eval θ).size < (Tree.node decl.name.text (args.map (eval θ))).size :=
      Tree.size_lt_of_mem (List.mem_map_of_mem ha)
    rw [eval_app]
    omega

/-- A hole inside a term has a smaller value. -/
theorem size_lt_of_mem_holeNames (h : w ∈ t.holeNames) (hn : t.isHole = false) (θ : String → Tree) :
    (θ w).size < (t.eval θ).size := by
  cases t with
  | var => exact absurd (mem_holeNames.1 h) List.not_mem_nil
  | hole => exact absurd hn nofun
  | app head span decl args =>
    rw [mem_holeNames, holes_app, List.map_flatMap] at h
    obtain ⟨a, ha, hw⟩ := List.mem_flatMap.1 h
    have hle := size_le_of_mem_holeNames (mem_holeNames.2 hw) θ
    have hlt : (a.eval θ).size < (Tree.node decl.name.text (args.map (eval θ))).size :=
      Tree.size_lt_of_mem (List.mem_map_of_mem ha)
    rw [eval_app]
    omega

mutual
def subterms : Term → List Term
  | .var head span param => [.var head span param]
  | .hole head span param => [.hole head span param]
  | .app head span decl args => .app head span decl args :: subtermsAll args
def subtermsAll : List Term → List Term
  | [] => []
  | t :: ts => subterms t ++ subtermsAll ts
end

theorem subtermsAll_eq_flatMap (ts : List Term) : subtermsAll ts = ts.flatMap subterms := by
  induction ts with
  | nil => rfl
  | cons t ts ih => simp [subtermsAll, ih]

mutual
theorem length_subterms : ∀ t : Term, t.subterms.length = t.size
  | .var .. | .hole .. => rfl
  | .app _ _ _ args => by
    rw [subterms, List.length_cons, length_subtermsAll args, size, Nat.add_comm]
theorem length_subtermsAll : ∀ ts : List Term, (subtermsAll ts).length = sizes ts
  | [] => rfl
  | t :: ts => by
    rw [subtermsAll, List.length_append, length_subterms t, length_subtermsAll ts, sizes]
end

theorem self_mem_subterms (t : Term) : t ∈ t.subterms := by
  cases t <;> simp [subterms]

theorem args_subset_subterms {s : Term} (hs : s ∈ t.subterms) : s.args ⊆ t.subterms := by
  induction t using Term.ind with
  | var head span param =>
    rw [List.mem_singleton.1 hs]
    exact List.nil_subset _
  | hole head span param =>
    rw [List.mem_singleton.1 hs]
    exact List.nil_subset _
  | app head span decl args ih =>
    rw [subterms, subtermsAll_eq_flatMap] at hs ⊢
    refine List.subset_cons_of_subset _ fun a ha => ?_
    rcases List.mem_cons.1 hs with rfl | hs
    · exact List.mem_flatMap.2 ⟨a, ha, self_mem_subterms a⟩
    · obtain ⟨b, hb, hs⟩ := List.mem_flatMap.1 hs
      exact List.mem_flatMap.2 ⟨b, hb, ih b hb hs ha⟩

end Term

namespace Unifier

variable {u : Unifier} {θ η : String → Tree} {v w x : String} {t : Term}

/-! ### Solutions -/

structure Solves (u : Unifier) (θ : String → Tree) : Prop where
  bindings : ∀ v t, u.bindings.get? v = some t → θ v = t.eval θ
  classes : ∀ v w, w ∈ u.members v → θ w = θ v

theorem exists_get?_of_binding? (h : u.binding? v = some t) :
    ∃ p ∈ u.members v, u.bindings.get? p = some t := by
  rcases Option.or_eq_some_iff.1 h with h | ⟨-, h⟩
  · exact ⟨v, u.self_mem_members v, h⟩
  · exact List.exists_of_findSome?_eq_some h

theorem binding?_eq_none : u.binding? v = none ↔ ∀ p ∈ u.members v, u.bindings.get? p = none := by
  rw [binding?, Option.or_eq_none_iff, List.findSome?_eq_none_iff]
  exact ⟨And.right, fun h => ⟨h v (u.self_mem_members v), h⟩⟩

theorem Solves.eq_of_binding? (h : u.Solves θ) (hb : u.binding? v = some t) : θ v = t.eval θ := by
  obtain ⟨p, hp, ht⟩ := exists_get?_of_binding? hb
  rw [← h.classes v p hp, h.bindings p t ht]

/-- The same on identified holes. -/
def Respects (u : Unifier) (ρ : String → Tree) : Prop := ∀ v w, w ∈ u.members v → ρ w = ρ v

structure Consistent (u : Unifier) : Prop where
  disjoint : u.Disjoint
  notHole : ∀ v t, u.bindings.get? v = some t → t.isHole = false
  deps : ∀ v t, u.bindings.get? v = some t → ∀ w ∈ t.holeNames, w ∈ u.depsOf v
  /-- A hole has a larger value than what it depends on. -/
  size : ∀ θ, u.Solves θ → ∀ v, ∀ w ∈ u.depsOf v, (θ w).size < (θ v).size
  /-- The unbound classes can have any values. -/
  free : ∀ ρ, u.Respects ρ → ∃ θ, u.Solves θ ∧ ∀ v, u.binding? v = none → θ v = ρ v

namespace Consistent

theorem size_of_below (hu : u.Consistent) (hθ : u.Solves θ) (h : u.Below v w) :
    (θ w).size < (θ v).size := by
  induction h with
  | direct hp hc hw =>
    rw [hθ.classes _ _ hw, ← hθ.classes _ _ hp]
    exact hu.size θ hθ _ _ hc
  | step _ hc hw ih =>
    rw [hθ.classes _ _ hw]
    exact Nat.lt_trans (hu.size θ hθ _ _ hc) ih

/-- On a set that holds with a hole those of its term, solutions that agree on unbound holes agree. -/
theorem eq_of_agree (hu : u.Consistent) {X : String → Prop}
    (hX : ∀ x, X x → ∀ p ∈ u.members x, ∀ t, u.bindings.get? p = some t → ∀ y ∈ t.holeNames, X y)
    (hθ : u.Solves θ) (hη : u.Solves η) (h : ∀ x, X x → u.binding? x = none → θ x = η x) (hx : X x) :
    θ x = η x := by
  -- by induction on the size of the value
  generalize hn : (θ x).size = n
  induction n using Nat.strongRecOn generalizing x with
  | ind n ih =>
    cases hb : u.binding? x with
    | none => exact h x hx hb
    | some t =>
      rw [hθ.eq_of_binding? hb, hη.eq_of_binding? hb]
      obtain ⟨p, hp, ht⟩ := exists_get?_of_binding? hb
      refine Term.eval_congr fun y hy => ?_
      have hy := Term.mem_holeNames.2 hy
      have hlt := Term.size_lt_of_mem_holeNames hy (hu.notHole p t ht) θ
      rw [← hθ.eq_of_binding? hb, hn] at hlt
      exact ih _ hlt (hX x hx p hp t ht y hy) rfl

end Consistent

/-- `x` neither is identified with `v` nor depends on it. -/
structure Apart (u : Unifier) (v x : String) : Prop where
  notMember : v ∉ u.members x
  notBelow : ¬u.Below x v

namespace Consistent

theorem apart_of_binding (hu : u.Consistent) (h : u.Apart v x) {p : String} (hp : p ∈ u.members x)
    (ht : u.bindings.get? p = some t) {y : String} (hy : y ∈ t.holeNames) : u.Apart v y := by
  have hbelow : ∀ z ∈ u.members y, u.Below x z := fun z hz => .direct hp (hu.deps p t ht y hy) hz
  refine ⟨fun hv => h.notBelow (hbelow v hv), fun hv => h.notBelow ?_⟩
  exact (hbelow y (u.self_mem_members y)).trans hu.disjoint hv

/-- An unbound hole can be given a value that is computed from holes apart from it, all other unbound
classes keeping theirs. -/
theorem exists_solution_at (hu : u.Consistent) (hv : u.binding? v = none) {ρ : String → Tree}
    (hρ : u.Respects ρ) {f : (String → Tree) → Tree}
    (hf : ∀ θ η : String → Tree, (∀ x, u.Apart v x → θ x = η x) → f θ = f η) :
    ∃ θ, u.Solves θ ∧ θ v = f θ ∧ ∀ x, u.binding? x = none → x ∉ u.members v → θ x = ρ x := by
  obtain ⟨θ, hθ, hθρ⟩ := hu.free ρ hρ
  -- the value that the others give, put at the class of `v`
  let ρ' : String → Tree := fun x => if x ∈ u.members v then f θ else ρ x
  have hρ' : u.Respects ρ' := by
    intro x y hy
    have hiff : y ∈ u.members v ↔ x ∈ u.members v :=
      ⟨fun h => mem_members_trans hu.disjoint h (mem_members_symm hu.disjoint hy),
        fun h => mem_members_trans hu.disjoint h hy⟩
    simp only [ρ', hiff, hρ x y hy]
  obtain ⟨η, hη, hηρ⟩ := hu.free ρ' hρ'
  have hvalue : η v = f θ := by
    rw [hηρ v hv]
    exact if_pos (u.self_mem_members v)
  have hother : ∀ x, u.binding? x = none → x ∉ u.members v → η x = ρ x := by
    intro x hx hxv
    rw [hηρ x hx]
    exact if_neg hxv
  refine ⟨η, hη, ?_, hother⟩
  rw [hvalue]
  refine hf θ η fun x hx => hu.eq_of_agree (X := u.Apart v) ?_ hθ hη (fun y hy hb => ?_) hx
  · exact fun x hx p hp t ht y hy => hu.apart_of_binding hx hp ht hy
  · rw [hθρ y hb, hother y hb fun h => hy.notMember (mem_members_symm hu.disjoint h)]

end Consistent

/-! ### Operations -/

theorem depsOf_addDeps {ws : NameSet} {p : String} :
    (u.addDeps v ws).depsOf p = if p = v then u.depsOf v ∪ ws else u.depsOf p := by
  unfold addDeps depsOf
  rw [NameMap.get?_insert]
  split <;> rfl

/-- Dependencies that every solution has can be recorded. -/
theorem Consistent.addDeps (hu : u.Consistent) {ws : NameSet}
    (hws : ∀ θ, u.Solves θ → ∀ w ∈ ws, (θ w).size < (θ v).size) : (u.addDeps v ws).Consistent where
  disjoint := hu.disjoint
  notHole := hu.notHole
  deps p t ht w hw := by
    rw [depsOf_addDeps]
    split
    · next h => exact NameSet.mem_union.2 (.inl (h ▸ hu.deps p t ht w hw))
    · exact hu.deps p t ht w hw
  size θ hθ p w hw := by
    have hsol : u.Solves θ := ⟨hθ.bindings, hθ.classes⟩
    rw [depsOf_addDeps] at hw
    split at hw
    · next h =>
      subst h
      exact (NameSet.mem_union.1 hw).elim (hu.size θ hsol p w) (hws θ hsol w)
    · exact hu.size θ hsol p w hw
  free ρ hρ := by
    obtain ⟨θ, hθ, h⟩ := hu.free ρ hρ
    exact ⟨θ, ⟨hθ.bindings, hθ.classes⟩, h⟩

/-- The state with a term for an unbound hole. -/
def assign (u : Unifier) (v : String) (t : Term) : Unifier :=
  { u with bindings := u.bindings.insert v t }.addDeps v t.holeNames

theorem get?_assign {p : String} :
    (u.assign v t).bindings.get? p = if p = v then some t else u.bindings.get? p :=
  NameMap.get?_insert ..

theorem solves_assign (hv : u.bindings.get? v = none) :
    (u.assign v t).Solves θ ↔ u.Solves θ ∧ θ v = t.eval θ := by
  constructor
  · intro h
    refine ⟨⟨fun p s hp => h.bindings p s ?_, h.classes⟩, h.bindings v t (by rw [get?_assign, if_pos rfl])⟩
    rw [get?_assign, if_neg]
    · exact hp
    · rintro rfl
      rw [hv] at hp
      exact absurd hp nofun
  · rintro ⟨h, hvt⟩
    refine ⟨fun p s hp => ?_, h.classes⟩
    rw [get?_assign] at hp
    split at hp
    · next he =>
      cases hp
      rw [he, hvt]
    · exact h.bindings p s hp

theorem Consistent.assign (hu : u.Consistent) (hv : u.binding? v = none) (hn : t.isHole = false)
    (hapart : ∀ w ∈ t.holeNames, u.Apart v w) : (u.assign v t).Consistent where
  disjoint := hu.disjoint
  notHole p s hp := by
    rw [get?_assign] at hp
    split at hp
    · cases hp
      exact hn
    · exact hu.notHole p s hp
  deps p s hp w hw := by
    rw [get?_assign] at hp
    unfold Unifier.assign
    rw [depsOf_addDeps]
    split at hp
    · next h =>
      cases hp
      rw [if_pos h]
      exact NameSet.mem_union.2 (.inr hw)
    · next h =>
      rw [if_neg h]
      exact hu.deps p s hp w hw
  size θ hθ p w hw := by
    obtain ⟨hsol, hvt⟩ := (solves_assign (binding?_eq_none.1 hv v (u.self_mem_members v))).1 hθ
    unfold Unifier.assign at hw
    rw [depsOf_addDeps] at hw
    split at hw
    · next h =>
      subst h
      rcases NameSet.mem_union.1 hw with hw | hw
      · exact hu.size θ hsol p w hw
      · rw [hvt]
        exact Term.size_lt_of_mem_holeNames hw hn θ
    · exact hu.size θ hsol p w hw
  free ρ hρ := by
    have hf : ∀ θ η : String → Tree, (∀ x, u.Apart v x → θ x = η x) → t.eval θ = t.eval η :=
      fun θ η h => Term.eval_congr fun w hw => h w (hapart w (Term.mem_holeNames.2 hw))
    obtain ⟨θ, hθ, hvt, hother⟩ := hu.exists_solution_at hv hρ hf
    have hunbound := binding?_eq_none.1 hv v (u.self_mem_members v)
    refine ⟨θ, (solves_assign hunbound).2 ⟨hθ, hvt⟩, fun x hx => ?_⟩
    have hx := binding?_eq_none.1 hx
    -- the class of an unbound hole does not hold `v`
    have hvx : v ∉ u.members x := fun hm => by
      have := hx v hm
      rw [get?_assign, if_pos rfl] at this
      exact absurd this nofun
    refine hother x (binding?_eq_none.2 fun p hp => ?_) fun h => hvx (mem_members_symm hu.disjoint h)
    have hpv : p ≠ v := fun he => hvx (he ▸ hp)
    have hpn := hx p hp
    rwa [get?_assign, if_neg hpv] at hpn

theorem solves_merge (hu : u.Disjoint) : (u.merge v w).Solves θ ↔ u.Solves θ ∧ θ v = θ w := by
  constructor
  · intro h
    refine ⟨⟨h.bindings, fun x y hy => h.classes x y ((mem_members_merge hu).2 (.inl hy))⟩, ?_⟩
    refine h.classes w v ((mem_members_merge hu).2 (.inr ⟨?_, ?_⟩))
    · exact (mem_joined hu).2 (.inr (u.self_mem_members w))
    · exact (mem_joined hu).2 (.inl (u.self_mem_members v))
  · rintro ⟨h, hvw⟩
    have hjoined : ∀ x ∈ u.joined v w, θ x = θ v := by
      intro x hx
      rcases (mem_joined hu).1 hx with hx | hx
      · exact h.classes v x hx
      · rw [h.classes w x hx, hvw]
    refine ⟨h.bindings, fun x y hy => ?_⟩
    rcases (mem_members_merge hu).1 hy with hy | ⟨hx, hy⟩
    · exact h.classes x y hy
    · rw [hjoined y hy, hjoined x hx]

theorem binding?_of_merge (hu : u.Disjoint) (h : (u.merge v w).binding? x = none) :
    u.binding? x = none ∧ (x ∈ u.joined v w → u.binding? v = none ∧ u.binding? w = none) := by
  have h := binding?_eq_none.1 h
  have hmembers : ∀ y, (∀ p ∈ u.members y, p ∈ (u.merge v w).members x) → u.binding? y = none :=
    fun y hy => binding?_eq_none.2 fun p hp => h p (hy p hp)
  refine ⟨hmembers x fun p hp => (mem_members_merge hu).2 (.inl hp), fun hx => ⟨?_, ?_⟩⟩
  · exact hmembers v fun p hp => (mem_members_merge hu).2 (.inr ⟨hx, (mem_joined hu).2 (.inl hp)⟩)
  · exact hmembers w fun p hp => (mem_members_merge hu).2 (.inr ⟨hx, (mem_joined hu).2 (.inr hp)⟩)

theorem respects_of_merge (hu : u.Disjoint) {ρ : String → Tree} (h : (u.merge v w).Respects ρ) :
    u.Respects ρ ∧ ρ v = ρ w := by
  refine ⟨fun x y hy => h x y ((mem_members_merge hu).2 (.inl hy)), ?_⟩
  refine h w v ((mem_members_merge hu).2 (.inr ⟨?_, ?_⟩))
  · exact (mem_joined hu).2 (.inr (u.self_mem_members w))
  · exact (mem_joined hu).2 (.inl (u.self_mem_members v))

/-- Holes can be identified if solutions with any values of unbound classes can. -/
theorem Consistent.merge (hu : u.Consistent)
    (hfree : ∀ ρ, u.Respects ρ → ρ v = ρ w → ∃ θ, u.Solves θ ∧ θ v = θ w ∧
      ∀ x, (u.merge v w).binding? x = none → θ x = ρ x) : (u.merge v w).Consistent where
  disjoint := disjoint_merge hu.disjoint
  notHole := hu.notHole
  deps := hu.deps
  size θ hθ := hu.size θ ((solves_merge hu.disjoint).1 hθ).1
  free ρ hρ := by
    obtain ⟨hρu, hvw⟩ := respects_of_merge hu.disjoint hρ
    obtain ⟨θ, hθ, he, hother⟩ := hfree ρ hρu hvw
    exact ⟨θ, (solves_merge hu.disjoint).2 ⟨hθ, he⟩, hother⟩

theorem merge_comm (u : Unifier) (v w : String) : u.merge v w = u.merge w v := by
  have hor : ∀ c : NameSet, (c.contains v || c.contains w) = (c.contains w || c.contains v) := fun c =>
    Bool.or_comm ..
  have hpair : NameSet.ofList [v, w] = .ofList [w, v] := by
    ext x
    simp [or_comm]
  simp only [merge, hor, hpair]

/-- Holes that have the same value anyway can be identified. -/
theorem Consistent.merge_of_eq (hu : u.Consistent) (h : ∀ θ, u.Solves θ → θ v = θ w) :
    (u.merge v w).Consistent := by
  refine hu.merge fun ρ hρ _ => ?_
  obtain ⟨θ, hθ, hother⟩ := hu.free ρ hρ
  exact ⟨θ, hθ, h θ hθ, fun x hx => hother x (binding?_of_merge hu.disjoint hx).1⟩

theorem Consistent.merge_unbound (hu : u.Consistent) (hv : u.binding? v = none)
    (hw : u.binding? w = none) : (u.merge v w).Consistent := by
  refine hu.merge fun ρ hρ hvw => ?_
  obtain ⟨θ, hθ, hother⟩ := hu.free ρ hρ
  refine ⟨θ, hθ, ?_, fun x hx => hother x (binding?_of_merge hu.disjoint hx).1⟩
  rw [hother v hv, hother w hw, hvw]

/-- A bound and an unbound hole can be identified if the bound one does not depend on the other. -/
theorem Consistent.merge_bound (hu : u.Consistent) (hv : u.binding? v ≠ none)
    (hw : u.binding? w = none) (h : ¬u.Below v w) : (u.merge v w).Consistent := by
  have hapart : u.Apart w v := by
    refine ⟨fun hm => hv ?_, h⟩
    refine binding?_eq_none.2 fun p hp => binding?_eq_none.1 hw p ?_
    rwa [members_eq hu.disjoint hm]
  refine hu.merge fun ρ hρ _ => ?_
  obtain ⟨θ, hθ, he, hother⟩ := hu.exists_solution_at hw hρ (f := fun θ => θ v)
    fun θ η hagree => hagree v hapart
  refine ⟨θ, hθ, he.symm, fun x hx => ?_⟩
  obtain ⟨hx, hjoined⟩ := binding?_of_merge hu.disjoint hx
  refine hother x hx fun hm => hv (hjoined ?_).1
  exact (mem_joined hu.disjoint).2 (.inr hm)

/-! ### One step -/

/-- What terms in play have to be: `K` holds of the names of their holes. -/
structure InPlay (K : String → Prop) (Q : Term → Prop) : Prop where
  args : ∀ t, Q t → ∀ a ∈ t.args, Q a
  head : ∀ t, Q t → t.head.text = t.name
  hole : ∀ t, Q t → t.isHole = true → K t.key

/-- A consistent state over terms in play. -/
structure Ready (K : String → Prop) (Q : Term → Prop) (u : Unifier) : Prop extends u.Consistent where
  bound : ∀ v t, u.bindings.get? v = some t → K v ∧ Q t
  classes : ∀ c ∈ u.classes, ∀ v ∈ c, K v

/-- What making a condition true may give, where states have the property `I`: a state with the condition
added; failure, if no solution meets the condition; or no answer, if `S` holds. -/
def Outcome (I : Unifier → Prop) (S : Prop) (u : Unifier) (E : (String → Tree) → Prop) :
    Option (Bool × Unifier) → Prop
  | some (true, u') => I u' ∧ ∀ θ, u'.Solves θ ↔ u.Solves θ ∧ E θ
  | some (false, _) => ∀ θ, u.Solves θ → ¬E θ
  | none => S

variable {K : String → Prop} {Q : Term → Prop} {rec : Term → Term → Unifier → Option (Bool × Unifier)}

section

variable {I : Unifier → Prop} {S : Prop}

theorem Outcome.congr {E E' : (String → Tree) → Prop} {r : Option (Bool × Unifier)}
    (h : Outcome I S u E r) (hE : ∀ θ, u.Solves θ → (E θ ↔ E' θ)) : Outcome I S u E' r := by
  match r with
  | none => exact h
  | some (false, u') => exact fun θ hθ he => h θ hθ ((hE θ hθ).2 he)
  | some (true, u') => exact ⟨h.1, fun θ => (h.2 θ).trans (and_congr_right fun hθ => hE θ hθ)⟩

theorem Outcome.answered {E : (String → Tree) → Prop} {r : Option (Bool × Unifier)} (h : Outcome I S u E r)
    (hr : r.isSome) : Outcome I False u E r := by
  match r with
  | some (false, u') => exact h
  | some (true, u') => exact h

/-- Recording after success what holds already. -/
theorem Outcome.map {E : (String → Tree) → Prop} {r : Option (Bool × Unifier)} {g : Unifier → Unifier}
    (h : Outcome I S u E r)
    (hg : ∀ u', I u' → (∀ θ, u'.Solves θ → E θ) → I (g u') ∧ ∀ θ, (g u').Solves θ ↔ u'.Solves θ) :
    Outcome I S u E (r.map fun (ok, u) => if ok then (true, g u) else (false, u)) := by
  match r with
  | none => exact h
  | some (false, u') => exact h
  | some (true, u') =>
    obtain ⟨hu', hsolves⟩ := h
    obtain ⟨hI, hsame⟩ := hg u' hu' fun θ hθ => ((hsolves θ).1 hθ).2
    exact ⟨hI, fun θ => (hsame θ).trans (hsolves θ)⟩

/-- Giving a hole a term, where the states that this can lead to have the property. -/
theorem Outcome.bind (hcycle : u.wouldCycle v t.holeNames = true → ∀ θ, u.Solves θ → θ v ≠ t.eval θ)
    (hrec : ∀ old, u.binding? v = some old → Outcome I S u (fun θ => old.eval θ = t.eval θ) (rec old t u))
    (hdeps : ∀ u', I u' → (∀ θ, u'.Solves θ → θ v = t.eval θ) → I (u'.addDeps v t.holeNames))
    (hassign : u.wouldCycle v t.holeNames = false → u.binding? v = none → I (u.assign v t)) :
    Outcome I S u (fun θ => θ v = t.eval θ) (u.bind rec v t) := by
  unfold Unifier.bind
  dsimp only
  split
  · next h => exact hcycle h
  next h =>
  split
  · next old hold =>
    have hout : Outcome I S u (fun θ => θ v = t.eval θ) (rec old t u) :=
      (hrec old hold).congr fun θ hθ => by rw [hθ.eq_of_binding? hold]
    refine hout.map (g := (·.addDeps v t.holeNames)) fun u' hu' hvalue => ⟨hdeps u' hu' hvalue, fun θ => ?_⟩
    exact ⟨fun h => ⟨h.bindings, h.classes⟩, fun h => ⟨h.bindings, h.classes⟩⟩
  · next hnone =>
    refine ⟨hassign (Bool.not_eq_true _ ▸ h) hnone, fun θ => ?_⟩
    exact solves_assign (binding?_eq_none.1 hnone v (u.self_mem_members v))

theorem Outcome.unifyPairs {pairs : List (Term × Term)} (hu : I u)
    (hrec : ∀ p ∈ pairs, ∀ u, I u → Outcome I S u (fun θ => p.1.eval θ = p.2.eval θ) (rec p.1 p.2 u)) :
    Outcome I S u (fun θ => ∀ p ∈ pairs, p.1.eval θ = p.2.eval θ) (unifyPairs rec pairs u) := by
  induction pairs generalizing u with
  | nil => exact ⟨hu, fun θ => ⟨fun h => ⟨h, List.forall_mem_nil _⟩, And.left⟩⟩
  | cons p pairs ih =>
    obtain ⟨hp, hpairs⟩ := List.forall_mem_cons.1 hrec
    have hout := hp u hu
    simp only [List.forall_mem_cons]
    rw [Unifier.unifyPairs]
    rcases hr : rec p.1 p.2 u with _ | ⟨_ | _, u'⟩
    · rw [hr] at hout
      exact hout
    · rw [hr] at hout
      exact fun θ hθ he => hout θ hθ he.1
    · rw [hr] at hout
      obtain ⟨hu', hsolves⟩ := hout
      -- solutions that meet the first condition are the solutions of the state in between
      have hrest := ih hu' hpairs
      dsimp only
      rcases hr' : Unifier.unifyPairs rec pairs u' with _ | ⟨_ | _, u''⟩
      · rw [hr'] at hrest
        exact hrest
      · rw [hr'] at hrest
        exact fun θ hθ he => hrest θ ((hsolves θ).2 ⟨hθ, he.1⟩) he.2
      · rw [hr'] at hrest
        exact ⟨hrest.1, fun θ => by rw [hrest.2, hsolves, and_assoc]⟩

end

/-- How unification of terms has to be for the step around it to be right. -/
def Unifies (K : String → Prop) (Q : Term → Prop) (rec : Term → Term → Unifier → Option (Bool × Unifier)) :
    Prop :=
  ∀ s t u, u.Ready K Q → Q s → Q t →
    Outcome (Ready K Q) True u (fun θ => s.eval θ = t.eval θ) (rec s t u)

theorem Ready.assign (hu : u.Ready K Q) (hv : u.binding? v = none) (hn : t.isHole = false)
    (hapart : ∀ w ∈ t.holeNames, u.Apart v w) (hK : K v) (hQ : Q t) : (u.assign v t).Ready K Q where
  toConsistent := hu.toConsistent.assign hv hn hapart
  bound p s hp := by
    rw [get?_assign] at hp
    split at hp
    · next h =>
      cases hp
      exact ⟨h ▸ hK, hQ⟩
    · exact hu.bound p s hp
  classes := hu.classes

theorem Ready.merge (hu : u.Ready K Q) (h : (u.merge v w).Consistent) (hv : K v) (hw : K w) :
    (u.merge v w).Ready K Q where
  toConsistent := h
  bound := hu.bound
  classes c hc x hx := by
    have hmembers : ∀ y, K y → x ∈ u.members y → K x := by
      intro y hy hx
      rcases (mem_members_iff hu.disjoint).1 hx with rfl | ⟨c, hc, -, hx⟩
      · exact hy
      · exact hu.classes c hc x hx
    rcases mem_classes_merge.1 hc with ⟨hc, -⟩ | rfl
    · exact hu.classes c hc x hx
    · exact ((mem_joined hu.disjoint).1 hx).elim (hmembers v hv) (hmembers w hw)

theorem solves_empty (θ : String → Tree) : ({} : Unifier).Solves θ := by
  refine ⟨nofun, fun v w hw => ?_⟩
  rw [List.mem_singleton.1 (NameSet.mem_ofList.1 hw)]

theorem ready_empty (K : String → Prop) (Q : Term → Prop) : ({} : Unifier).Ready K Q where
  disjoint := .nil
  notHole := nofun
  deps := nofun
  size _ _ _ _ hw := absurd hw List.not_mem_nil
  free ρ _ := ⟨ρ, solves_empty ρ, fun _ _ => rfl⟩
  bound := nofun
  classes := nofun

theorem wouldCycle_eq_false (hu : u.Disjoint) {ws : NameSet} (h : u.wouldCycle v ws = false) :
    ∀ w ∈ ws, u.Apart v w := by
  intro w hw
  have hw := List.any_eq_false.1 h w hw
  rw [Bool.or_eq_true, not_or, sameClass_iff, depends_iff] at hw
  exact ⟨fun hm => hw.1 (mem_members_symm hu hm), hw.2⟩

/-- A hole cannot have the value of a term that holds it, or holds a hole that depends on it. -/
theorem ne_of_wouldCycle (hu : u.Consistent) (hn : t.isHole = false)
    (h : u.wouldCycle v t.holeNames = true) (hθ : u.Solves θ) : θ v ≠ t.eval θ := by
  intro he
  obtain ⟨w, hw, hvw⟩ := List.any_eq_true.1 h
  have hlt := Term.size_lt_of_mem_holeNames hw hn θ
  rw [← he] at hlt
  rcases Bool.or_eq_true_iff.1 hvw with hvw | hvw
  · rw [hθ.classes v w (sameClass_iff.1 hvw)] at hlt
    omega
  · have := hu.size_of_below hθ (depends_iff.1 hvw)
    omega

theorem outcome_bind (hrec : Unifies K Q rec) (hu : u.Ready K Q) (hK : K v) (hQ : Q t)
    (hn : t.isHole = false) : Outcome (Ready K Q) True u (fun θ => θ v = t.eval θ) (u.bind rec v t) := by
  refine .bind (fun hcycle θ hθ => ne_of_wouldCycle hu.toConsistent hn hcycle hθ) (fun old hold => ?_)
    (fun u' hu' hvalue => ?_) fun hcycle hnone => ?_
  · obtain ⟨p, hp, hget⟩ := exists_get?_of_binding? hold
    exact hrec old t u hu (hu.bound p old hget).2 hQ
  · refine ⟨hu'.toConsistent.addDeps fun θ hθ w hw => ?_, hu'.bound, hu'.classes⟩
    rw [hvalue θ hθ]
    exact Term.size_lt_of_mem_holeNames hw hn θ
  · exact hu.assign hnone hn (wouldCycle_eq_false hu.disjoint hcycle) hK hQ

theorem outcome_identify (hrec : Unifies K Q rec) (hu : u.Ready K Q) (hv : K v) (hw : K w) :
    Outcome (Ready K Q) True u (fun θ => θ v = θ w) (u.identify rec v w) := by
  unfold identify
  split
  · next he =>
    subst he
    exact ⟨hu, fun θ => ⟨fun h => ⟨h, rfl⟩, And.left⟩⟩
  split
  · next hdep =>
    intro θ hθ he
    rcases Bool.or_eq_true_iff.1 hdep with hdep | hdep
    · have := hu.size_of_below hθ (depends_iff.1 hdep)
      rw [he] at this
      omega
    · have := hu.size_of_below hθ (depends_iff.1 hdep)
      rw [he] at this
      omega
  next hdep =>
  simp only [Bool.or_eq_true, depends_iff, not_or] at hdep
  -- the state that merging gives, if it is consistent
  have hmerge : (u.merge v w).Consistent →
      Outcome (Ready K Q) True u (fun θ => θ v = θ w) (some (true, u.merge v w)) := fun h =>
    ⟨hu.merge h hv hw, fun θ => solves_merge hu.disjoint⟩
  cases hbv : u.binding? v with
  | none =>
    cases hbw : u.binding? w with
    | none => exact hmerge (hu.merge_unbound hbv hbw)
    | some t =>
      refine hmerge ?_
      rw [merge_comm]
      exact hu.merge_bound (by simp [hbw]) hbv hdep.2
  | some s =>
    cases hbw : u.binding? w with
    | none => exact hmerge (hu.merge_bound (by simp [hbv]) hbw hdep.1)
    | some t =>
      obtain ⟨p, -, hs⟩ := exists_get?_of_binding? hbv
      obtain ⟨q, -, ht⟩ := exists_get?_of_binding? hbw
      have hout : Outcome (Ready K Q) True u (fun θ => θ v = θ w) (rec s t u) :=
        (hrec s t u hu (hu.bound p s hs).2 (hu.bound q t ht).2).congr fun θ hθ => by
          rw [hθ.eq_of_binding? hbv, hθ.eq_of_binding? hbw]
      refine hout.map fun u' hu' hequal => ⟨hu'.merge (hu'.merge_of_eq hequal) hv hw, fun θ => ?_⟩
      rw [solves_merge hu'.disjoint]
      exact ⟨And.left, fun h => ⟨h, hequal θ h⟩⟩

/-- Terms that are no holes have the same value if they have the same name and as many arguments, with
the same values in pairs. -/
theorem eval_eq_iff (hQ : InPlay K Q) {s t : Term} (hs : Q s) (ht : Q t) (hns : s.isHole = false)
    (hnt : t.isHole = false) : s.eval θ = t.eval θ ↔
      (s.head.text = t.head.text ∧ s.args.length = t.args.length) ∧
        ∀ p ∈ s.args.zip t.args, p.1.eval θ = p.2.eval θ := by
  rw [Term.eval_of_not_isHole hns, Term.eval_of_not_isHole hnt, hQ.head s hs, hQ.head t ht,
    Tree.node.injEq, and_assoc]
  refine and_congr_right fun _ => ?_
  generalize s.args = as
  generalize t.args = bs
  induction as generalizing bs with
  | nil => cases bs <;> simp
  | cons a as ih =>
    cases bs with
    | nil => simp
    | cons b bs =>
      simp only [List.map_cons, List.cons.injEq, List.length_cons, Nat.add_right_cancel_iff,
        List.zip_cons_cons, List.forall_mem_cons, ih bs]
      exact and_left_comm

theorem unifies_unifyWithin (hQ : InPlay K Q) (n : Nat) : Unifies K Q (unifyWithin n) := by
  induction n with
  | zero => exact fun _ _ _ _ _ _ => trivial
  | succ n ih =>
    intro s t u hu hs ht
    rw [unifyWithin]
    cases hhs : s.isHole with
    | true =>
      simp only [Term.eval_of_isHole hhs]
      cases hht : t.isHole with
      | true =>
        simp only [Term.eval_of_isHole hht]
        exact outcome_identify ih hu (hQ.hole s hs hhs) (hQ.hole t ht hht)
      | false => exact outcome_bind ih hu (hQ.hole s hs hhs) ht hht
    | false =>
      cases hht : t.isHole with
      | true =>
        simp only [Term.eval_of_isHole hht, eq_comm (a := s.eval _)]
        exact outcome_bind ih hu (hQ.hole t ht hht) hs hhs
      | false =>
        simp only [eval_eq_iff hQ hs ht hhs hht]
        split
        · next hhead =>
          simp only [hhead, true_and, and_self]
          refine .unifyPairs hu fun p hp u hu => ?_
          obtain ⟨ha, hb⟩ := List.of_mem_zip hp
          exact ih p.1 p.2 u hu (hQ.args s hs _ ha) (hQ.args t ht _ hb)
        · next hhead => exact fun θ _ he => hhead he.1

end Unifier

end Sequitur
