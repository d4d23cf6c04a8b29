import Sequitur.Proofs.Unification

/-!
# Calls of the unifier

A call that does not succeed either fails on the spot, with the state it was given, or passes on what
a call inside it gave (`exists_call`). The state of the inner call is consistent, and its solutions are
solutions of the outer state for which the inner terms have smaller values. So a call leaves a
consistent state also if it fails (`ready_of_unifyWithin`), and a chain of calls is no longer than there are
sizes of values to go through, under a solution of its last state: no call runs out of depth
(`isSome_unifyWithin_depthBound`). What unification gives is therefore what its steps give
(`outcome_unify`).
-/

namespace Sequitur

namespace Unifier

variable {u u' : Unifier} {v w : String} {s t : Term} {n : Nat}
variable {rec : Term → Term → Unifier → Option (Bool × Unifier)}

/-! ### Calls inside a call -/

/-- Recording something after success changes no other answer. -/
theorem map_success_cases (r : Option (Bool × Unifier)) (g : Unifier → Unifier) :
    (∃ u', (r.map fun a => if a.1 then (true, g a.2) else (false, a.2)) = some (true, u')) ∨
      (r.map fun a => if a.1 then (true, g a.2) else (false, a.2)) = r := by
  cases r with
  | none => exact .inr rfl
  | some a =>
    obtain ⟨ok, u⟩ := a
    cases ok with
    | false => exact .inr rfl
    | true => exact .inl ⟨g u, rfl⟩

/-- What binding a hole gives: success, failure on the spot, or what a call on its old term gave. -/
theorem bind_cases {r : Option (Bool × Unifier)} (h : u.bind rec v t = r) :
    (∃ u', r = some (true, u')) ∨ r = some (false, u) ∨
      ∃ old, u.binding? v = some old ∧ rec old t u = r := by
  unfold bind at h
  dsimp only at h
  split at h
  · exact .inr (.inl h.symm)
  cases hold : u.binding? v with
  | none =>
    rw [hold] at h
    exact .inl ⟨_, h.symm⟩
  | some old =>
    rw [hold] at h
    rcases map_success_cases (rec old t u) (·.addDeps v t.holeNames) with ⟨u', hu'⟩ | hsame
    · exact .inl ⟨u', h.symm.trans hu'⟩
    · exact .inr (.inr ⟨old, rfl, hsame.symm.trans h⟩)

theorem identify_cases {r : Option (Bool × Unifier)} (h : u.identify rec v w = r) :
    (∃ u', r = some (true, u')) ∨ r = some (false, u) ∨
      ∃ s t, u.binding? v = some s ∧ u.binding? w = some t ∧ rec s t u = r := by
  unfold identify at h
  split at h
  · exact .inl ⟨_, h.symm⟩
  split at h
  · exact .inr (.inl h.symm)
  cases hs : u.binding? v with
  | none =>
    rw [hs] at h
    exact .inl ⟨_, h.symm⟩
  | some s =>
    cases ht : u.binding? w with
    | none =>
      rw [hs, ht] at h
      exact .inl ⟨_, h.symm⟩
    | some t =>
      rw [hs, ht] at h
      rcases map_success_cases (rec s t u) (·.merge v w) with ⟨u', hu'⟩ | hsame
      · exact .inl ⟨u', h.symm.trans hu'⟩
      · exact .inr (.inr ⟨s, t, rfl, rfl, hsame.symm.trans h⟩)

variable {K : String → Prop} {Q : Term → Prop} {P : List Term} {θ : String → Tree}

/-- Pairs succeed, or the first that does not gives the answer; the state it starts from holds all that
the pairs before it added. -/
theorem unifyPairs_cases (hrec : Unifies K Q rec) {pairs : List (Term × Term)}
    (hpairs : ∀ p ∈ pairs, Q p.1 ∧ Q p.2) (hu : u.Ready K Q) {r : Option (Bool × Unifier)}
    (h : unifyPairs rec pairs u = r) :
    (∃ u', r = some (true, u')) ∨ ∃ p ∈ pairs, ∃ u', u'.Ready K Q ∧ (∀ θ, u'.Solves θ → u.Solves θ) ∧
      rec p.1 p.2 u' = r := by
  induction pairs generalizing u with
  | nil => exact .inl ⟨u, h.symm⟩
  | cons p pairs ih =>
    obtain ⟨hp, hpairs⟩ := List.forall_mem_cons.1 hpairs
    have hout := hrec p.1 p.2 u hu hp.1 hp.2
    rw [unifyPairs] at h
    cases hr : rec p.1 p.2 u with
    | none =>
      rw [hr] at h
      exact .inr ⟨p, List.mem_cons_self .., u, hu, fun θ hθ => hθ, hr.trans h⟩
    | some a =>
      obtain ⟨ok, u'⟩ := a
      rw [hr] at h hout
      cases ok with
      | false => exact .inr ⟨p, List.mem_cons_self .., u, hu, fun θ hθ => hθ, hr.trans h⟩
      | true =>
        obtain ⟨hu', hsolves⟩ := hout
        rcases ih hpairs hu' h with hsuccess | ⟨q, hq, u'', hu'', hsub, hr⟩
        · exact .inl hsuccess
        · exact .inr ⟨q, List.mem_cons_of_mem _ hq, u'', hu'', fun θ hθ => ((hsolves θ).1 (hsub θ hθ)).1, hr⟩

/-- How many terms of a list have smaller values. -/
def level (P : List Term) (θ : String → Tree) (n : Nat) : Nat :=
  P.countP fun t => decide ((t.eval θ).size < n)

theorem level_lt {P : List Term} {a : Term} (ha : a ∈ P) {n : Nat} (h : (a.eval θ).size < n) :
    level P θ (a.eval θ).size < level P θ n := by
  refine countP_lt_countP ha (fun b _ hb => ?_) (decide_eq_true h) (by simp)
  simp only [decide_eq_true_eq] at hb ⊢
  omega

/-- How many calls can be inside one another, under a solution: sizes of values to go through, and one
more where a hole has to be replaced by its term first. -/
def cost (P : List Term) (θ : String → Tree) (s t : Term) : Nat :=
  level P θ (s.eval θ).size + level P θ (t.eval θ).size + if s.isHole || t.isHole then 1 else 0

/-- A call on `s'`, `t'` and `u'` inside one on `s`, `t` and `u`. -/
structure Inner (K : String → Prop) (Q : Term → Prop) (P : List Term) (s t : Term) (u : Unifier)
    (s' t' : Term) (u' : Unifier) : Prop where
  ready : u'.Ready K Q
  left : Q s'
  right : Q t'
  solves : ∀ θ, u'.Solves θ → u.Solves θ
  cost_lt : ∀ θ, u'.Solves θ → cost P θ s' t' < cost P θ s t

/-- Terms that holes stand for have the values of the holes. -/
theorem cost_lt_of_eval_eq {s' t' : Term} (hhole : s.isHole = true ∨ t.isHole = true)
    (hs' : s'.isHole = false) (ht' : t'.isHole = false)
    (he : s'.eval θ = s.eval θ ∧ t'.eval θ = t.eval θ ∨ s'.eval θ = t.eval θ ∧ t'.eval θ = s.eval θ) :
    cost P θ s' t' < cost P θ s t := by
  unfold cost
  rw [if_pos (Bool.or_eq_true_iff.2 hhole), hs', ht']
  rcases he with ⟨hs, ht⟩ | ⟨hs, ht⟩
  · rw [hs, ht]
    exact Nat.lt_succ_self _
  · rw [hs, ht]
    simp only [Bool.or_self, Bool.false_eq_true, if_false]
    omega

/-- Arguments have smaller values. -/
theorem cost_lt_of_mem_args (hP : ∀ x, Q x → x ∈ P) (hs : s.isHole = false) (ht : t.isHole = false)
    {a b : Term} (ha : a ∈ s.args) (hb : b ∈ t.args) (hQa : Q a) (hQb : Q b) :
    cost P θ a b < cost P θ s t := by
  have hsize : ∀ {x c : Term}, x.isHole = false → c ∈ x.args → (c.eval θ).size < (x.eval θ).size := by
    intro x c hx hc
    rw [Term.eval_of_not_isHole hx]
    exact Tree.size_lt_of_mem (List.mem_map_of_mem hc)
  have hleft := level_lt (hP a hQa) (hsize hs ha)
  have hright := level_lt (hP b hQb) (hsize ht hb)
  unfold cost
  rw [hs, ht]
  split <;> simp only [Bool.or_self, Bool.false_eq_true, if_false] <;> omega

/-- What a call gives: success, failure on the spot, or what a call inside it gave. -/
theorem exists_call (hQ : InPlay K Q) (hP : ∀ x, Q x → x ∈ P) (hu : u.Ready K Q) (hs : Q s) (ht : Q t)
    {r : Option (Bool × Unifier)} (h : unifyWithin (n + 1) s t u = r) :
    (∃ u', r = some (true, u')) ∨ r = some (false, u) ∨
      ∃ s' t' u', Inner K Q P s t u s' t' u' ∧ unifyWithin n s' t' u' = r := by
  -- terms that holes are bound to are in play and have the values of the holes
  have hbound : ∀ {v a}, u.binding? v = some a →
      Q a ∧ a.isHole = false ∧ ∀ θ, u.Solves θ → a.eval θ = θ v := by
    intro v a ha
    obtain ⟨p, -, hp⟩ := exists_get?_of_binding? ha
    exact ⟨(hu.bound p a hp).2, hu.notHole p a hp, fun θ hθ => (hθ.eq_of_binding? ha).symm⟩
  rw [unifyWithin] at h
  cases hhs : s.isHole with
  | true =>
    rw [hhs] at h
    cases hht : t.isHole with
    | true =>
      rw [hht] at h
      refine (identify_cases h).imp_right (Or.imp_right ?_)
      rintro ⟨a, b, ha, hb, hr⟩
      obtain ⟨hQa, hna, hae⟩ := hbound ha
      obtain ⟨hQb, hnb, hbe⟩ := hbound hb
      refine ⟨a, b, u, ⟨hu, hQa, hQb, fun θ hθ => hθ, fun θ hθ => ?_⟩, hr⟩
      refine cost_lt_of_eval_eq (.inl hhs) hna hnb (.inl ⟨?_, ?_⟩)
      · rw [hae θ hθ, Term.eval_of_isHole hhs]
      · rw [hbe θ hθ, Term.eval_of_isHole hht]
    | false =>
      rw [hht] at h
      refine (bind_cases h).imp_right (Or.imp_right ?_)
      rintro ⟨a, ha, hr⟩
      obtain ⟨hQa, hna, hae⟩ := hbound ha
      refine ⟨a, t, u, ⟨hu, hQa, ht, fun θ hθ => hθ, fun θ hθ => ?_⟩, hr⟩
      refine cost_lt_of_eval_eq (.inl hhs) hna hht (.inl ⟨?_, rfl⟩)
      rw [hae θ hθ, Term.eval_of_isHole hhs]
  | false =>
    rw [hhs] at h
    cases hht : t.isHole with
    | true =>
      rw [hht] at h
      refine (bind_cases h).imp_right (Or.imp_right ?_)
      rintro ⟨a, ha, hr⟩
      obtain ⟨hQa, hna, hae⟩ := hbound ha
      refine ⟨a, s, u, ⟨hu, hQa, hs, fun θ hθ => hθ, fun θ hθ => ?_⟩, hr⟩
      refine cost_lt_of_eval_eq (.inr hht) hna hhs (.inr ⟨?_, rfl⟩)
      rw [hae θ hθ, Term.eval_of_isHole hht]
    | false =>
      rw [hht] at h
      dsimp only at h
      split at h
      · have hzip : ∀ p ∈ s.args.zip t.args, Q p.1 ∧ Q p.2 := fun p hp =>
          ⟨hQ.args s hs _ (List.of_mem_zip hp).1, hQ.args t ht _ (List.of_mem_zip hp).2⟩
        refine (unifyPairs_cases (unifies_unifyWithin hQ n) hzip hu h).imp_right fun hinner => .inr ?_
        obtain ⟨p, hp, u', hu', hsub, hr⟩ := hinner
        obtain ⟨ha, hb⟩ := List.of_mem_zip hp
        refine ⟨p.1, p.2, u', ⟨hu', (hzip p hp).1, (hzip p hp).2, hsub, fun θ _ => ?_⟩, hr⟩
        exact cost_lt_of_mem_args hP hhs hht ha hb (hzip p hp).1 (hzip p hp).2
      · exact .inr (.inl h.symm)

/-- A call leaves a consistent state behind, also if it fails. -/
theorem ready_of_unifyWithin (hQ : InPlay K Q) (hP : ∀ x, Q x → x ∈ P) (hu : u.Ready K Q) (hs : Q s)
    (ht : Q t) {ok : Bool} (h : unifyWithin n s t u = some (ok, u')) : u'.Ready K Q := by
  induction n generalizing s t u with
  | zero => exact absurd h nofun
  | succ n ih =>
    rcases exists_call hQ hP hu hs ht h with ⟨u'', hr⟩ | hr | ⟨a, b, u'', hinner, hr⟩
    · have hout := unifies_unifyWithin hQ (n + 1) s t u hu hs ht
      rw [h, hr] at hout
      cases hr
      exact hout.1
    · cases hr
      exact hu
    · exact ih hinner.ready hinner.left hinner.right hr

/-- A call that is stopped had a long way to go, under some solution of the state it started from. -/
theorem exists_solution_of_stopped (hQ : InPlay K Q) (hP : ∀ x, Q x → x ∈ P) (hu : u.Ready K Q) (hs : Q s)
    (ht : Q t) (h : unifyWithin n s t u = none) : ∃ θ, u.Solves θ ∧ n ≤ cost P θ s t := by
  induction n generalizing s t u with
  | zero =>
    obtain ⟨θ, hθ, -⟩ := hu.free (fun _ => .node "" []) fun _ _ _ => rfl
    exact ⟨θ, hθ, Nat.zero_le _⟩
  | succ n ih =>
    rcases exists_call hQ hP hu hs ht h with ⟨u'', hr⟩ | hr | ⟨a, b, u'', hinner, hr⟩
    · exact absurd hr nofun
    · exact absurd hr nofun
    · obtain ⟨θ, hθ, hle⟩ := ih hinner.ready hinner.left hinner.right hr
      have hlt := hinner.cost_lt θ hθ
      exact ⟨θ, hinner.solves θ hθ, by omega⟩

/-! ### Depth -/

theorem Ready.mono {Q' : Term → Prop} (h : u.Ready K Q) (hQ : ∀ t, Q t → Q' t) : u.Ready K Q' where
  toConsistent := h.toConsistent
  bound v t ht := ⟨(h.bound v t ht).1, hQ t (h.bound v t ht).2⟩
  classes := h.classes

/-- The subterms of two terms and of those that holes are bound to. -/
def pool (u : Unifier) (s t : Term) : List Term := Term.subtermsAll (s :: t :: u.bindings.values)

theorem length_pool_le (s t : Term) : (u.pool s t).length ≤ u.weight s t := by
  rw [pool, Term.length_subtermsAll, Term.sizes, Term.sizes, weight]
  omega

theorem two_mul_add_two_le_depthBound (s t : Term) : 2 * u.weight s t + 2 ≤ u.depthBound s t := by
  have hpos : 1 ≤ u.weight s t := by
    have := s.size_pos
    rw [weight]
    omega
  rw [depthBound]
  generalize u.weight s t = w at hpos
  show 2 * w + 2 ≤ (w + 1) ^ 4
  calc 2 * w + 2 = (w + 1) * 2 := by omega
    _ ≤ (w + 1) * (w + 1) ^ 3 := Nat.mul_le_mul_left _ ?_
    _ = (w + 1) ^ 4 := by rw [Nat.pow_succ (w + 1) 3, Nat.mul_comm]
  calc 2 ≤ (1 + 1) ^ 3 := by decide
    _ ≤ (w + 1) ^ 3 := Nat.pow_le_pow_left (by omega) 3

theorem mem_pool {s x : Term} (h : x ∈ s :: t :: u.bindings.values) : x ∈ u.pool s t := by
  rw [pool, Term.subtermsAll_eq_flatMap]
  exact List.mem_flatMap.2 ⟨x, h, x.self_mem_subterms⟩

/-- The arguments of terms of the pool are in it. -/
theorem InPlay.pool (hQ : InPlay K Q) (u : Unifier) (s t : Term) :
    InPlay K fun x => x ∈ u.pool s t ∧ Q x := by
  refine ⟨fun x hx a ha => ⟨?_, hQ.args x hx.2 a ha⟩, fun x hx => hQ.head x hx.2, fun x hx => hQ.hole x hx.2⟩
  have hmem := hx.1
  rw [Unifier.pool, Term.subtermsAll_eq_flatMap] at hmem ⊢
  obtain ⟨y, hy, hmem⟩ := List.mem_flatMap.1 hmem
  exact List.mem_flatMap.2 ⟨y, hy, Term.args_subset_subterms hmem ha⟩

theorem Ready.pool (hu : u.Ready K Q) (s t : Term) : u.Ready K fun x => x ∈ u.pool s t ∧ Q x := by
  refine ⟨hu.toConsistent, fun v x hx => ⟨(hu.bound v x hx).1, mem_pool ?_, (hu.bound v x hx).2⟩, hu.classes⟩
  have hvalue : x ∈ u.bindings.values := List.mem_map.2 ⟨(v, x), NameMap.mem_toList.2 hx, rfl⟩
  simp [hvalue]

/-- A depth of twice the number of subterms in play is enough. -/
theorem isSome_unifyWithin (hQ : InPlay K Q) (hu : u.Ready K Q) (hs : Q s) (ht : Q t)
    (hn : 2 * (u.pool s t).length + 2 ≤ n) : (unifyWithin n s t u).isSome := by
  refine Option.ne_none_iff_isSome.1 fun hnone => ?_
  obtain ⟨θ, -, hle⟩ := exists_solution_of_stopped (hQ.pool u s t) (fun x hx => hx.1) (hu.pool s t)
    ⟨mem_pool (by simp), hs⟩ ⟨mem_pool (by simp), ht⟩ hnone
  have hlevel : ∀ m, level (u.pool s t) θ m ≤ (u.pool s t).length := fun m => List.countP_le_length
  have hleft := hlevel (s.eval θ).size
  have hright := hlevel (t.eval θ).size
  unfold cost at hle
  split at hle <;> omega

theorem isSome_unifyWithin_depthBound (hQ : InPlay K Q) (hu : u.Ready K Q) (hs : Q s) (ht : Q t) :
    (unifyWithin (u.depthBound s t) s t u).isSome := by
  refine isSome_unifyWithin hQ hu hs ht ?_
  have hpool := length_pool_le (u := u) s t
  have hdepth := u.two_mul_add_two_le_depthBound s t
  omega

/-- Unification adds the condition that two terms have the same value, or fails if that is impossible. -/
theorem outcome_unify (hQ : InPlay K Q) (hu : u.Ready K Q) {s t : Term} (hs : Q s) (ht : Q t) :
    Outcome (Ready K Q) False u (fun θ => s.eval θ = t.eval θ) (some (u.unify s t)) := by
  have hsome := isSome_unifyWithin_depthBound hQ hu hs ht
  have hout := (unifies_unifyWithin hQ (u.depthBound s t) s t u hu hs ht).answered hsome
  obtain ⟨r, hr⟩ := Option.isSome_iff_exists.1 hsome
  rw [hr] at hout
  rwa [unify, hr]

/-- The state after a call is consistent, whatever its answer. -/
theorem ready_unify (hQ : InPlay K Q) (hu : u.Ready K Q) (hs : Q s) (ht : Q t) :
    (u.unify s t).2.Ready K Q := by
  obtain ⟨r, hr⟩ := Option.isSome_iff_exists.1 (isSome_unifyWithin_depthBound hQ hu hs ht)
  rw [unify, hr]
  have hready := ready_of_unifyWithin (hQ.pool u s t) (fun x hx => hx.1) (hu.pool s t)
    ⟨mem_pool (by simp), hs⟩ ⟨mem_pool (by simp), ht⟩ hr
  exact hready.mono fun x hx => hx.2

end Unifier

end Sequitur
