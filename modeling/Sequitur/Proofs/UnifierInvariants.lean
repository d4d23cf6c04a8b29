import Sequitur.Proofs.MostGeneral

/-!
# What unification keeps

Unification binds names of holes to terms, identifies such names, and goes on with the terms under two
heads that agree. If it is known which names may be bound to which terms, which names may be identified and
which terms may be unified, and if each of these leads to the others as in `Unifier.Discipline`, then all
that is found from a pair that may be unified is a binding that may be made (`Term.keeps_unify`).
-/

namespace Sequitur

variable {B : String → Term → Prop} {S : String → String → Prop} {C : Term → Term → Prop} {σ : Subst}
  {s t : Term}

/-- Only what may be bound is bound. -/
def Subst.Obeys (B : String → Term → Prop) (σ : Subst) : Prop := ∀ v t, σ.get? v = some t → B v t

namespace Unifier

variable {u u' : Unifier} {v w : String} {rec : Term → Term → Unifier → Option (Bool × Unifier)}

/-- `B` says what may be bound, `S` which names may be identified, and `C` which terms may be unified. -/
structure Discipline (B : String → Term → Prop) (S : String → String → Prop) (C : Term → Term → Prop) :
    Prop where
  symm : ∀ {v w}, S v w → S w v
  trans : ∀ {v w x}, S v w → S w x → S v x
  move : ∀ {v w t}, S v w → B v t → B w t
  /-- Terms for one name may be unified. -/
  compare : ∀ {v s t}, B v s → B v t → C s t
  swap : ∀ {s t}, C s t → C t s
  bind : ∀ {s t}, C s t → s.isHole = true → B s.key t
  identify : ∀ {s t}, C s t → s.isHole = true → t.isHole = true → S s.key t.key
  args : ∀ {s t}, C s t → s.head.text = t.head.text → ∀ p ∈ s.args.zip t.args, C p.1 p.2
  /-- The holes in terms that may be unified may be bound to themselves. -/
  holes : ∀ {s t}, C s t → ∀ h ∈ s.holes, B h.key h
  subst : ∀ {σ : Subst} {v t}, σ.Obeys B → B v t → B v (t.subst σ)

/-! ### States -/

/-- Only what may be bound is bound, and only what may be identified is identified. -/
structure Keeps (B : String → Term → Prop) (S : String → String → Prop) (u : Unifier) : Prop where
  bindings : u.bindings.Obeys B
  classes : ∀ c ∈ u.classes, ∀ v ∈ c, ∀ w ∈ c, S v w

namespace Keeps

theorem members (h : u.Keeps B S) (hw : w ∈ u.members v) : w = v ∨ S w v := by
  unfold Unifier.members at hw
  cases hc : u.classes.find? (·.contains v) with
  | none =>
    rw [hc, Option.getD_none] at hw
    exact .inl (List.mem_singleton.1 (NameSet.mem_ofList.1 hw))
  | some c =>
    rw [hc, Option.getD_some] at hw
    have hv : v ∈ c := by simpa using List.find?_some hc
    exact .inr (h.classes c (List.mem_of_find?_eq_some hc) w hw v hv)

theorem of_binding? (hD : Discipline B S C) (h : u.Keeps B S) (hb : u.binding? v = some t) : B v t := by
  obtain ⟨p, hp, ht⟩ := exists_get?_of_binding? hb
  have hB := h.bindings p t ht
  rcases h.members hp with rfl | hS
  · exact hB
  · exact hD.move hS hB

theorem assign (h : u.Keeps B S) (hB : B v t) : (u.assign v t).Keeps B S where
  bindings p r hr := by
    rw [get?_assign] at hr
    split at hr
    · next hp =>
      cases hr
      exact hp ▸ hB
    · exact h.bindings p r hr
  classes := h.classes

theorem merge (hD : Discipline B S C) (h : u.Keeps B S) (hvw : S v w) : (u.merge v w).Keeps B S where
  bindings := h.bindings
  classes c hc := by
    rcases mem_classes_merge.1 hc with ⟨hc, -⟩ | rfl
    · exact h.classes c hc
    · -- all that is joined may be identified with `v`
      have hjoined : ∀ x ∈ u.joined v w, S x v := by
        intro x hx
        rw [joined, mem_foldl_union, NameSet.mem_ofList] at hx
        rcases hx with hx | ⟨c, hc, hx⟩
        · rcases List.mem_pair.1 hx with rfl | rfl
          · exact hD.trans hvw (hD.symm hvw)
          · exact hD.symm hvw
        · obtain ⟨hc, htouch⟩ := List.mem_filter.1 hc
          rw [Bool.or_eq_true, NameSet.contains_iff, NameSet.contains_iff] at htouch
          rcases htouch with hv | hw
          · exact h.classes c hc x hx v hv
          · exact hD.trans (h.classes c hc x hx w hw) (hD.symm hvw)
      exact fun x hx y hy => hD.trans (hjoined x hx) (hD.symm (hjoined y hy))

end Keeps

/-! ### One step -/

/-- Success on terms that may be unified keeps a state within the discipline. -/
def KeepsWithin (B : String → Term → Prop) (S : String → String → Prop) (C : Term → Term → Prop)
    (rec : Term → Term → Unifier → Option (Bool × Unifier)) : Prop :=
  ∀ s t u u', u.Keeps B S → C s t → rec s t u = some (true, u') → u'.Keeps B S

/-- What is recorded after success. -/
theorem holds_of_map {P : Unifier → Prop} {r : Option (Bool × Unifier)} {g : Unifier → Unifier}
    (hr : ∀ x, r = some (true, x) → P (g x))
    (h : (r.map fun a => if a.1 then (true, g a.2) else (false, a.2)) = some (true, u')) : P u' := by
  obtain ⟨⟨ok, x⟩, hx, he⟩ := Option.map_eq_some_iff.1 h
  cases ok with
  | false => cases he
  | true =>
    cases he
    exact hr x hx

theorem keeps_bind (hD : Discipline B S C) (hrec : KeepsWithin B S C rec) (hu : u.Keeps B S) (hB : B v t)
    (h : u.bind rec v t = some (true, u')) : u'.Keeps B S := by
  unfold bind at h
  dsimp only at h
  split at h
  · cases h
  · split at h
    · next old hold =>
      refine holds_of_map (g := fun x => x.addDeps v t.holeNames) (fun x hx => ?_) h
      have hx := hrec old t u x hu (hD.compare (hu.of_binding? hD hold) hB) hx
      exact ⟨hx.bindings, hx.classes⟩
    · cases h
      exact hu.assign hB

theorem keeps_identify (hD : Discipline B S C) (hrec : KeepsWithin B S C rec) (hu : u.Keeps B S)
    (hvw : S v w) (h : u.identify rec v w = some (true, u')) : u'.Keeps B S := by
  unfold identify at h
  split at h
  · cases h
    exact hu
  · split at h
    · cases h
    · split at h
      · next s t hs ht =>
        have hsame := hD.move (hD.symm hvw) (hu.of_binding? hD ht)
        refine holds_of_map (g := fun x => x.merge v w) (fun x hx => ?_) h
        exact (hrec s t u x hu (hD.compare (hu.of_binding? hD hs) hsame) hx).merge hD hvw
      · cases h
        exact hu.merge hD hvw

theorem keeps_unifyPairs (hrec : KeepsWithin B S C rec) (hu : u.Keeps B S) {pairs : List (Term × Term)}
    (hpairs : ∀ p ∈ pairs, C p.1 p.2) (h : unifyPairs rec pairs u = some (true, u')) : u'.Keeps B S := by
  induction pairs generalizing u with
  | nil =>
    cases h
    exact hu
  | cons p pairs ih =>
    obtain ⟨hp, hpairs⟩ := List.forall_mem_cons.1 hpairs
    rw [unifyPairs] at h
    split at h
    · next x hx => exact ih (hrec p.1 p.2 u x hu hp hx) hpairs h
    · next hx => exact absurd h (hx u')

theorem keeps_unifyWithin (hD : Discipline B S C) (n : Nat) : KeepsWithin B S C (unifyWithin n) := by
  induction n with
  | zero =>
    intro s t u u' _ _ h
    cases h
  | succ n ih =>
    intro s t u u' hu hC h
    rw [unifyWithin] at h
    cases hs : s.isHole <;> cases ht : t.isHole <;> rw [hs, ht] at h <;> dsimp only at h
    · split at h
      · next heq => exact keeps_unifyPairs ih hu (hD.args hC heq.1) h
      · cases h
    · exact keeps_bind hD ih hu (hD.bind (hD.swap hC) ht) h
    · exact keeps_bind hD ih hu (hD.bind hC hs) h
    · exact keeps_identify hD ih hu (hD.identify hC hs ht) h

/-! ### Results -/

variable {node? : String → Option Term}

theorem keeps_closeClass (hD : Discipline B S C) {c : NameSet} (hσ : σ.Obeys B)
    (hc : ∀ v ∈ c, ∀ w ∈ c, S v w) (hnode : ∀ v t, node? v = some t → B v t) :
    (closeClass node? σ c).Obeys B := by
  intro v t ht
  rw [get?_closeClass] at ht
  split at ht
  · next hv =>
    rcases Option.or_eq_some_iff.1 ht with ht | ⟨-, ht⟩
    · obtain ⟨p, hp, ht⟩ := List.exists_of_findSome?_eq_some ht
      exact hD.move (hc p hp v hv) (hσ p t ht)
    · obtain ⟨r, hr, ht⟩ := Option.bind_eq_some_iff.1 (Option.filter_eq_some_iff.1 ht).1
      exact hD.move (hc r (List.mem_of_head? hr) v hv) (hnode r t ht)
  · exact hσ v t ht

theorem keeps_resolveWithin (hD : Discipline B S C) (hσ : σ.Obeys B) (n : Nat) :
    (resolveWithin n σ).Obeys B := by
  induction n generalizing σ with
  | zero => exact hσ
  | succ n ih =>
    rw [resolveWithin_succ]
    refine ih fun v t ht => ?_
    rw [NameMap.get?_map] at ht
    obtain ⟨r, hr, rfl⟩ := Option.map_eq_some_iff.1 ht
    exact hD.subst hσ (hσ v r hr)

theorem keeps_finish (hD : Discipline B S C) (hu : u.Keeps B S)
    (hnode : ∀ v t, node? v = some t → B v t) : (u.finish node?).Obeys B := by
  refine keeps_resolveWithin hD ?_ _
  obtain ⟨hbindings, hclasses⟩ := hu
  generalize u.bindings = σ at hbindings
  generalize u.classes = cs at hclasses
  induction cs generalizing σ with
  | nil => exact hbindings
  | cons c cs ih =>
    obtain ⟨hc, hcs⟩ := List.forall_mem_cons.1 hclasses
    exact ih (closeClass node? σ c) (keeps_closeClass hD hbindings hc hnode) hcs

end Unifier

/-- Unification of terms that may be unified, on top of bindings that may be made, gives such bindings. -/
theorem Term.keeps_unify (hD : Unifier.Discipline B S C) {base : Subst} (hbase : base.Obeys B) (hC : C s t)
    (h : unify base s t = some σ) : σ.Obeys B := by
  have hnode : ∀ v r, findHole? (s :: t :: base.values) v = some r → B v r := by
    intro v r hr
    obtain ⟨-, rfl⟩ := Unifier.nodesOk_findHole? _ v r hr
    have hr := List.mem_of_find?_eq_some hr
    rw [holesAll_eq_flatMap] at hr
    obtain ⟨x, hx, hxr⟩ := List.mem_flatMap.1 hr
    rcases List.mem_cons.1 hx with rfl | hx
    · exact hD.holes hC r hxr
    rcases List.mem_cons.1 hx with rfl | hx
    · exact hD.holes (hD.swap hC) r hxr
    · obtain ⟨e, he, rfl⟩ := List.mem_map.1 hx
      have hB := hbase e.1 e.2 (NameMap.mem_toList.1 he)
      exact hD.holes (hD.compare hB hB) r hxr
  rw [unify, Unifier.unify] at h
  cases hr : Unifier.unifyWithin (({ bindings := base } : Unifier).depthBound s t) s t
      { bindings := base } with
  | none =>
    rw [hr] at h
    cases h
  | some a =>
    obtain ⟨ok, u⟩ := a
    rw [hr] at h
    cases ok with
    | false => cases h
    | true =>
      cases h
      have hu := Unifier.keeps_unifyWithin hD _ s t _ u ⟨hbase, List.forall_mem_nil _⟩ hC hr
      exact Unifier.keeps_finish hD hu hnode

end Sequitur
