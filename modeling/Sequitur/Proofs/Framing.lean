import Mathlib.Data.List.Perm.Subperm
import Sequitur.Proofs.Matching

/-!
# Bindings that are left alone

Unification never looks at bindings of holes that occur neither in its terms nor in its state. So a run
with such bindings in the state is the run without them (`unifyWithin_frame`). In the end the terms
of these bindings get their holes replaced as well, one round after those that the run has bound
(`finishes_frame`). Holes may be bound to holes here.
-/

namespace Sequitur

namespace Unifier

variable {K N : String → Prop} {Q : Term → Prop} {base : Subst} {u : Unifier} {s t : Term} {v w : String}
variable {rec : Term → Term → Unifier → Option (Bool × Unifier)} {node? : String → Option Term}
variable {θ : String → Tree}

/-- The state with more bindings. -/
def frame (base : Subst) (u : Unifier) : Unifier := { u with bindings := u.bindings.insertAll base.toList }

/-- An answer with more bindings in its state. -/
def framed (base : Subst) (r : Option (Bool × Unifier)) : Option (Bool × Unifier) :=
  r.map fun a => (a.1, a.2.frame base)

theorem get?_frame : (u.frame base).bindings.get? v = (base.get? v).or (u.bindings.get? v) := by
  rw [frame]
  cases hv : base.get? v with
  | none =>
    refine NameMap.get?_insertAll_of_not_mem fun hmem => ?_
    obtain ⟨⟨x, r⟩, he, rfl⟩ := List.mem_map.1 hmem
    rw [NameMap.mem_toList.1 he] at hv
    exact absurd hv nofun
  | some r => exact NameMap.get?_insertAll_of_mem base.nodup_names (NameMap.mem_toList.2 hv)

theorem get?_frame_of_none (hv : base.get? v = none) :
    (u.frame base).bindings.get? v = u.bindings.get? v := by
  rw [get?_frame, hv, Option.none_or]

theorem get?_frame_of_some {r : Term} (hv : base.get? v = some r) :
    (u.frame base).bindings.get? v = some r := by
  rw [get?_frame, hv, Option.some_or]

theorem frame_empty (base : Subst) : frame base {} = { bindings := base } := by
  have hbindings : (frame base {}).bindings = base := by
    ext v : 1
    rw [get?_frame, NameMap.get?_empty, Option.or_none]
  show ({ bindings := (frame base {}).bindings } : Unifier) = _
  rw [hbindings]

/-! ### Steps -/

theorem Ready.mem_members (hu : u.Ready K Q) (hv : K v) (hw : w ∈ u.members v) : K w := by
  rcases (mem_members_iff hu.disjoint).1 hw with rfl | ⟨c, hc, -, hw⟩
  · exact hv
  · exact hu.classes c hc w hw

theorem binding?_frame (hK : ∀ v, K v → base.get? v = none) (hu : u.Ready K Q) (hv : K v) :
    (u.frame base).binding? v = u.binding? v := by
  have hfind : (u.members v).toList.findSome? (u.frame base).bindings.get? =
      (u.members v).toList.findSome? u.bindings.get? :=
    findSome?_congr fun p hp => get?_frame_of_none (hK p (hu.mem_members hv hp))
  rw [binding?, binding?, get?_frame_of_none (hK v hv)]
  exact congrArg _ hfind

theorem depends_frame : (u.frame base).depends v w = u.depends v w := depends_congr rfl rfl

theorem wouldCycle_frame {ws : NameSet} : (u.frame base).wouldCycle v ws = u.wouldCycle v ws :=
  wouldCycle_congr rfl rfl

theorem assign_frame (hv : base.get? v = none) : (u.frame base).assign v t = (u.assign v t).frame base := by
  have hbindings : ((u.frame base).assign v t).bindings = ((u.assign v t).frame base).bindings := by
    ext x : 1
    rw [get?_assign, get?_frame, get?_frame, get?_assign]
    split
    · next hx => rw [hx, hv, Option.none_or]
    · rfl
  calc (u.frame base).assign v t
      = { (u.assign v t).frame base with bindings := ((u.frame base).assign v t).bindings } := rfl
    _ = (u.assign v t).frame base := by rw [hbindings]

theorem map_framed (r : Option (Bool × Unifier)) {g : Unifier → Unifier}
    (hg : ∀ u, (g u).frame base = g (u.frame base)) :
    framed base (r.map fun a => if a.1 then (true, g a.2) else (false, a.2)) =
      (framed base r).map fun a => if a.1 then (true, g a.2) else (false, a.2) := by
  cases r with
  | none => rfl
  | some a =>
    obtain ⟨ok, u⟩ := a
    cases ok with
    | false => rfl
    | true => exact congrArg (fun u' => some (true, u')) (hg u)

/-- Calls do the same with and without the bindings of `base`. -/
def Frames (K : String → Prop) (Q : Term → Prop) (base : Subst)
    (rec : Term → Term → Unifier → Option (Bool × Unifier)) : Prop :=
  ∀ s t u, u.Ready K Q → Q s → Q t → rec s t (u.frame base) = framed base (rec s t u)

theorem Ready.of_binding? (hu : u.Ready K Q) (h : u.binding? v = some t) : Q t := by
  obtain ⟨p, -, hp⟩ := exists_get?_of_binding? h
  exact (hu.bound p t hp).2

theorem bind_frame (hK : ∀ v, K v → base.get? v = none) (hrec : Frames K Q base rec) (hu : u.Ready K Q)
    (hv : K v) (ht : Q t) : (u.frame base).bind rec v t = framed base (u.bind rec v t) := by
  unfold bind
  dsimp only
  rw [wouldCycle_frame, binding?_frame hK hu hv]
  split
  · rfl
  cases hb : u.binding? v with
  | none => exact congrArg (fun u' => some (true, u')) (assign_frame (hK v hv))
  | some old =>
    dsimp only
    rw [hrec old t u hu (hu.of_binding? hb) ht]
    exact (map_framed _ (g := (·.addDeps v t.holeNames)) fun u => rfl).symm

theorem identify_frame (hK : ∀ v, K v → base.get? v = none) (hrec : Frames K Q base rec)
    (hu : u.Ready K Q) (hv : K v) (hw : K w) :
    (u.frame base).identify rec v w = framed base (u.identify rec v w) := by
  unfold identify
  rw [depends_frame, depends_frame, binding?_frame hK hu hv, binding?_frame hK hu hw]
  split
  · rfl
  split
  · rfl
  cases hs : u.binding? v with
  | none => rfl
  | some a =>
    cases ht : u.binding? w with
    | none => rfl
    | some b =>
      dsimp only
      rw [hrec a b u hu (hu.of_binding? hs) (hu.of_binding? ht)]
      exact (map_framed _ (g := (·.merge v w)) fun u => rfl).symm

theorem unifyPairs_frame (hunifies : Unifies K Q rec) (hrec : Frames K Q base rec) (hu : u.Ready K Q)
    {pairs : List (Term × Term)} (hpairs : ∀ p ∈ pairs, Q p.1 ∧ Q p.2) :
    unifyPairs rec pairs (u.frame base) = framed base (unifyPairs rec pairs u) := by
  induction pairs generalizing u with
  | nil => rfl
  | cons p pairs ih =>
    obtain ⟨hp, hpairs⟩ := List.forall_mem_cons.1 hpairs
    have hout := hunifies p.1 p.2 u hu hp.1 hp.2
    rw [unifyPairs, unifyPairs, hrec p.1 p.2 u hu hp.1 hp.2]
    cases hr : rec p.1 p.2 u with
    | none => rfl
    | some a =>
      obtain ⟨ok, r⟩ := a
      rw [hr] at hout
      cases ok with
      | false => rfl
      | true => exact ih hout.1 hpairs

theorem unifyWithin_frame (hK : ∀ v, K v → base.get? v = none) (hQ : InPlay K Q) (n : Nat) :
    Frames K Q base (unifyWithin n) := by
  induction n with
  | zero => exact fun _ _ _ _ _ _ => rfl
  | succ n ih =>
    intro s t u hu hs ht
    rw [unifyWithin, unifyWithin]
    cases hhs : s.isHole with
    | true =>
      cases hht : t.isHole with
      | true => exact identify_frame hK ih hu (hQ.hole s hs hhs) (hQ.hole t ht hht)
      | false => exact bind_frame hK ih hu (hQ.hole s hs hhs) ht
    | false =>
      cases hht : t.isHole with
      | true => exact bind_frame hK ih hu (hQ.hole t ht hht) hs
      | false =>
        dsimp only
        split
        · refine unifyPairs_frame (unifies_unifyWithin hQ n) ih hu fun p hp => ?_
          obtain ⟨ha, hb⟩ := List.of_mem_zip hp
          exact ⟨hQ.args s hs _ ha, hQ.args t ht _ hb⟩
        · rfl

/-! ### Solutions -/

theorem members_of_frame (hK : ∀ v, K v → base.get? v = none) (hu : u.Ready K Q)
    (hv : (base.get? v).isSome) (hw : w ∈ u.members v) : w = v := by
  rcases (mem_members_iff hu.disjoint).1 hw with rfl | ⟨c, hc, hvc, -⟩
  · rfl
  · rw [hK v (hu.classes c hc v hvc)] at hv
    exact absurd hv nofun

/-- The bindings are conditions of their own. -/
theorem solves_frame (hK : ∀ v, K v → base.get? v = none) (hu : u.Ready K Q) :
    (u.frame base).Solves θ ↔ ({ bindings := base } : Unifier).Solves θ ∧ u.Solves θ := by
  constructor
  · refine fun h => ⟨⟨fun v r hr => h.bindings v r (get?_frame_of_some hr), fun v w hw => ?_⟩, ?_, h.classes⟩
    · rw [List.mem_singleton.1 (NameSet.mem_ofList.1 hw)]
    · refine fun v r hr => h.bindings v r ?_
      rw [get?_frame_of_none (hK v (hu.bound v r hr).1)]
      exact hr
  · rintro ⟨hbase, h⟩
    refine ⟨fun v r hr => ?_, h.classes⟩
    rw [get?_frame] at hr
    rcases Option.or_eq_some_iff.1 hr with hr | ⟨-, hr⟩
    · exact hbase.bindings v r hr
    · exact h.bindings v r hr

/-- A solution can be changed where the bindings say so. -/
theorem solves_frame_value (hbase : base.Resolved) (hK : ∀ v, K v → base.get? v = none)
    (hu : u.Ready K (Term.Spelled K N)) (hθ : u.Solves θ) : (u.frame base).Solves (base.value θ) := by
  have hvalue : ∀ v, K v → base.value θ v = θ v := fun v hv => Subst.value_of_none (hK v hv) θ
  refine (solves_frame hK hu).2 ⟨⟨fun v r hr => ?_, fun v w hw => ?_⟩, fun v r hr => ?_, fun v w hw => ?_⟩
  · rw [Subst.value_of_some hr, hbase.eval_value hr]
  · rw [List.mem_singleton.1 (NameSet.mem_ofList.1 hw)]
  · obtain ⟨hv, hspelled⟩ := hu.bound v r hr
    rw [hvalue v hv, hθ.bindings v r hr]
    refine Term.eval_congr fun w hw => (hvalue w ?_).symm
    exact hspelled.of_mem_holeNames (Term.mem_holeNames.2 hw)
  · rcases hu.members hw with rfl | ⟨hv, hw'⟩
    · rfl
    · rw [hvalue w hw', hvalue v hv, hθ.classes v w hw]

/-! ### Finishing -/

theorem get?_closed_frame (hK : ∀ v, K v → base.get? v = none) (hu : u.Ready K (Term.Spelled K N))
    (hnode : NodesOk node?) :
    ((u.frame base).closed node?).get? v = (base.get? v).or ((u.closed node?).get? v) := by
  rw [get?_closed (u := u.frame base) hu.disjoint hnode, get?_closed hu.disjoint hnode]
  show classTerm? node? (u.frame base).bindings (u.members v) v = _
  cases hv : base.get? v with
  | none =>
    rw [Option.none_or]
    refine classTerm?_congr fun x hx => get?_frame_of_none ?_
    rcases hu.members hx with rfl | ⟨-, hKx⟩
    · exact hv
    · exact hK x hKx
  | some r =>
    -- the class of a hole with such a binding is the hole alone
    have hfind : (u.members v).toList.findSome? (u.frame base).bindings.get? = some r := by
      cases hx : (u.members v).toList.findSome? (u.frame base).bindings.get? with
      | none =>
        have := List.findSome?_eq_none_iff.1 hx v (u.self_mem_members v)
        rw [get?_frame_of_some hv] at this
        exact absurd this nofun
      | some q =>
        obtain ⟨p, hp, hq⟩ := List.exists_of_findSome?_eq_some hx
        rw [members_of_frame hK hu (Option.isSome_of_eq_some hv) hp, get?_frame_of_some hv] at hq
        exact hq.symm
    rw [classTerm?, hfind, Option.some_or, Option.some_or]

theorem size_closed_le (hK : ∀ v, K v → base.get? v = none) (hu : u.Ready K (Term.Spelled K N))
    (hnode : NodesOk node?) : (u.closed node?).size ≤ ((u.frame base).closed node?).size := by
  have hkeys : (u.closed node?).keys ⊆ ((u.frame base).closed node?).keys := by
    intro v hv
    obtain ⟨⟨x, t⟩, ht, rfl⟩ := List.mem_map.1 hv
    have hsome : (((u.frame base).closed node?).get? x).isSome := by
      rw [get?_closed_frame hK hu hnode, Option.isSome_or, NameMap.mem_toList.1 ht]
      simp
    obtain ⟨t', ht'⟩ := Option.isSome_iff_exists.1 hsome
    exact List.mem_map.2 ⟨(x, t'), NameMap.mem_toList.2 ht', rfl⟩
  have hle := (List.Nodup.subperm (u.closed node?).nodup_names hkeys).length_le
  simpa [NameMap.keys, NameMap.size] using hle

variable {K' : String → Prop}

/-- What the run has bound unfolds as without the given bindings; their terms come after that. -/
theorem unfolds_frame (hbase : base.Resolved) (hK : ∀ v, K v → base.get? v = none)
    (hu : u.Ready K (Term.Spelled K N)) (hsub : ∀ v, K v → K' v)
    (hbound : ∀ v r, base.get? v = some r → K' v ∧ r.Spelled K' N) (hnode : NodesOk node?)
    (hnodes : ∀ v, K v → (node? v).isSome) (hθ : u.Solves θ) :
    Unfolds K' N (u.frame base).Solves (fun v => (((u.frame base).closed node?).get? v).isSome)
      (fun v => if (base.get? v).isSome then (u.closed node?).size + 1 else rank (u.closed node?) θ v) 0
      ((u.frame base).closed node?) := by
  have hunfolds := unfolds_closed hu hnode hnodes hθ
  have hrank : ∀ w, base.get? w = none →
      (if (base.get? w).isSome then (u.closed node?).size + 1 else rank (u.closed node?) θ w) =
        rank (u.closed node?) θ w := by
    intro w hw
    rw [hw]
    rfl
  refine ⟨fun v => Iff.rfl, fun v hv => ?_, fun v t ht => ?_, fun η hη v t ht => ?_⟩
  · obtain ⟨t, ht⟩ := Option.isSome_iff_exists.1 hv
    rw [get?_closed_frame hK hu hnode] at ht
    rcases Option.or_eq_some_iff.1 ht with ht | ⟨-, ht⟩
    · exact (hbound v t ht).1
    · exact hsub v (hunfolds.key v (Option.isSome_of_eq_some ht))
  · rw [get?_closed_frame hK hu hnode] at ht
    rcases Option.or_eq_some_iff.1 ht with ht | ⟨hv, ht⟩
    · refine (hbound v t ht).2.mono fun w hw hKw => ⟨hKw, fun _ => ?_⟩
      rw [hrank w (hbase v t ht w hw), ht]
      have hle := rank_le (u.closed node?) θ w
      simp only [Option.isSome_some, if_true]
      omega
    · refine (hunfolds.spelled v t ht).mono fun w _ hw => ⟨hsub w hw.1, fun hD => ?_⟩
      have hwnone := hK w hw.1
      rw [hrank w hwnone, hrank v hv]
      rw [get?_closed_frame hK hu hnode, hwnone, Option.none_or] at hD
      exact hw.2 hD
  · obtain ⟨hsolves, hu'⟩ := (solves_frame hK hu).1 hη
    rw [get?_closed_frame hK hu hnode] at ht
    rcases Option.or_eq_some_iff.1 ht with ht | ⟨-, ht⟩
    · exact hsolves.bindings v t ht
    · exact hunfolds.value η hu' v t ht

theorem finishes_frame (hbase : base.Resolved) (hK : ∀ v, K v → base.get? v = none)
    (hu : u.Ready K (Term.Spelled K N)) (hsub : ∀ v, K v → K' v) (hKN : NamesOk K' N)
    (hbound : ∀ v r, base.get? v = some r → K' v ∧ r.Spelled K' N) (hnode : NodesOk node?)
    (hnodes : ∀ v, K v → (node? v).isSome) : Finishes K' N (u.frame base) ((u.frame base).finish node?) := by
  obtain ⟨θ, hθ, hfree⟩ := hu.free u.firstLeaf (respects_firstLeaf hu.disjoint)
  have hrounds := (unfolds_frame hbase hK hu hsub hbound hnode hnodes hθ).resolveWithin hKN
    (((u.frame base).closed node?).size + 1)
  refine hrounds.finishes (fun v _ => ?_) (solves_frame_value hbase hK hu hθ) fun v hv => ?_
  · have hsize := size_closed_le hK hu hnode
    have hrank := rank_le (u.closed node?) θ v
    split <;> omega
  · have hnone := Option.not_isSome_iff_eq_none.1 hv
    rw [get?_closed_frame hK hu hnode, Option.or_eq_none_iff] at hnone
    obtain ⟨hb, hr⟩ := (get?_closed_eq_none hu hnode hnodes).1 hnone.2
    rw [Subst.value_of_none hnone.1, hfree v hb, firstLeaf, hr]
    rfl

end Unifier

end Sequitur
