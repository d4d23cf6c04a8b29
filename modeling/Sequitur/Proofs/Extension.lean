import Sequitur.Proofs.Framing
import Sequitur.Proofs.UnifierRuns

/-!
# Extending a substitution

Unification on top of the bindings of a substitution starts from a state where their dependencies are
not recorded. With these dependencies recorded the state is consistent, if no hole is bound to another
hole (`ready_base`), and unification would be right. Without them it does the same as long as that one
succeeds (`follows_unifyWithin`), so it is right if there is a unifier at all. If there is none, it may
miss a cycle through the given bindings. That cannot happen if their terms have no holes, neither on
matching, and never if the substitution was applied to the two terms before.

In these cases the result extends the given substitution (`Extension`): it is resolved, unifies the two
terms, and maps a hole that was mapped before to what its term has become.
-/

namespace Sequitur

namespace Unifier

variable {base : Subst} {P : String → Prop} {u u' r' : Unifier} {s t : Term} {v w : String}
variable {rec : Term → Term → Unifier → Option (Bool × Unifier)}

/-! ### Fewer dependencies -/

/-- `u'` is `u` with more dependencies recorded. -/
structure Covers (u u' : Unifier) : Prop where
  bindings : u'.bindings = u.bindings
  classes : u'.classes = u.classes
  deps : ∀ v, ∀ w ∈ u.depsOf v, w ∈ u'.depsOf v

namespace Covers

theorem binding? (h : Covers u u') (v : String) : u'.binding? v = u.binding? v := by
  rw [Unifier.binding?, Unifier.binding?, h.bindings, members_congr h.classes]

theorem addDeps (h : Covers u u') (v : String) (ws : NameSet) :
    Covers (u.addDeps v ws) (u'.addDeps v ws) where
  bindings := h.bindings
  classes := h.classes
  deps p w hw := by
    rw [depsOf_addDeps] at hw ⊢
    split at hw
    · next hp =>
      rw [if_pos hp]
      exact NameSet.mem_union.2 ((NameSet.mem_union.1 hw).imp_left (h.deps v w))
    · next hp =>
      rw [if_neg hp]
      exact h.deps p w hw

theorem assign (h : Covers u u') (v : String) (t : Term) : Covers (u.assign v t) (u'.assign v t) := by
  have hinsert : Covers { u with bindings := u.bindings.insert v t }
      { u' with bindings := u'.bindings.insert v t } := ⟨by rw [h.bindings], h.classes, h.deps⟩
  exact hinsert.addDeps v t.holeNames

theorem merge (h : Covers u u') (v w : String) : Covers (u.merge v w) (u'.merge v w) where
  bindings := h.bindings
  classes := by rw [Unifier.merge, Unifier.merge, h.classes]
  deps := h.deps

theorem solves_iff (h : Covers u u') {θ : String → Tree} : u.Solves θ ↔ u'.Solves θ := by
  refine ⟨fun hθ => ⟨?_, fun v w hw => ?_⟩, fun hθ => ⟨?_, fun v w hw => ?_⟩⟩
  · rw [h.bindings]
    exact hθ.bindings
  · rw [members_congr h.classes] at hw
    exact hθ.classes v w hw
  · rw [← h.bindings]
    exact hθ.bindings
  · rw [← members_congr h.classes] at hw
    exact hθ.classes v w hw

theorem finish (h : Covers u u') (node? : String → Option Term) : u'.finish node? = u.finish node? := by
  rw [Unifier.finish, Unifier.finish, h.bindings, h.classes]

end Covers

/-- A state that has the given bindings, and holes in `P` only in its terms and classes. -/
structure Grows (base : Subst) (P : String → Prop) (u : Unifier) : Prop where
  kept : ∀ v t, base.get? v = some t → u.bindings.get? v = some t
  holes : ∀ v t, u.bindings.get? v = some t → ∀ w ∈ t.holeNames, P w
  grouped : ∀ c ∈ u.classes, ∀ v ∈ c, P v

namespace Grows

theorem assign (h : u.Grows base P) (hv : u.bindings.get? v = none) (ht : ∀ w ∈ t.holeNames, P w) :
    (u.assign v t).Grows base P where
  kept p r hr := get?_assign_of_some hv (h.kept p r hr)
  holes p r hr := by
    rw [get?_assign] at hr
    split at hr
    · cases hr
      exact ht
    · exact h.holes p r hr
  grouped := h.grouped

theorem merge (h : u.Grows base P) (hv : P v) (hw : P w) : (u.merge v w).Grows base P where
  kept := h.kept
  holes := h.holes
  grouped c hc x hx := by
    rcases mem_classes_merge.1 hc with ⟨hc, -⟩ | rfl
    · exact h.grouped c hc x hx
    · rw [joined, mem_foldl_union, NameSet.mem_ofList] at hx
      rcases hx with hx | ⟨c, hc, hx⟩
      · rcases List.mem_pair.1 hx with rfl | rfl
        · exact hv
        · exact hw
      · exact h.grouped c (List.mem_filter.1 hc).1 x hx

theorem of_binding? (h : u.Grows base P) (hb : u.binding? v = some t) : ∀ w ∈ t.holeNames, P w := by
  obtain ⟨p, -, hp⟩ := exists_get?_of_binding? hb
  exact h.holes p t hp

end Grows

structure Follows (base : Subst) (P : String → Prop) (u u' : Unifier) : Prop
    extends Covers u u', Grows base P u

/-- What succeeds with more dependencies does the same with fewer, and the state grows. -/
def Carries (base : Subst) (P : String → Prop) (rec : Term → Term → Unifier → Option (Bool × Unifier)) :
    Prop :=
  ∀ s t u u' r', Follows base P u u' → (∀ w ∈ s.holeNames, P w) → (∀ w ∈ t.holeNames, P w) →
    rec s t u' = some (true, r') → ∃ r, rec s t u = some (true, r) ∧ Follows base P r r'

/-- What is recorded after success is recorded in both states. -/
theorem follows_map {r r₀ : Option (Bool × Unifier)} {g : Unifier → Unifier}
    (hr : ∀ x', r₀ = some (true, x') → ∃ x, r = some (true, x) ∧ Follows base P x x')
    (hg : ∀ x x', Follows base P x x' → Follows base P (g x) (g x'))
    (h : (r₀.map fun a => if a.1 then (true, g a.2) else (false, a.2)) = some (true, r')) :
    ∃ x, (r.map fun a => if a.1 then (true, g a.2) else (false, a.2)) = some (true, x) ∧
      Follows base P x r' := by
  obtain ⟨⟨ok, x'⟩, hx', he⟩ := Option.map_eq_some_iff.1 h
  cases ok with
  | false => exact absurd he nofun
  | true =>
    cases he
    obtain ⟨x, hx, hfollows⟩ := hr x' hx'
    exact ⟨g x, by rw [hx]; rfl, hg x x' hfollows⟩

theorem follows_bind (hrec : Carries base P rec) (h : Follows base P u u') (ht : ∀ w ∈ t.holeNames, P w)
    (hr : u'.bind rec v t = some (true, r')) :
    ∃ r, u.bind rec v t = some (true, r) ∧ Follows base P r r' := by
  unfold bind at hr ⊢
  dsimp only at hr ⊢
  split at hr
  · exact absurd hr nofun
  next hcycle =>
  rw [if_neg fun hc => hcycle (wouldCycle_mono h.classes h.deps hc)]
  rw [h.binding?] at hr
  cases hb : u.binding? v with
  | none =>
    rw [hb] at hr
    cases hr
    refine ⟨_, rfl, h.toCovers.assign v t, h.toGrows.assign ?_ ht⟩
    exact binding?_eq_none.1 hb v (u.self_mem_members v)
  | some old =>
    rw [hb] at hr
    refine follows_map (g := (·.addDeps v t.holeNames)) (fun x' => ?_) (fun x x' hx => ?_) hr
    · exact hrec old t u u' x' h (h.of_binding? hb) ht
    · exact ⟨hx.toCovers.addDeps v _, hx.kept, hx.holes, hx.grouped⟩

theorem follows_identify (hrec : Carries base P rec) (h : Follows base P u u') (hv : P v) (hw : P w)
    (hr : u'.identify rec v w = some (true, r')) :
    ∃ r, u.identify rec v w = some (true, r) ∧ Follows base P r r' := by
  unfold identify at hr ⊢
  split at hr
  · next he =>
    cases hr
    rw [if_pos he]
    exact ⟨u, rfl, h⟩
  next he =>
  rw [if_neg he]
  split at hr
  · exact absurd hr nofun
  next hdep =>
  have hmono : ∀ {x y}, u.depends x y = true → u'.depends x y = true := depends_mono h.classes h.deps
  rw [if_neg fun hd => hdep (Bool.or_eq_true_iff.2 ((Bool.or_eq_true_iff.1 hd).imp hmono hmono))]
  rw [h.binding?, h.binding?] at hr
  have hmerge : ∀ x x', Follows base P x x' → Follows base P (x.merge v w) (x'.merge v w) :=
    fun x x' hx => ⟨hx.toCovers.merge v w, hx.toGrows.merge hv hw⟩
  cases hs : u.binding? v with
  | none =>
    rw [hs] at hr
    cases hr
    exact ⟨_, rfl, hmerge u u' h⟩
  | some a =>
    rw [hs] at hr
    cases ht : u.binding? w with
    | none =>
      rw [ht] at hr
      cases hr
      exact ⟨_, rfl, hmerge u u' h⟩
    | some b =>
      rw [ht] at hr
      refine follows_map (fun x' => ?_) hmerge hr
      exact hrec a b u u' x' h (h.of_binding? hs) (h.of_binding? ht)

theorem follows_unifyPairs (hrec : Carries base P rec) (h : Follows base P u u')
    {pairs : List (Term × Term)}
    (hpairs : ∀ p ∈ pairs, (∀ w ∈ p.1.holeNames, P w) ∧ ∀ w ∈ p.2.holeNames, P w)
    (hr : unifyPairs rec pairs u' = some (true, r')) :
    ∃ r, unifyPairs rec pairs u = some (true, r) ∧ Follows base P r r' := by
  induction pairs generalizing u u' with
  | nil =>
    cases hr
    exact ⟨u, rfl, h⟩
  | cons p pairs ih =>
    obtain ⟨hp, hpairs⟩ := List.forall_mem_cons.1 hpairs
    rw [unifyPairs] at hr ⊢
    rcases hx' : rec p.1 p.2 u' with _ | ⟨_ | _, x'⟩
    · rw [hx'] at hr
      cases hr
    · rw [hx'] at hr
      cases hr
    · rw [hx'] at hr
      obtain ⟨x, hx, hfollows⟩ := hrec p.1 p.2 u u' x' h hp.1 hp.2 hx'
      rw [hx]
      exact ih hfollows hpairs hr

theorem follows_unifyWithin (n : Nat) : Carries base P (unifyWithin n) := by
  induction n with
  | zero =>
    intro s t u u' r' _ _ _ hr
    cases hr
  | succ n ih =>
    intro s t u u' r' h hs ht hr
    rw [unifyWithin] at hr ⊢
    cases hhs : s.isHole with
    | true =>
      rw [hhs] at hr
      have hv := hs _ (Term.key_mem_holeNames hhs)
      cases hht : t.isHole with
      | true =>
        rw [hht] at hr
        exact follows_identify ih h hv (ht _ (Term.key_mem_holeNames hht)) hr
      | false =>
        rw [hht] at hr
        exact follows_bind ih h ht hr
    | false =>
      rw [hhs] at hr
      cases hht : t.isHole with
      | true =>
        rw [hht] at hr
        exact follows_bind ih h hs hr
      | false =>
        rw [hht] at hr
        dsimp only at hr ⊢
        split at hr
        · next hhead =>
          rw [if_pos hhead]
          refine follows_unifyPairs ih h (fun p hp => ?_) hr
          obtain ⟨ha, hb⟩ := List.of_mem_zip hp
          exact ⟨fun w hw => hs w (Term.holeNames_of_mem_args ha hw),
            fun w hw => ht w (Term.holeNames_of_mem_args hb hw)⟩
        · cases hr

/-! ### Finishing -/

variable {K N : String → Prop} {Q : Term → Prop} {σ : Subst} {node? : String → Option Term}

theorem isSome_get?_closeClass {c : NameSet} (h : (σ.get? v).isSome) :
    ((closeClass node? σ c).get? v).isSome := by
  rw [get?_closeClass]
  split
  · next hv =>
    have hfind : (c.toList.findSome? σ.get?).isSome := List.findSome?_isSome_iff.2 ⟨v, hv, h⟩
    rw [classTerm?, Option.isSome_or, hfind, Bool.true_or]
  · exact h

theorem isSome_get?_resolveWithin (n : Nat) (σ : Subst) (v : String) :
    ((resolveWithin n σ).get? v).isSome = (σ.get? v).isSome := by
  induction n generalizing σ with
  | zero => rfl
  | succ n ih => rw [resolveWithin_succ, ih, NameMap.get?_map, Option.isSome_map]

/-- Bound holes are mapped. -/
theorem isSome_get?_finish (h : (u.bindings.get? v).isSome) : ((u.finish node?).get? v).isSome := by
  have hclose : ∀ (cs : List NameSet) (σ : Subst), (σ.get? v).isSome →
      ((cs.foldl (closeClass node?) σ).get? v).isSome := by
    intro cs
    induction cs with
    | nil => exact fun σ hσ => hσ
    | cons c cs ih => exact fun σ hσ => ih _ (isSome_get?_closeClass hσ)
  rw [finish, isSome_get?_resolveWithin]
  exact hclose u.classes u.bindings h

/-- Only the holes of classes are looked up. -/
theorem finish_congr {node'? : String → Option Term} (h : ∀ c ∈ u.classes, ∀ v ∈ c, node? v = node'? v) :
    u.finish node? = u.finish node'? := by
  have hclose : u.classes.foldl (closeClass node?) u.bindings =
      u.classes.foldl (closeClass node'?) u.bindings := by
    refine List.foldl_ext _ _ _ fun σ c hc => ?_
    have hhead : c.toList.head?.bind node? = c.toList.head?.bind node'? := by
      cases hr : c.toList.head? with
      | none => rfl
      | some r => exact h c hc r (List.mem_of_mem_head? hr)
    rw [closeClass, closeClass, hhead]
  rw [finish, finish, hclose]

end Unifier

/-- A hole of a name. -/
def Term.named (v : String) : Term := .hole { text := v } {} default

theorem Term.isSome_findHole? {ts : List Term} {t : Term} {w : String} (ht : t ∈ ts) (hw : w ∈ t.holeNames) :
    (findHole? ts w).isSome := by
  obtain ⟨h, hh, rfl⟩ := List.mem_map.1 (mem_holeNames.1 hw)
  rw [findHole?, List.find?_isSome, holesAll_eq_flatMap]
  exact ⟨h, List.mem_flatMap.2 ⟨t, ht, hh⟩, beq_self_eq_true _⟩

namespace Unifier

variable {base σ : Subst} {u : Unifier} {s t : Term} {v w : String}
variable {K N : String → Prop} {Q : Term → Prop} {node? : String → Option Term}

/-- It is enough that the holes of the problem can be looked up, though other holes may be bound. -/
theorem Ready.finishes (hu : u.Ready K (Term.Spelled K N)) (hKN : NamesOk K N) (hnode : NodesOk node?)
    (hgrows : u.Grows base fun v => (node? v).isSome) : Finishes K N u (u.finish node?) := by
  have hsame : u.finish node? = u.finish fun v => some ((node? v).getD (.named v)) := by
    refine finish_congr fun c hc v hv => ?_
    obtain ⟨h, hh⟩ := Option.isSome_iff_exists.1 (hgrows.grouped c hc v hv)
    rw [hh, Option.getD_some]
  rw [hsame]
  refine finishes_finish hu hKN (fun v h hh => ?_) fun v _ => rfl
  cases hv : node? v with
  | none =>
    rw [hv] at hh
    cases hh
    exact ⟨rfl, Term.key_hole ..⟩
  | some r =>
    rw [hv] at hh
    cases hh
    exact hnode v r hv

/-! ### The state of a substitution -/

/-- The bindings of a substitution with the dependencies that come from them. -/
def recorded (base : Subst) : Unifier :=
  { bindings := base, deps := base.map fun _ t => t.holeNames }

theorem covers_recorded (base : Subst) : Covers { bindings := base } (recorded base) :=
  ⟨rfl, rfl, fun _ w hw => absurd hw (NameSet.not_mem_empty w)⟩

theorem depsOf_recorded {base : Subst} : w ∈ (recorded base).depsOf v ↔
    ∃ t, base.get? v = some t ∧ w ∈ t.holeNames := by
  rw [depsOf, recorded, NameMap.get?_map]
  cases base.get? v with
  | none => simp
  | some t => simp

theorem ready_base {deps : NameMap NameSet} (hbase : base.Resolved)
    (hhole : ∀ v t, base.get? v = some t → t.isHole = false)
    (hdeps : ∀ v w, w ∈ ({ bindings := base, deps } : Unifier).depsOf v ↔
      ∃ t, base.get? v = some t ∧ w ∈ t.holeNames)
    (hbound : ∀ v t, base.get? v = some t → K v ∧ Q t) :
    ({ bindings := base, deps } : Unifier).Ready K Q where
  disjoint := .nil
  notHole := hhole
  deps v t ht w hw := (hdeps v w).2 ⟨t, ht, hw⟩
  size θ hθ v w hw := by
    obtain ⟨t, ht, hw⟩ := (hdeps v w).1 hw
    rw [hθ.bindings v t ht]
    exact Term.size_lt_of_mem_holeNames hw (hhole v t ht) θ
  free ρ _ := by
    refine ⟨base.value ρ, ⟨fun v t ht => ?_, fun v w hw => ?_⟩, fun v hv => ?_⟩
    · rw [Subst.value_of_some ht, hbase.eval_value ht]
    · rw [List.mem_singleton.1 (NameSet.mem_ofList.1 hw)]
    · exact Subst.value_of_none (binding?_eq_none.1 hv v (self_mem_members _ v)) ρ
  bound := hbound
  classes := nofun

/-- The pairs that unification on top of a substitution makes equal. -/
def equations (base : Subst) (s t : Term) : List (Term × Term) :=
  (s, t) :: base.toList.map fun e => (.named e.1, e.2)

theorem forall_mem_equations {p : Term × Term → Prop} : (∀ e ∈ equations base s t, p e) ↔
    p (s, t) ∧ ∀ v r, base.get? v = some r → p (.named v, r) := by
  rw [equations, List.forall_mem_cons, List.forall_mem_map]
  exact and_congr_right fun _ => ⟨fun h v r hr => h (v, r) (NameMap.mem_toList.2 hr),
    fun h e he => h e.1 e.2 (NameMap.mem_toList.1 he)⟩

theorem solves_base {θ : String → Tree} : ({ bindings := base } : Unifier).Solves θ ∧ s.eval θ = t.eval θ ↔
    ∀ e ∈ equations base s t, e.1.eval θ = e.2.eval θ := by
  rw [forall_mem_equations, and_comm]
  refine and_congr_right fun _ => ⟨fun h v r hr => h.bindings v r hr, fun h => ⟨h, fun v w hw => ?_⟩⟩
  rw [List.mem_singleton.1 (NameSet.mem_ofList.1 hw)]

/-! ### The result -/

/-- A resolved substitution that unifies two terms on top of another one, and through which all that do
so factor. -/
structure Extension (base : Subst) (s t : Term) (σ : Subst) : Prop where
  unifies : (s.subst σ).key = (t.subst σ).key
  keeps : ∀ v r, base.get? v = some r → ∃ r', σ.get? v = some r' ∧ r'.key = (r.subst σ).key
  resolved : σ.Resolved
  general : ∀ θ : Subst, θ.Spares (OtherOf (equations base s t)) → θ.Unifies (equations base s t) →
    ∀ v : Term, v.isHole = true → ((v.subst σ).subst θ).key = (v.subst θ).key

theorem extension_finish (h : WellSpelled (equations base s t))
    (hfin : Finishes (HoleOf (equations base s t)) (OtherOf (equations base s t)) u (u.finish node?))
    (hsolves : ∀ θ, u.Solves θ ↔ ({ bindings := base } : Unifier).Solves θ ∧ s.eval θ = t.eval θ)
    (hkept : ∀ v r, base.get? v = some r → u.bindings.get? v = some r) :
    Extension base s t (u.finish node?) := by
  have hKN := h.namesOk
  have hspares := hfin.spares hKN
  have hunifies := (hspares.unifies_iff hKN h.spelled).2 (solves_base.1 ((hsolves _).1 hfin.solves))
  obtain ⟨hst, hbase⟩ := forall_mem_equations.1 hunifies
  refine ⟨hst, fun v r hr => ?_, fun v r hr w hw => ?_, fun θ hθ hall v hv => ?_⟩
  · have hmapped : ((u.finish node?).get? v).isSome :=
      isSome_get?_finish (Option.isSome_of_eq_some (hkept v r hr))
    obtain ⟨r', hr'⟩ := Option.isSome_iff_exists.1 hmapped
    refine ⟨r', hr', ?_⟩
    rw [← hbase v r hr, Term.named, Term.subst_hole, hr', Option.getD_some]
  · exact ((hfin.spelled v r hr).of_mem_holeNames hw).2
  · refine hfin.key_subst_subst hθ ((hsolves _).2 (solves_base.2 ?_)) hv
    exact (hθ.unifies_iff hKN h.spelled).1 hall

/-- Unification on top of a substitution is right: it comes to an end, what it gives extends the
substitution, and it gives nothing only if nothing does. -/
structure Settled (base : Subst) (s t : Term) : Prop where
  ends : ∀ n, ({ bindings := base } : Unifier).depthBound s t ≤ n →
    unifyWithin n s t { bindings := base } = some (({ bindings := base } : Unifier).unify s t)
  sound : ∀ σ, Term.unify base s t = some σ → Extension base s t σ
  complete : Term.unify base s t = none → ∀ θ : Subst, θ.Spares (OtherOf (equations base s t)) →
    ¬θ.Unifies (equations base s t)

theorem settled_of_answer {ok : Bool}
    (hr : unifyWithin (({ bindings := base } : Unifier).depthBound s t) s t { bindings := base } =
      some (ok, u))
    (hok : ok = true → Extension base s t (u.finish (Term.findHole? (s :: t :: base.values))))
    (hfail : ok = false → ∀ θ : Subst, θ.Spares (OtherOf (equations base s t)) →
      ¬θ.Unifies (equations base s t)) : Settled base s t := by
  have hunify : ({ bindings := base } : Unifier).unify s t = (ok, u) := by
    rw [unify, hr]
    rfl
  refine ⟨fun n hn => ?_, fun σ hσ => ?_, fun hnone => ?_⟩
  · rw [hunify]
    exact refines_unifyWithin hn _ _ _ _ hr
  · rw [Term.unify, hunify] at hσ
    cases ok with
    | false => cases hσ
    | true =>
      cases hσ
      exact hok rfl
  · rw [Term.unify, hunify] at hnone
    cases ok with
    | false => exact hfail rfl
    | true => cases hnone

theorem not_unifies (h : WellSpelled (equations base s t))
    (hfail : ∀ θ, ({ bindings := base } : Unifier).Solves θ → ¬s.eval θ = t.eval θ) (θ : Subst)
    (hθ : θ.Spares (OtherOf (equations base s t))) : ¬θ.Unifies (equations base s t) := by
  intro hunifies
  obtain ⟨hsolves, he⟩ := solves_base.2 ((hθ.unifies_iff h.namesOk h.spelled).1 hunifies)
  exact hfail _ hsolves he

/-- The terms and bindings of a problem are in play. -/
theorem WellSpelled.inPlay (h : WellSpelled (equations base s t)) :
    let K := HoleOf (equations base s t)
    let Q := Term.Spelled K (OtherOf (equations base s t))
    Q s ∧ Q t ∧ ∀ v r, base.get? v = some r → K v ∧ Q r := by
  obtain ⟨hst, hbase⟩ := forall_mem_equations.1 h.spelled
  exact ⟨hst.1, hst.2, fun v r hr => ⟨Term.spelled_hole.1 (hbase v r hr).1, (hbase v r hr).2⟩⟩

theorem grows_base (base : Subst) (s t : Term) : ({ bindings := base } : Unifier).Grows base
    fun v => (Term.findHole? (s :: t :: base.values) v).isSome where
  kept _ _ hr := hr
  holes v r hr w hw := by
    have hvalue : r ∈ base.values := List.mem_map.2 ⟨(v, r), NameMap.mem_toList.2 hr, rfl⟩
    exact Term.isSome_findHole? (List.mem_cons_of_mem _ (List.mem_cons_of_mem _ hvalue)) hw
  grouped := nofun

/-- A run that succeeds from a state with the dependencies that the bindings have. -/
theorem extension_of_success {u₀ u : Unifier} {n : Nat} (h : WellSpelled (equations base s t))
    (hcovers : Covers { bindings := base } u₀)
    (hready : u₀.Ready (HoleOf (equations base s t))
      (Term.Spelled (HoleOf (equations base s t)) (OtherOf (equations base s t))))
    (hr : unifyWithin n s t u₀ = some (true, u)) :
    ∃ x, unifyWithin n s t { bindings := base } = some (true, x) ∧
      Extension base s t (x.finish (Term.findHole? (s :: t :: base.values))) := by
  obtain ⟨hs, ht, -⟩ := h.inPlay
  have hout := unifies_unifyWithin Term.inPlay_spelled n s t u₀ hready hs ht
  rw [hr] at hout
  obtain ⟨hu, hsolves⟩ := hout
  have hnode : ∀ x ∈ s :: t :: base.values, ∀ w ∈ x.holeNames,
      (Term.findHole? (s :: t :: base.values) w).isSome := fun x hx w hw => Term.isSome_findHole? hx hw
  obtain ⟨x, hx, hfollows⟩ := follows_unifyWithin n s t _ u₀ u ⟨hcovers, grows_base base s t⟩
    (hnode s (by simp)) (hnode t (by simp)) hr
  refine ⟨x, hx, ?_⟩
  rw [← hfollows.finish]
  have hgrows : u.Grows base fun v => (Term.findHole? (s :: t :: base.values) v).isSome := by
    refine ⟨?_, ?_, ?_⟩
    · rw [hfollows.bindings]
      exact hfollows.kept
    · rw [hfollows.bindings]
      exact hfollows.holes
    · rw [hfollows.classes]
      exact hfollows.grouped
  refine extension_finish h (hu.finishes h.namesOk (nodesOk_findHole? _) hgrows) (fun θ => ?_) hgrows.kept
  rw [hsolves, hcovers.solves_iff]

/-- Without holes in the bound terms there are no dependencies to record. -/
theorem settled_of_ground (hbase : base.Resolved) (h : WellSpelled (equations base s t))
    (hground : ∀ v r, base.get? v = some r → r.hasHole = false) : Settled base s t := by
  obtain ⟨hs, ht, hbound⟩ := h.inPlay
  have hdeps : ∀ v w, w ∈ ({ bindings := base } : Unifier).depsOf v ↔
      ∃ r, base.get? v = some r ∧ w ∈ r.holeNames := by
    refine fun v w => ⟨fun hw => absurd hw (NameSet.not_mem_empty w), ?_⟩
    rintro ⟨r, hr, hw⟩
    rw [Term.holeNames_eq_empty (hground v r hr)] at hw
    exact absurd hw (NameSet.not_mem_empty w)
  have hready := ready_base hbase (fun v r hr => Term.isHole_of_hasHole (hground v r hr)) hdeps hbound
  obtain ⟨⟨ok, u⟩, hr⟩ := Option.isSome_iff_exists.1
    (isSome_unifyWithin_depthBound Term.inPlay_spelled hready hs ht)
  refine settled_of_answer hr ?_ ?_
  · rintro rfl
    obtain ⟨x, hx, hext⟩ := extension_of_success h ⟨rfl, rfl, fun _ _ hw => hw⟩ hready hr
    rw [hr] at hx
    cases hx
    exact hext
  · rintro rfl
    have hout := outcome_unify Term.inPlay_spelled hready hs ht
    rw [unify, hr] at hout
    exact not_unifies h hout

/-- The bound on the depth is enough for any consistent state with no more subterms. -/
theorem isSome_unifyWithin_of_pool (hready : u.Ready K (Term.Spelled K N)) (hs : s.Spelled K N)
    (ht : t.Spelled K N) (hpool : (u.pool s t).length ≤ ({ bindings := base } : Unifier).weight s t) :
    (unifyWithin (({ bindings := base } : Unifier).depthBound s t) s t u).isSome := by
  refine isSome_unifyWithin Term.inPlay_spelled hready hs ht ?_
  have hdepth := ({ bindings := base } : Unifier).two_mul_add_two_le_depthBound s t
  omega

/-- If there is a unifier, the dependencies that are not recorded would not have stopped the run. -/
theorem settled_of_unifies (hbase : base.Resolved) (h : WellSpelled (equations base s t))
    (hhole : ∀ v r, base.get? v = some r → r.isHole = false) {θ : Subst}
    (hθ : θ.Spares (OtherOf (equations base s t))) (hunifies : θ.Unifies (equations base s t)) :
    Settled base s t := by
  obtain ⟨hs, ht, hbound⟩ := h.inPlay
  have hready : (recorded base).Ready _ _ := ready_base hbase hhole (fun v w => depsOf_recorded) hbound
  have hpool : ((recorded base).pool s t).length ≤ ({ bindings := base } : Unifier).weight s t :=
    length_pool_le (u := { bindings := base }) s t
  obtain ⟨⟨ok, u⟩, hr⟩ := Option.isSome_iff_exists.1 (isSome_unifyWithin_of_pool hready hs ht hpool)
  cases ok with
  | false =>
    have hout := unifies_unifyWithin Term.inPlay_spelled
      (({ bindings := base } : Unifier).depthBound s t) s t _ hready hs ht
    rw [hr] at hout
    obtain ⟨hsolves, he⟩ := solves_base.2 ((hθ.unifies_iff h.namesOk h.spelled).1 hunifies)
    exact absurd he (hout _ ((covers_recorded base).solves_iff.1 hsolves))
  | true =>
    obtain ⟨x, hx, hext⟩ := extension_of_success h (covers_recorded base) hready hr
    exact settled_of_answer hx (fun _ => hext) nofun

theorem three_mul_add_three_le_depthBound {k : Nat} (hk : k + 1 ≤ u.weight s t) :
    3 * k + 3 ≤ u.depthBound s t := by
  rw [depthBound]
  generalize u.weight s t = w at hk
  calc 3 * k + 3 ≤ (w + 1) * 3 := by omega
    _ ≤ (w + 1) * (w + 1) ^ 3 := Nat.mul_le_mul_left _ ?_
    _ = (w + 1) ^ 4 := by rw [Nat.pow_succ (w + 1) 3, Nat.mul_comm]
  calc 3 ≤ (1 + 1) ^ 3 := by decide
    _ ≤ (w + 1) ^ 3 := Nat.pow_le_pow_left (by omega) 3

theorem outcome_base_ground (hbase : base.Resolved) (hbound : ∀ v r, base.get? v = some r → K v ∧ Q r)
    (hQ : InPlay K Q) (hs : Q s) (ht : Q t) (hground : s.hasHole = false ∨ t.hasHole = false) :
    Outcome (Matching K Q base) False { bindings := base } (fun θ => s.eval θ = t.eval θ)
      (unifyWithin (({ bindings := base } : Unifier).depthBound s t) s t { bindings := base }) := by
  have hmatching := matching_base hbound
  have hsizes := And.intro s.size_pos t.size_pos
  have hdepth : ∀ a b : Term, a = s ∧ b = t ∨ a = t ∧ b = s →
      3 * b.size + hops base a < ({ bindings := base } : Unifier).depthBound s t := by
    intro a b hab
    have hhops := hops_le base a
    have hle : 3 * b.size + 3 ≤ ({ bindings := base } : Unifier).depthBound s t := by
      refine three_mul_add_three_le_depthBound ?_
      rw [weight]
      rcases hab with ⟨-, rfl⟩ | ⟨-, rfl⟩ <;> omega
    omega
  rcases hground with hground | hground
  · rw [unifyWithin_comm hground]
    refine (outcome_unifyWithin_ground hbase hQ hmatching ht hs hground (hdepth t s (.inr ⟨rfl, rfl⟩))).congr ?_
    exact fun θ _ => eq_comm
  · exact outcome_unifyWithin_ground hbase hQ hmatching hs ht hground (hdepth s t (.inl ⟨rfl, rfl⟩))

theorem settled_of_matching (hbase : base.Resolved) (h : WellSpelled (equations base s t))
    (hground : s.hasHole = false ∨ t.hasHole = false) : Settled base s t := by
  obtain ⟨hs, ht, hbound⟩ := h.inPlay
  have hout := outcome_base_ground hbase hbound Term.inPlay_spelled hs ht hground
  cases hr : unifyWithin (({ bindings := base } : Unifier).depthBound s t) s t { bindings := base } with
  | none =>
    rw [hr] at hout
    exact hout.elim
  | some a =>
    obtain ⟨ok, u⟩ := a
    rw [hr] at hout
    refine settled_of_answer hr ?_ ?_
    · rintro rfl
      obtain ⟨hu, hsolves⟩ := hout
      exact extension_finish h (hu.finishes hbase h.namesOk _) hsolves hu.kept
    · rintro rfl
      exact not_unifies h hout

/-- Terms without mapped holes are unified as on top of nothing. -/
theorem settled_of_unmapped (hbase : base.Resolved) (h : WellSpelled (equations base s t))
    (hholes : ∀ x ∈ [s, t], ∀ w ∈ x.holeNames, base.get? w = none) : Settled base s t := by
  obtain ⟨hs, ht, hbound⟩ := h.inPlay
  -- the holes of the two terms
  let K : String → Prop := fun v => HoleOf (equations base s t) v ∧ base.get? v = none ∧
    (Term.findHole? (s :: t :: base.values) v).isSome
  have hspelled : ∀ x ∈ [s, t], x.Spelled (HoleOf (equations base s t)) (OtherOf (equations base s t)) →
      x.Spelled K (OtherOf (equations base s t)) := by
    intro x hx hspelled
    refine hspelled.mono fun w hw hKw => ⟨hKw, hholes x hx w hw, Term.isSome_findHole? ?_ hw⟩
    exact List.mem_append_left base.values hx
  replace hs := hspelled s (by simp) hs
  replace ht := hspelled t (by simp) ht
  have hready := ready_empty K (Term.Spelled K (OtherOf (equations base s t)))
  have hpool : (({} : Unifier).pool s t).length ≤ ({ bindings := base } : Unifier).weight s t := by
    have hempty : (({} : Unifier).pool s t).length = s.size + (t.size + 0) := Term.length_subtermsAll _
    rw [hempty, weight]
    omega
  obtain ⟨⟨ok, u⟩, hr⟩ := Option.isSome_iff_exists.1 (isSome_unifyWithin_of_pool hready hs ht hpool)
  have hrun := unifyWithin_frame (fun v hv => hv.2.1) Term.inPlay_spelled
    (({ bindings := base } : Unifier).depthBound s t) s t {} hready hs ht
  rw [hr, frame_empty] at hrun
  have hout := unifies_unifyWithin Term.inPlay_spelled
    (({ bindings := base } : Unifier).depthBound s t) s t {} hready hs ht
  rw [hr] at hout
  refine settled_of_answer hrun ?_ ?_
  · rintro rfl
    obtain ⟨hu, hsolves⟩ := hout
    have hfin := finishes_frame hbase (fun v hv => hv.2.1) hu (fun v hv => hv.1) h.namesOk hbound
      (nodesOk_findHole? (s :: t :: base.values)) fun v hv => hv.2.2
    refine extension_finish h hfin (fun θ => ?_) fun v r hr => get?_frame_of_some hr
    rw [solves_frame (fun v hv => hv.2.1) hu, hsolves]
    exact and_congr_right fun _ => and_iff_right (solves_empty θ)
  · rintro rfl
    exact not_unifies h fun θ _ => hout θ (solves_empty θ)

/-- A resolved substitution leaves no mapped holes in a term. -/
theorem spelled_subst_base (hbase : base.Resolved) (hKN : NamesOk K N)
    (hbound : ∀ v r, base.get? v = some r → K v ∧ r.Spelled K N) (ht : t.Spelled K N) :
    (t.subst base).Spelled (fun v => K v ∧ base.get? v = none) N := by
  refine ht.subst (fun x hx => ?_) (fun x hx => ?_) (fun v r _ hr => ?_) fun v hv hnone => ⟨hv, hnone⟩
  · obtain ⟨r, hr⟩ := Option.isSome_iff_exists.1 hx
    exact hKN.holes x (hbound x r hr).1
  · cases hr : base.get? x with
    | none => rfl
    | some r => exact absurd hx (hKN.apart x (hbound x r hr).1)
  · exact (hbound v r hr).2.mono fun w hw hKw => ⟨hKw, hbase v r hr w hw⟩

theorem wellSpelled_of_spelled {pairs : List (Term × Term)} (hKN : NamesOk K N)
    (h : ∀ p ∈ pairs, p.1.Spelled K N ∧ p.2.Spelled K N) : WellSpelled pairs := by
  have hsub : ∀ x ∈ subtermsOf pairs, x.head.text = x.name ∧ if x.isHole then K x.name else N x.name := by
    intro x hx
    obtain ⟨p, hp, hx⟩ := List.mem_flatMap.1 hx
    rcases List.mem_append.1 hx with hx | hx
    · exact (h p hp).1 x hx
    · exact (h p hp).2 x hx
  refine ⟨fun x hx => (hsub x hx).1, fun x hx => ?_, fun x hx y hy hxh hyh he => ?_⟩
  · have hname := (hsub x hx).2
    split at hname
    · exact hKN.holes _ hname
    · exact hKN.others _ hname
  · have hxname := (hsub x hx).2
    have hyname := (hsub y hy).2
    rw [hxh, if_pos rfl] at hxname
    rw [hyh, if_neg Bool.false_ne_true, ← he] at hyname
    exact hKN.apart _ hxname hyname

theorem settled_subst (hbase : base.Resolved) (h : WellSpelled (equations base s t)) :
    Settled base (s.subst base) (t.subst base) := by
  obtain ⟨hs, ht, hbound⟩ := h.inPlay
  have hspelled : ∀ x ∈ [s.subst base, t.subst base], x.Spelled
      (fun v => HoleOf (equations base s t) v ∧ base.get? v = none) (OtherOf (equations base s t)) := by
    simp only [List.forall_mem_cons]
    exact ⟨spelled_subst_base hbase h.namesOk hbound hs, spelled_subst_base hbase h.namesOk hbound ht, nofun⟩
  refine settled_of_unmapped hbase (wellSpelled_of_spelled h.namesOk (forall_mem_equations.2 ⟨⟨?_, ?_⟩, ?_⟩))
    fun x hx w hw => ((hspelled x hx).of_mem_holeNames hw).2
  · exact (hspelled _ (by simp)).mono fun w _ hw => hw.1
  · exact (hspelled _ (by simp)).mono fun w _ hw => hw.1
  · exact fun v r hr => ⟨Term.spelled_hole.2 (hbound v r hr).1, (hbound v r hr).2⟩

/-- Unification on top of a resolved substitution is right after that substitution has been applied to the
two terms. It is right without that if the terms of the substitution have no holes, or one of the two
terms has none; and also if no hole is mapped to another hole and there is a unifier. -/
theorem settled_unify (hbase : base.Resolved) (h : WellSpelled (equations base s t)) :
    Settled base (s.subst base) (t.subst base) ∧
      (((∀ v r, base.get? v = some r → r.hasHole = false) ∨ s.hasHole = false ∨ t.hasHole = false ∨
          (∀ v r, base.get? v = some r → r.isHole = false) ∧
            ∃ θ : Subst, θ.Spares (OtherOf (equations base s t)) ∧ θ.Unifies (equations base s t)) →
        Settled base s t) := by
  refine ⟨settled_subst hbase h, ?_⟩
  rintro (hground | hground | hground | ⟨hhole, θ, hθ, hunifies⟩)
  · exact settled_of_ground hbase h hground
  · exact settled_of_matching hbase h (.inl hground)
  · exact settled_of_matching hbase h (.inr hground)
  · exact settled_of_unifies hbase h hhole hθ hunifies

instance (pairs : List (Term × Term)) (x : String) : Decidable (OtherOf pairs x) :=
  inferInstanceAs (Decidable (∃ s ∈ subtermsOf pairs, s.isHole = false ∧ s.name = x))

end Unifier

/-! ### Bindings with holes -/

instance (K N : String → Prop) [DecidablePred K] [DecidablePred N] (t : Term) : Decidable (t.Spelled K N) :=
  inferInstanceAs (Decidable (∀ s ∈ t.subterms, _))

instance (θ : Subst) (pairs : List (Term × Term)) : Decidable (θ.Unifies pairs) :=
  inferInstanceAs (Decidable (∀ p ∈ pairs, _))

theorem Subst.spares_of_entries {θ : Subst} {N : String → Prop}
    (h : ∀ e ∈ θ.toList, IsWord e.1 ∧ e.2.Spelled IsWord IsWord ∧ ¬N e.1) : θ.Spares N where
  words x t ht := by
    obtain ⟨hx, hspelled, -⟩ := h (x, t) (NameMap.mem_toList.2 ht)
    exact ⟨hx, Term.words_eval hspelled (fun _ hn => hn) fun v hv => ⟨hv, trivial⟩⟩
  other x hx := by
    cases ht : θ.get? x with
    | none => rfl
    | some t => exact absurd hx (h (x, t) (NameMap.mem_toList.2 ht)).2.2

namespace Resuming

open OneType Unifier

def unfinished : Subst := .ofList [("A", join (hole "B") (var "x"))]

def filled : Subst := .ofList [("A", join (var "y") (var "x")), ("B", var "y"), ("C", var "x")]

/-- A hole for a hole. -/
def renamed : Subst := .ofList [("B", hole "A")]

theorem settled_unify_unfinished :
    (unfinished.Resolved ∧ WellSpelled (equations unfinished (hole "A") (join (var "y") (hole "C"))) ∧
      Settled unfinished (hole "A") (join (var "y") (hole "C")) ∧
      (Term.unify unfinished (hole "A") (join (var "y") (hole "C"))).isSome) ∧
    renamed.Resolved ∧
      WellSpelled (equations renamed (join (hole "B") (hole "B")) (join (hole "A") (var "x"))) ∧
      Settled renamed (join (hole "A") (hole "A")) (join (hole "A") (var "x")) := by
  have hhole : ∀ e ∈ unfinished.toList, e.2.isHole = false := by decide +kernel
  have hspares : filled.Spares (OtherOf (equations unfinished (hole "A") (join (var "y") (hole "C")))) :=
    Subst.spares_of_entries (by decide +kernel)
  have hresolved : unfinished.Resolved ∧ renamed.Resolved := by decide +kernel
  have hspelled : WellSpelled (equations unfinished (hole "A") (join (var "y") (hole "C"))) ∧
      WellSpelled (equations renamed (join (hole "B") (hole "B")) (join (hole "A") (var "x"))) := by
    decide +kernel
  refine ⟨⟨hresolved.1, hspelled.1, ?_, by decide +kernel⟩, hresolved.2, hspelled.2, ?_⟩
  · have hunifies : filled.Unifies (equations unfinished (hole "A") (join (var "y") (hole "C"))) := by
      decide +kernel
    refine (settled_unify hresolved.1 hspelled.1).2 (.inr (.inr (.inr ⟨?_, filled, hspares, hunifies⟩)))
    exact fun v r hr => hhole (v, r) (NameMap.mem_toList.2 hr)
  · exact (settled_unify hresolved.2 hspelled.2).1

end Resuming

theorem Unifier.bind_eq_none {rec : Term → Term → Unifier → Option (Bool × Unifier)} {u : Unifier} {v : String}
    {t old : Term} (hcycle : u.wouldCycle v t.holeNames = false) (hold : u.binding? v = some old)
    (hrec : rec old t u = none) : u.bind rec v t = none := by
  rw [bind, if_neg (by rw [hcycle]; exact Bool.false_ne_true), hold]
  dsimp only
  rw [hrec, Option.map_none]

namespace Looping

open OneType Resuming Unifier

/-- The state in which a hole and the hole it is bound to are identified. -/
def looped : Unifier := { bindings := renamed, classes := [.ofList ["A", "B"]] }

theorem unifyWithin_looped (n : Nat) : unifyWithin n (hole "A") (var "x") looped = none := by
  induction n with
  | zero => rfl
  | succ n ih =>
    change looped.bind (unifyWithin n) "A" (var "x") = none
    exact bind_eq_none (by decide +kernel) rfl ih

def nested : Subst := .ofList [("?a", wrap "f" (hole "?b"))]

/-- A cycle through a given binding is not seen, and the result is no unifier; and a hole that is
identified with the one it is bound to is looked up again and again, though there is a unifier. -/
theorem not_settled_unify :
    (nested.Resolved ∧ WellSpelled (equations nested (hole "?b") (wrap "g" (hole "?a"))) ∧
      ∃ σ, Term.unify nested (hole "?b") (wrap "g" (hole "?a")) = some σ ∧ ¬σ.Resolved ∧
        ((hole "?b").subst σ).key ≠ ((wrap "g" (hole "?a")).subst σ).key) ∧
    renamed.Resolved ∧
      WellSpelled (equations renamed (join (hole "B") (hole "B")) (join (hole "A") (var "x"))) ∧
      (∃ θ : Subst,
        θ.Spares (OtherOf (equations renamed (join (hole "B") (hole "B")) (join (hole "A") (var "x")))) ∧
        θ.Unifies (equations renamed (join (hole "B") (hole "B")) (join (hole "A") (var "x")))) ∧
      ∀ n, unifyWithin n (join (hole "B") (hole "B")) (join (hole "A") (var "x")) { bindings := renamed } =
        none := by
  refine ⟨⟨by decide +kernel, by decide +kernel, ?_⟩, by decide +kernel, by decide +kernel, ?_, fun n => ?_⟩
  · have hany : (Term.unify nested (hole "?b") (wrap "g" (hole "?a"))).any
        (fun σ => decide (¬σ.Resolved ∧
          ((hole "?b").subst σ).key ≠ ((wrap "g" (hole "?a")).subst σ).key)) = true := by decide +kernel
    obtain ⟨σ, hσ, hwrong⟩ := (Option.any_eq_true _ _).1 hany
    exact ⟨σ, hσ, of_decide_eq_true hwrong⟩
  · exact ⟨.ofList [("A", var "x"), ("B", var "x")], Subst.spares_of_entries (by decide +kernel),
      by decide +kernel⟩
  · cases n with
    | zero => rfl
    | succ n =>
      cases n with
      | zero => rfl
      | succ n =>
        change unifyPairs (unifyWithin (n + 1)) [(hole "B", hole "A"), (hole "B", var "x")]
          { bindings := renamed } = none
        have hfirst : unifyWithin (n + 1) (hole "B") (hole "A") { bindings := renamed } =
            some (true, looped) := rfl
        have hsecond : looped.bind (unifyWithin n) "B" (var "x") = none :=
          bind_eq_none (by decide +kernel) rfl (unifyWithin_looped n)
        rw [unifyPairs, hfirst]
        dsimp only
        rw [unifyPairs, show unifyWithin (n + 1) (hole "B") (var "x") looped = none from hsecond]

end Looping

end Sequitur
