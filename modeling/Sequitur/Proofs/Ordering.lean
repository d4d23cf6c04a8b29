import Sequitur.Proofs.Replaying
import Sequitur.Proofs.Suggesting

/-!
# Proofs in order

Steps are in order if whatever one of them assumes is assumed by the theorem or proved by a step after it.
Replaying such steps leaves no goals, if each goal at the start is proved by one of them
(`Rule.isProved_of_provedBy`). A step may still prove nothing, prove several goals at once, or bring back
goals that were proved before.

The invariant looks ahead: every goal is proved by a step that is still to come. A goal that a step leaves
is not one of its targets, so its own step is a later one; a new goal has a later step by the order.
-/

namespace Sequitur

namespace Goals

variable {assumed : NameSet} {current goals : List Term} {s : Step} {steps : List Step}

/-- One of the steps has a target with the key. -/
def Proves (steps : List Step) (k : String) : Prop := ∃ s ∈ steps, k ∈ Term.keys s.targets

/-- What a step assumes is assumed or proved by a later step. -/
def Ordered (assumed : NameSet) : List Step → Prop
  | [] => True
  | s :: steps => (∀ a ∈ s.assumptions, a.key ∈ assumed ∨ Proves steps a.key) ∧ Ordered assumed steps

instance (steps : List Step) (k : String) : Decidable (Proves steps k) :=
  inferInstanceAs (Decidable (∃ s ∈ steps, _))

instance decidableOrdered (assumed : NameSet) : (steps : List Step) → Decidable (Ordered assumed steps)
  | [] => .isTrue trivial
  | _ :: steps => @instDecidableAnd _ _ _ (decidableOrdered assumed steps)

theorem proves_cons {k : String} : Proves (s :: steps) k ↔ k ∈ Term.keys s.targets ∨ Proves steps k := by
  simp [Proves]

/-! ### One step -/

theorem key_not_mem_of_mem_added {seen : List String} {as : List Term} {a : Term}
    (h : a ∈ added assumed seen as) : a.key ∉ assumed := by
  induction as generalizing seen with
  | nil => exact absurd h List.not_mem_nil
  | cons b as ih =>
    rw [added] at h
    split at h
    · exact ih h
    · next hnew =>
      rcases List.mem_cons.1 h with rfl | h
      · rw [Bool.or_eq_true, not_or, NameSet.contains_iff] at hnew
        exact hnew.1
      · exact ih h

/-- A goal after a step is an assumption of it that is not assumed, or a goal that it did not prove. -/
theorem cases_of_mem_advance {targets assumptions : List Term} {t : Term}
    (h : advance assumed current targets assumptions = some goals) (ht : t ∈ goals) :
    t ∈ assumptions ∧ t.key ∉ assumed ∨ t ∈ current ∧ t.key ∉ Term.keys targets := by
  unfold advance at h
  dsimp only at h
  split at h
  · cases h
    rcases List.mem_append.1 ht with ht | ht
    · exact .inl ⟨added_subset _ _ _ ht, key_not_mem_of_mem_added ht⟩
    · obtain ⟨hcurrent, hleft⟩ := List.mem_filter.1 ht
      rw [Bool.and_eq_true, Bool.not_eq_true', ← Bool.not_eq_true, List.contains_iff_mem] at hleft
      exact .inr ⟨hcurrent, hleft.1⟩
  · cases h

/-- If all goals are proved by a step or later ones, those after the step are proved by later ones. -/
theorem proves_of_advance (hs : ∀ a ∈ s.assumptions, a.key ∈ assumed ∨ Proves steps a.key)
    (hcurrent : ∀ t ∈ current, Proves (s :: steps) t.key) :
    ∀ t ∈ (advance assumed current s.targets s.assumptions).getD current, Proves steps t.key := by
  have hlater : ∀ t ∈ current, t.key ∉ Term.keys s.targets → Proves steps t.key := fun t ht hk =>
    (proves_cons.1 (hcurrent t ht)).resolve_left hk
  intro t ht
  cases hadvance : advance assumed current s.targets s.assumptions with
  | none =>
    rw [hadvance, Option.getD_none] at ht
    refine hlater t ht fun hk => ?_
    -- a step with a goal among its targets is not useless
    obtain ⟨target, htarget, hkey⟩ := List.mem_map.1 (Term.keys_eq_map _ ▸ hk)
    have hsome : (advance assumed current s.targets s.assumptions).isSome :=
      isSome_advance.2 ⟨target, htarget, t, ht, hkey⟩
    rw [hadvance] at hsome
    exact absurd hsome Bool.false_ne_true
  | some goals =>
    rw [hadvance, Option.getD_some] at ht
    rcases cases_of_mem_advance hadvance ht with ⟨ha, hk⟩ | ⟨ht, hk⟩
    · exact (hs t ha).resolve_left hk
    · exact hlater t ht hk

/-! ### Runs -/

theorem run_eq_nil (hsteps : Ordered assumed steps) (hcurrent : ∀ t ∈ current, Proves steps t.key) :
    run assumed current steps = [] := by
  induction steps generalizing current with
  | nil => exact List.eq_nil_iff_forall_not_mem.2 fun t ht => absurd (hcurrent t ht) (by simp [Proves])
  | cons s steps ih =>
    obtain ⟨hs, hsteps⟩ := hsteps
    exact ih hsteps (proves_of_advance hs hcurrent)

end Goals

namespace Rule

/-- The steps prove all targets, and they are in order. -/
structure ProvedBy (rule : Rule) (steps : List Step) : Prop where
  targets : ∀ t ∈ rule.targets, Goals.Proves steps t.key
  ordered : Goals.Ordered (.ofList (Term.keys rule.assumptions)) steps

/-- A proof in order leaves no goals, and the theorem counts as proved. -/
theorem isProved_of_provedBy {rule : Rule} {steps : List Step} (h : rule.ProvedBy steps) :
    Goals.run (.ofList (Term.keys rule.assumptions)) rule.targets steps = [] ∧
    (∀ holes nameSuggestions, Thm.isProved ⟨rule, steps, (Step.replay rule holes rule.targets steps).value.1,
      (Step.replay rule holes rule.targets steps).value.2, nameSuggestions⟩ = true) ∧
    ∀ scope proof, (Thm.prove scope rule proof).value.proof = steps →
      (Thm.prove scope rule proof).value.isProved = true := by
  have hrun : Goals.run (.ofList (Term.keys rule.assumptions)) rule.targets steps = [] :=
    Goals.run_eq_nil h.ordered h.targets
  refine ⟨hrun, fun holes nameSuggestions => ?_, fun scope proof hproof => ?_⟩
  · have hgoals := Step.yields_goals_replay rule holes rule.targets steps
    exact List.isEmpty_iff.2 (hgoals.trans hrun)
  · have hgoals : (Thm.prove scope rule proof).value.openGoals = _ := Thm.openGoals_prove scope rule proof
    rw [(Thm.yields_prove scope rule proof).1, hproof] at hgoals
    exact List.isEmpty_iff.2 (hgoals.trans hrun)

end Rule

namespace Returning

open OneType Step

/-- Two targets, one of which is assumed too. -/
def pair : Rule :=
  { name := default, params := [], groups := [], span := {}
    targets := [join (var "x") (var "y"), var "x"]
    assumptions := [var "x"] }

/-- The second step brings back what the first proved, the third proves two goals, and the fourth none. -/
def returning : List Step :=
  [stating [join (var "x") (var "y")] [hole "A"],
    stating [hole "A"] [join (var "x") (var "y"), var "y", var "z"],
    stating [var "z", var "y", var "x"] [var "x"], stating [var "w"] [], stating [join (var "x") (var "y")] []]

theorem isProved_returning : pair.ProvedBy returning ∧
    Goals.run (.ofList (Term.keys pair.assumptions)) pair.targets returning = [] ∧
    Thm.isProved ⟨pair, returning, (Step.replay pair [] pair.targets returning).value.1,
      (Step.replay pair [] pair.targets returning).value.2, []⟩ = true ∧
    (Step.replay pair [] pair.targets returning).value.1.map Term.keys =
      [["A"], ["f(x,y)", "y", "z"], ["f(x,y)"], ["f(x,y)"], []] := by
  have hproved : pair.ProvedBy returning := ⟨by decide +kernel, by decide +kernel⟩
  obtain ⟨hrun, hreplay, -⟩ := Rule.isProved_of_provedBy hproved
  exact ⟨hproved, hrun, hreplay [] [], by decide +kernel⟩

end Returning

end Sequitur
