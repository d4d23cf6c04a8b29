import Sequitur.Proofs.MostGeneral
import Sequitur.Proofs.Soundness

/-!
# Replaying any steps

A run takes steps one after another and skips those that prove nothing (`Goals.run`); the goals that a
checked proof leaves are those of such a run (`Thm.openGoals_prove`). The steps of a run may have holes,
be circular or bring back goals that were proved before. Still, if no goals are left in the end, those
at the start are entailed by what is assumed, however the holes of the steps are filled
(`Goals.entailed_of_run_eq_nil`).

The invariant is read backwards: if the goals after a step are entailed under a substitution, so are
those before it. That goals are compared by keys does no harm, as terms with the same key have the same
key under any substitution of words (`Term.key_subst_congr`).
-/

namespace Sequitur

namespace Tree

mutual
def decideWords : (t : Tree) → Decidable t.Words
  | .node name children => @instDecidableAnd (IsWord name) _ _ (decideWordsAll children)
def decideWordsAll : (ts : List Tree) → Decidable (WordsAll ts)
  | [] => .isTrue trivial
  | t :: ts => @instDecidableAnd _ _ (decideWords t) (decideWordsAll ts)
end

instance (t : Tree) : Decidable t.Words := t.decideWords

end Tree

namespace Term

variable {θ : Subst} {s t : Term}

/-- What a substitution of words makes of a term depends on the names of the term only. -/
theorem tree_subst (hθ : θ.OnWords) (t : Term) : (t.subst θ).tree = t.tree.fill (θ.value Unifier.leaf) := by
  have hleaf : ∀ (x : String) (l : Term), l.tree = .node x [] →
      ((θ.get? x).getD l).tree = θ.value Unifier.leaf x := by
    intro x l hl
    cases hx : θ.get? x with
    | none => rw [Subst.value_of_none hx, Option.getD_none, hl, Unifier.leaf]
    | some r => exact (Subst.value_of_some hx _).symm
  induction t using Term.ind with
  | var head span param => rw [subst_var, tree_var, Tree.fill_leaf, hleaf _ _ (tree_var ..)]
  | hole head span param => rw [subst_hole, tree_hole, Tree.fill_leaf, hleaf _ _ (tree_hole ..)]
  | app head span decl args ih =>
    by_cases hargs : args = []
    · -- the key of a constant is its name
      subst hargs
      rw [subst_app, tree_app, List.map_nil, List.map_nil, Tree.fill_leaf]
      exact hleaf _ _ (tree_app ..)
    · rw [subst_app_of_ne_nil hθ head span decl hargs, tree_app, tree_app,
        Tree.fill_node _ _ (by simpa using hargs), List.map_map, List.map_map]
      exact congrArg _ (List.map_congr_left ih)

theorem key_subst_congr (hθ : θ.OnWords) (hs : s.tree.Words) (ht : t.tree.Words) (h : s.key = t.key) :
    (s.subst θ).key = (t.subst θ).key := by
  refine key_eq_of_tree_eq ?_
  rw [tree_subst hθ, tree_subst hθ, tree_eq_of_key_eq hs ht h]

theorem subst_of_leafNames (hθ : θ.OnWords) (h : ∀ x ∈ t.leafNames, θ.get? x = none) : t.subst θ = t := by
  simp only [mem_leafNames] at h
  induction t using Term.ind with
  | var head span param => simp [h param.name.text ⟨_, List.mem_singleton.2 rfl, rfl⟩]
  | hole head span param => simp [h head.text ⟨_, List.mem_singleton.2 rfl, rfl⟩]
  | app head span decl args ih =>
    by_cases hargs : args = []
    · subst hargs
      simp [subst_app, h _ ⟨_, leaves_app_nil head span decl ▸ List.mem_singleton.2 rfl, rfl⟩]
    · rw [subst_app_of_ne_nil hθ head span decl hargs]
      refine congrArg _ ((List.map_congr_left fun a ha => ih a ha ?_).trans (List.map_id _))
      rintro x ⟨l, hl, rfl⟩
      refine h l.key ⟨l, ?_, rfl⟩
      rw [leaves_app_of_ne_nil head span decl hargs]
      exact List.mem_flatMap.2 ⟨a, ha, hl⟩

end Term

/-! ### Runs -/

namespace Goals

/-- The goals after steps; a step that proves none of the goals before it is skipped. -/
def run (assumed : NameSet) (current : List Term) : List Step → List Term
  | [] => current
  | s :: steps => run assumed ((advance assumed current s.targets s.assumptions).getD current) steps

end Goals

open Noted

/-- After each number of steps, the goals are those of a run of as many steps. -/
theorem Step.yields_goals_take (thm : Rule) (holes : Holes) (current : List Term) (steps : List Step) (n : Nat) :
    (replay thm holes current steps).Yields fun r =>
      (r.1.take n).getLast?.getD current =
        Goals.run (.ofList (Term.keys thm.assumptions)) current (steps.take n) := by
  induction steps generalizing current n with
  | nil => exact yields_pure (by simp [Goals.run])
  | cons step steps ih =>
    cases n with
    | zero => exact rfl
    | succ n =>
      rw [List.take_succ_cons]
      unfold replay Goals.run
      split
      · next goals hgoals =>
        refine yields_then fun _ => yields_bind (ih goals n) fun r hr => yields_pure ?_
        rw [List.take_succ_cons, List.getLast?_cons, hgoals]
        exact hr
      · next hnone =>
        refine yields_then fun _ => yields_bind (ih current n) fun r hr => yields_pure ?_
        rw [List.take_succ_cons, List.getLast?_cons, hnone]
        exact hr

theorem Step.yields_goals_replay (thm : Rule) (holes : Holes) (current : List Term) (steps : List Step) :
    (replay thm holes current steps).Yields fun r =>
      r.1.getLast?.getD current = Goals.run (.ofList (Term.keys thm.assumptions)) current steps := by
  have hlength : (replay thm holes current steps).value.1.length = steps.length :=
    (yields_length_replay holes current steps).1
  have htake : ((replay thm holes current steps).value.1.take steps.length).getLast?.getD current =
      Goals.run (.ofList (Term.keys thm.assumptions)) current (steps.take steps.length) :=
    yields_goals_take thm holes current steps steps.length
  rw [List.take_length, List.take_of_length_le (Nat.le_of_eq hlength)] at htake
  exact htake

/-- The goals that a proof leaves are those of a run of its steps on the targets. -/
theorem Thm.openGoals_prove (scope : Scope) (rule : Rule) (proof : List Expr) :
    (Thm.prove scope rule proof).Yields fun t => t.openGoals =
      Goals.run (.ofList (Term.keys t.rule.assumptions)) t.rule.targets t.proof := by
  unfold prove
  refine yields_then fun ((steps, _), table) => ?_
  refine yields_bind (Step.yields_goals_replay rule table.holes rule.targets steps) fun r hr => ?_
  exact yields_pure hr

/-! ### Entailment -/

/-- All names in what a step states are words. -/
structure Step.Worded (s : Step) : Prop where
  targets : ∀ t ∈ s.targets, t.tree.Words
  assumptions : ∀ a ∈ s.assumptions, a.tree.Words

namespace Goals

variable {θ : Subst} {hyps current : List Term} {steps : List Step}

/-- The least set of keys that holds those assumed and, together with the assumptions of a step under a
substitution, its targets under it. -/
inductive Entailed (assumed : NameSet) (steps : List Step) (θ : Subst) : String → Prop where
  | assumed {k : String} : k ∈ assumed → Entailed assumed steps θ k
  | step {s : Step} {t : Term} : s ∈ steps →
    (∀ a ∈ s.assumptions, Entailed assumed steps θ (a.subst θ).key) → t ∈ s.targets →
    Entailed assumed steps θ (t.subst θ).key

theorem byKey_entailed (hθ : θ.OnWords) (assumed : NameSet) (steps : List Step) :
    ByKey (fun t => t.tree.Words) fun t => Entailed assumed steps θ (t.subst θ).key := by
  refine ⟨fun s t hs ht he h => ?_⟩
  rwa [← Term.key_subst_congr hθ hs ht he]

/-- If no goals are left, all goals at the start are entailed under the substitution. -/
theorem entailed_subst_of_run (hθ : θ.OnWords) (hhyps : ∀ h ∈ hyps, h.tree.Words ∧ h.subst θ = h)
    {all : List Step} (hcurrent : ∀ t ∈ current, t.tree.Words) (hsteps : ∀ s ∈ steps, s ∈ all ∧ s.Worded)
    (hrun : run (.ofList (Term.keys hyps)) current steps = []) :
    ∀ t ∈ current, Entailed (.ofList (Term.keys hyps)) all θ (t.subst θ).key := by
  have hassumed : ∀ h ∈ hyps, h.tree.Words ∧ Entailed (.ofList (Term.keys hyps)) all θ (h.subst θ).key := by
    intro h hh
    refine ⟨(hhyps h hh).1, .assumed ?_⟩
    rw [(hhyps h hh).2, NameSet.mem_ofList, Term.keys_eq_map]
    exact List.mem_map_of_mem hh
  induction steps generalizing current with
  | nil =>
    have hnil : current = [] := hrun
    simp [hnil]
  | cons s steps ih =>
    obtain ⟨⟨hs, hwords⟩, hsteps⟩ := List.forall_mem_cons.1 hsteps
    rw [run] at hrun
    cases hadvance : advance (.ofList (Term.keys hyps)) current s.targets s.assumptions with
    | none =>
      rw [hadvance] at hrun
      exact ih hcurrent hsteps hrun
    | some goals =>
      rw [hadvance] at hrun
      have hgoals : ∀ t ∈ goals, t.tree.Words := by
        intro t ht
        rcases List.mem_append.1 (subset_of_advance hadvance ht) with ht | ht
        · exact hwords.assumptions t ht
        · exact hcurrent t ht
      exact of_advance (byKey_entailed hθ _ all) hassumed hcurrent hwords.targets hwords.assumptions
        (fun ha t ht => .step hs ha ht) hadvance (ih hgoals hsteps hrun)

/-- If no goals are left after some steps, then the goals at the start are entailed by what is assumed,
however holes are filled in the steps that occur neither in these goals nor in what is assumed: the
substitution may map any words that are not at the leaves of these terms. -/
theorem entailed_of_run_eq_nil (hcurrent : ∀ t ∈ current, t.tree.Words) (hhyps : ∀ h ∈ hyps, h.tree.Words)
    (hsteps : ∀ s ∈ steps, s.Worded) (hrun : run (.ofList (Term.keys hyps)) current steps = [])
    (hθ : θ.OnWords) (hfree : ∀ t ∈ current ++ hyps, ∀ x ∈ t.leafNames, θ.get? x = none) :
    ∀ t ∈ current, Entailed (.ofList (Term.keys hyps)) steps θ t.key := by
  have hsame : ∀ t ∈ current ++ hyps, t.subst θ = t := fun t ht => Term.subst_of_leafNames hθ (hfree t ht)
  intro t ht
  rw [← hsame t (List.mem_append_left _ ht)]
  refine entailed_subst_of_run hθ (fun h hh => ⟨hhyps h hh, ?_⟩) hcurrent (fun s hs => ⟨hs, hsteps s hs⟩)
    hrun t ht
  exact hsame h (List.mem_append_right _ hh)

end Goals

/-- A step with given statements. -/
def Step.stating (targets assumptions : List Term) : Step :=
  { head := default, args := [], span := {}, rule := ⟨default, [], [], [], [], {}⟩, targets, assumptions
    distinct := .ofGroups [], usesHole := false, violations := [], edits := [] }

namespace Roundabout

open OneType Step

/-- The second step proves a goal from itself, the third one proves nothing, and the hole `A` is left open. -/
def roundabout : List Step :=
  [stating [join (var "x") (var "y")] [hole "A", join (hole "A") (var "y")],
    stating [hole "A"] [hole "A"], stating [var "z"] [],
    stating [join (hole "A") (var "y")] [hole "A", var "x"], stating [hole "A"] [var "x"]]

theorem entailed_roundabout :
    Goals.run (.ofList (Term.keys [var "x"])) [join (var "x") (var "y")] roundabout = [] ∧
      Goals.Entailed (.ofList (Term.keys [var "x"])) roundabout (.ofList [("A", join (var "y") (var "y"))])
        "f(x,y)" := by
  have hrun : (Goals.run (.ofList (Term.keys [var "x"])) [join (var "x") (var "y")] roundabout).isEmpty := by
    decide +kernel
  have hrun := List.isEmpty_iff.1 hrun
  have hwords : ∀ s ∈ roundabout, (∀ t ∈ s.targets, t.tree.Words) ∧ ∀ a ∈ s.assumptions, a.tree.Words := by
    decide +kernel
  have hmapped : ∀ e ∈ (NameMap.ofList [("A", join (var "y") (var "y"))]).toList, IsWord e.1 := by
    decide +kernel
  refine ⟨hrun, Goals.entailed_of_run_eq_nil (by decide +kernel) (by decide +kernel)
    (fun s hs => ⟨(hwords s hs).1, (hwords s hs).2⟩) hrun (fun x hx => ?_) ?_ _ (List.mem_singleton.2 rfl)⟩
  · obtain ⟨t, ht⟩ := Option.isSome_iff_exists.1 hx
    exact hmapped (x, t) (NameMap.mem_toList.2 ht)
  · have hfree : ∀ t ∈ [join (var "x") (var "y")] ++ [var "x"], ∀ x ∈ t.leafNames.toList,
        ((NameMap.ofList [("A", join (var "y") (var "y"))]).get? x).isNone := by decide +kernel
    exact fun t ht x hx => Option.isNone_iff_eq_none.1 (hfree t ht x hx)

end Roundabout

end Sequitur
