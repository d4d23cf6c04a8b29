import Sequitur.Proofs.Ordering

/-!
# Exchanging steps

Two steps are independent if neither has a target that the other assumes. Where both are of use in either
order, the goals after the two are the same in either order, up to their own order
(`Goals.perm_exchange`). The steps may share targets and assumptions, and each may bring back what it
proves.

A step treats each key on its own: how often it is a goal afterwards depends only on how often it was one
before (`Goals.count_advance`). So steps are compared key by key, and goals that agree by key cannot be
told apart by any later steps (`Goals.perm_run`).
-/

namespace Sequitur

namespace Step

/-- How often a key that is not assumed is a goal after a step, if it was one `n` times before: a target is
gone, and what the step assumes is there. -/
def copies (s : Step) (k : String) (n : Nat) : Nat :=
  max (if k ∈ Term.keys s.targets then 0 else n) (if k ∈ Term.keys s.assumptions then 1 else 0)

/-- Neither step proves what the other one assumes. -/
structure Independent (a b : Step) : Prop where
  left : ∀ k ∈ Term.keys a.assumptions, k ∉ Term.keys b.targets
  right : ∀ k ∈ Term.keys b.assumptions, k ∉ Term.keys a.targets

theorem Independent.symm {a b : Step} (h : a.Independent b) : b.Independent a := ⟨h.right, h.left⟩

theorem copies_of_assumed {s : Step} {k : String} (h : k ∈ Term.keys s.assumptions) (n : Nat) :
    s.copies k n = max (if k ∈ Term.keys s.targets then 0 else n) 1 := by
  rw [copies, if_pos h]

theorem copies_of_not_assumed {s : Step} {k : String} (h : k ∉ Term.keys s.assumptions) (n : Nat) :
    s.copies k n = if k ∈ Term.keys s.targets then 0 else n := by
  rw [copies, if_neg h, Nat.max_zero]

/-- What `a` assumes stays a goal when `b` is taken, and is one after `a` in any case. -/
theorem Independent.copies_comm_of_assumed {a b : Step} (h : a.Independent b) {k : String}
    (ha : k ∈ Term.keys a.assumptions) (n : Nat) : a.copies k (b.copies k n) = b.copies k (a.copies k n) := by
  have htarget : k ∉ Term.keys b.targets := h.left k ha
  by_cases hb : k ∈ Term.keys b.assumptions
  · have htarget' : k ∉ Term.keys a.targets := h.right k hb
    simp only [copies_of_assumed ha, copies_of_assumed hb, if_neg htarget, if_neg htarget']
  · simp only [copies_of_assumed ha, copies_of_not_assumed hb, if_neg htarget]

theorem Independent.copies_comm {a b : Step} (h : a.Independent b) (k : String) (n : Nat) :
    a.copies k (b.copies k n) = b.copies k (a.copies k n) := by
  by_cases ha : k ∈ Term.keys a.assumptions
  · exact h.copies_comm_of_assumed ha n
  by_cases hb : k ∈ Term.keys b.assumptions
  · exact (h.symm.copies_comm_of_assumed hb n).symm
  · -- the key is gone if it is a target of either step
    simp only [copies_of_not_assumed ha, copies_of_not_assumed hb]
    split <;> split <;> rfl

end Step

namespace Goals

variable {assumed : NameSet} {current current' goals : List Term} {s : Step}

/-! ### One step -/

theorem count_added (assumed : NameSet) (seen : List String) (as : List Term) (k : String) :
    (Term.keys (added assumed seen as)).count k =
      if k ∈ assumed ∨ k ∈ seen then 0 else if k ∈ Term.keys as then 1 else 0 := by
  induction as generalizing seen with
  | nil => simp [added, Term.keys]
  | cons a as ih =>
    rw [added]
    split
    · next hknown =>
      have hknown : a.key ∈ assumed ∨ a.key ∈ seen := by simpa using hknown
      rw [ih, Term.keys]
      by_cases hk : k ∈ assumed ∨ k ∈ seen
      · rw [if_pos hk, if_pos hk]
      · have hne : k ≠ a.key := fun he => hk (he ▸ hknown)
        simp [hk, hne]
    · next hnew =>
      have hnew : a.key ∉ assumed ∧ a.key ∉ seen := by simpa using hnew
      rw [Term.keys, List.count_cons, ih, Term.keys]
      by_cases hk : k = a.key
      · subst hk
        simp [hnew]
      · have hk' : a.key ≠ k := fun he => hk he.symm
        simp [hk, hk']

/-- Assumptions are added to the goals that are left, each that is not there yet once. -/
theorem count_added_append (assumed : NameSet) (as rest : List Term) (k : String) :
    (Term.keys (added assumed (Term.keys rest) as ++ rest)).count k =
      if k ∈ assumed then (Term.keys rest).count k
      else max ((Term.keys rest).count k) (if k ∈ Term.keys as then 1 else 0) := by
  rw [Term.keys_eq_map, List.map_append, ← Term.keys_eq_map, ← Term.keys_eq_map, List.count_append, count_added]
  by_cases hassumed : k ∈ assumed
  · simp [hassumed]
  by_cases hrest : k ∈ Term.keys rest
  · have hpos : 0 < (Term.keys rest).count k := List.count_pos_iff.2 hrest
    simp only [hassumed, hrest, or_true, if_true, if_false]
    split <;> omega
  · simp [hassumed, hrest, List.count_eq_zero.2 hrest]

theorem count_rest (proved : List String) (assumed : NameSet) (current : List Term) (k : String) :
    (Term.keys (current.filter fun t => !proved.contains t.key && !assumed.contains t.key)).count k =
      if k ∈ assumed ∨ k ∈ proved then 0 else (Term.keys current).count k := by
  let kept (x : String) : Bool := !proved.contains x && !assumed.contains x
  have hkept : kept k = true ↔ ¬(k ∈ assumed ∨ k ∈ proved) := by simp [kept, and_comm]
  have hfilter : (current.map Term.key).filter kept = (current.filter (kept ∘ Term.key)).map Term.key :=
    List.filter_map
  rw [Term.keys_eq_map, Term.keys_eq_map]
  refine (congrArg (List.count k) hfilter).symm.trans ?_
  split
  · next hgone => exact List.count_eq_zero.2 fun hk => hkept.1 (List.of_mem_filter hk) hgone
  · next hleft => exact List.count_filter (hkept.2 hleft)

/-- How often a key is a goal after a step. -/
theorem count_advance (h : advance assumed current s.targets s.assumptions = some goals) (k : String) :
    (Term.keys goals).count k = if k ∈ assumed then 0 else s.copies k ((Term.keys current).count k) := by
  unfold advance at h
  dsimp only at h
  split at h
  · cases h
    rw [count_added_append, count_rest]
    by_cases hk : k ∈ assumed
    · simp [hk]
    · simp [hk, Step.copies]
  · cases h

theorem isSome_advance_congr (h : (Term.keys current).Perm (Term.keys current')) (s : Step) :
    (advance assumed current s.targets s.assumptions).isSome =
      (advance assumed current' s.targets s.assumptions).isSome := by
  have hmem : ∀ k, (∃ t ∈ current, k = t.key) ↔ ∃ t ∈ current', k = t.key := fun k => by
    simpa [Term.keys_eq_map, eq_comm] using h.mem_iff (a := k)
  rw [Bool.eq_iff_iff, isSome_advance, isSome_advance]
  simp only [hmem]

/-! ### Runs -/

/-- A step leads from goals that agree by key to such goals. -/
theorem perm_advance (h : (Term.keys current).Perm (Term.keys current')) (s : Step) :
    (Term.keys ((advance assumed current s.targets s.assumptions).getD current)).Perm
      (Term.keys ((advance assumed current' s.targets s.assumptions).getD current')) := by
  have hsome : (advance assumed current s.targets s.assumptions).isSome =
      (advance assumed current' s.targets s.assumptions).isSome := isSome_advance_congr h s
  cases hadvance : advance assumed current s.targets s.assumptions with
  | none =>
    rw [hadvance, Option.isSome_none, eq_comm, Option.isSome_eq_false_iff, Option.isNone_iff_eq_none] at hsome
    rw [hsome]
    exact h
  | some goals =>
    rw [hadvance, Option.isSome_some, eq_comm] at hsome
    obtain ⟨goals', hadvance'⟩ := Option.isSome_iff_exists.1 hsome
    rw [hadvance']
    refine List.perm_iff_count.2 fun k => ?_
    rw [Option.getD_some, Option.getD_some, count_advance hadvance, count_advance hadvance', h.count_eq k]

theorem perm_run (h : (Term.keys current).Perm (Term.keys current')) (steps : List Step) :
    (Term.keys (run assumed current steps)).Perm (Term.keys (run assumed current' steps)) := by
  induction steps generalizing current current' with
  | nil => exact h
  | cons s steps ih => exact ih (perm_advance h s)

/-- Independent steps can be exchanged: if both are of use in either order, then the same goals are left by
key, right after them and after any steps that follow. -/
theorem perm_exchange {a b : Step} (hind : a.Independent b) {afterA afterAB afterB afterBA : List Term}
    (ha : advance assumed current a.targets a.assumptions = some afterA)
    (hab : advance assumed afterA b.targets b.assumptions = some afterAB)
    (hb : advance assumed current b.targets b.assumptions = some afterB)
    (hba : advance assumed afterB a.targets a.assumptions = some afterBA) :
    (Term.keys afterAB).Perm (Term.keys afterBA) ∧
      ∀ steps, (Term.keys (run assumed current (a :: b :: steps))).Perm
        (Term.keys (run assumed current (b :: a :: steps))) := by
  have hperm : (Term.keys afterAB).Perm (Term.keys afterBA) := by
    refine List.perm_iff_count.2 fun k => ?_
    rw [count_advance hab, count_advance ha, count_advance hba, count_advance hb]
    split
    · rfl
    · exact (hind.copies_comm k _).symm
  refine ⟨hperm, fun steps => ?_⟩
  rw [run, ha, Option.getD_some, run, hab, Option.getD_some, run, hb, Option.getD_some, run, hba,
    Option.getD_some]
  exact perm_run hperm steps

end Goals

namespace Exchanging

open OneType Step

/-- It brings back what it proves. -/
def restoring : Step := stating [var "x"] [var "w", var "x", var "v"]

/-- It assumes a goal that is there twice, and the same new one. -/
def sharing : Step := stating [var "y", var "u"] [var "w", var "z"]

/-- One goal is there twice. -/
def crowded : List Term := [var "x", var "y", var "z", var "z"]

theorem perm_exchange_restoring :
    restoring.Independent sharing ∧
    (Goals.advance (.ofList ["v"]) crowded restoring.targets restoring.assumptions).bind
        (fun goals => Goals.advance (.ofList ["v"]) goals sharing.targets sharing.assumptions) =
      some [var "w", var "x", var "z", var "z"] ∧
    (Goals.advance (.ofList ["v"]) crowded sharing.targets sharing.assumptions).bind
        (fun goals => Goals.advance (.ofList ["v"]) goals restoring.targets restoring.assumptions) =
      some [var "x", var "w", var "z", var "z"] ∧
    (Term.keys [var "w", var "x", var "z", var "z"]).Perm (Term.keys [var "x", var "w", var "z", var "z"]) := by
  have ha : Goals.advance (.ofList ["v"]) crowded restoring.targets restoring.assumptions =
      some [var "w", var "x", var "y", var "z", var "z"] := rfl
  have hab : Goals.advance (.ofList ["v"]) [var "w", var "x", var "y", var "z", var "z"] sharing.targets
      sharing.assumptions = some [var "w", var "x", var "z", var "z"] := rfl
  have hb : Goals.advance (.ofList ["v"]) crowded sharing.targets sharing.assumptions =
      some [var "w", var "x", var "z", var "z"] := rfl
  have hba : Goals.advance (.ofList ["v"]) [var "w", var "x", var "z", var "z"] restoring.targets
      restoring.assumptions = some [var "x", var "w", var "z", var "z"] := rfl
  have hind : restoring.Independent sharing := ⟨by decide +kernel, by decide +kernel⟩
  refine ⟨hind, ?_, ?_, (Goals.perm_exchange hind ha hab hb hba).1⟩
  · rw [ha, Option.bind_some, hab]
  · rw [hb, Option.bind_some, hba]

end Exchanging

end Sequitur
