import Mathlib.Data.List.Basic
import Sequitur.Proofs.UnifierCalls

/-!
# Runs of the unifier

Unification can be called again and again on one state, on any terms, and a call that fails leaves
behind what it did up to there. Along every such run the classes stay disjoint, what a hole is bound
to is no hole and has its holes recorded, and no hole depends on itself (`Invariant`). So every
call comes to an end (`invariant_run`).

Consistent states are those of terms whose heads are their names. Unification compares heads and never
looks at the names of declarations, so for other terms the terms are respelled by their heads
(`Term.byHead`): the run on the respelled terms goes the same way (`unify_byHead`).
-/

namespace Sequitur

namespace Term

mutual
/-- The term whose names are its heads. -/
def byHead : Term → Term
  | .var head span param => .var head span { param with name := head }
  | .hole head span param => .hole head span param
  | .app head span decl args => .app head span { decl with name := head } (byHeadAll args)
def byHeadAll : List Term → List Term
  | [] => []
  | t :: ts => byHead t :: byHeadAll ts
end

theorem byHeadAll_eq_map (ts : List Term) : byHeadAll ts = ts.map byHead := by
  induction ts with
  | nil => rfl
  | cons t ts ih => simp [byHeadAll, ih]

@[simp] theorem head_byHead (t : Term) : t.byHead.head = t.head := by
  cases t <;> rfl

@[simp] theorem isHole_byHead (t : Term) : t.byHead.isHole = t.isHole := by
  cases t <;> rfl

@[simp] theorem args_byHead (t : Term) : t.byHead.args = t.args.map byHead := by
  cases t with
  | app head span decl args => exact byHeadAll_eq_map args
  | _ => rfl

theorem name_byHead (t : Term) : t.byHead.name = t.byHead.head.text := by
  cases t <;> rfl

theorem key_byHead {t : Term} (h : t.isHole = true) : t.byHead.key = t.key := by
  cases t with
  | hole head span param => rfl
  | _ => exact absurd h nofun

theorem holes_byHead (t : Term) : t.byHead.holes = t.holes := by
  induction t using Term.ind with
  | var head span param => rfl
  | hole head span param => rfl
  | app head span decl args ih =>
    rw [byHead, byHeadAll_eq_map, holes_app, holes_app, List.flatMap_map]
    exact List.flatMap_congr ih

@[simp] theorem holeNames_byHead (t : Term) : t.byHead.holeNames = t.holeNames := by
  rw [holeNames, holes_byHead, holeNames]

mutual
theorem size_byHead : ∀ t : Term, t.byHead.size = t.size
  | .var .. | .hole .. => rfl
  | .app _ _ _ args => congrArg (1 + ·) (sizes_byHeadAll args)
theorem sizes_byHeadAll : ∀ ts : List Term, sizes (byHeadAll ts) = sizes ts
  | [] => rfl
  | t :: ts => by rw [byHeadAll, sizes, sizes, size_byHead t, sizes_byHeadAll ts]
end

end Term

namespace Unifier

variable {u : Unifier} {v w : String} {s t : Term} {n : Nat}
variable {rec rec' : Term → Term → Unifier → Option (Bool × Unifier)}

/-! ### States by heads -/

/-- The state with its terms respelled. -/
def byHead (u : Unifier) : Unifier := { u with bindings := u.bindings.map fun _ t => t.byHead }

/-- An answer with its state respelled. -/
def answerByHead (r : Option (Bool × Unifier)) : Option (Bool × Unifier) :=
  r.map fun a => (a.1, a.2.byHead)

theorem get?_byHead (u : Unifier) (v : String) :
    u.byHead.bindings.get? v = (u.bindings.get? v).map Term.byHead :=
  NameMap.get?_map _ _ _

theorem binding?_byHead (u : Unifier) (v : String) :
    u.byHead.binding? v = (u.binding? v).map Term.byHead := by
  have hfind : ∀ vs : List String, vs.findSome? u.byHead.bindings.get? =
      (vs.findSome? u.bindings.get?).map Term.byHead := by
    intro vs
    induction vs with
    | nil => rfl
    | cons x vs ih =>
      rw [List.findSome?_cons, List.findSome?_cons, get?_byHead, ih]
      cases u.bindings.get? x <;> rfl
  rw [binding?, binding?, get?_byHead, Option.map_or, ← hfind]
  rfl

theorem depends_byHead (u : Unifier) (v w : String) : u.byHead.depends v w = u.depends v w :=
  depends_congr rfl rfl

theorem wouldCycle_byHead (u : Unifier) (v : String) (ws : NameSet) :
    u.byHead.wouldCycle v ws = u.wouldCycle v ws :=
  wouldCycle_congr rfl rfl

theorem map_answerByHead (r : Option (Bool × Unifier)) {g : Unifier → Unifier}
    (hg : ∀ u, (g u).byHead = g u.byHead) :
    answerByHead (r.map fun a => if a.1 then (true, g a.2) else (false, a.2)) =
      (answerByHead r).map fun a => if a.1 then (true, g a.2) else (false, a.2) := by
  cases r with
  | none => rfl
  | some a =>
    obtain ⟨ok, u⟩ := a
    cases ok with
    | false => rfl
    | true => exact congrArg (fun u' => some (true, u')) (hg u)

/-- Calls on respelled terms answer as those on the terms do. -/
def CommutesByHead (rec : Term → Term → Unifier → Option (Bool × Unifier)) : Prop :=
  ∀ s t u, rec s.byHead t.byHead u.byHead = answerByHead (rec s t u)

theorem bind_byHead (hrec : CommutesByHead rec) (u : Unifier) (v : String) (t : Term) :
    u.byHead.bind rec v t.byHead = answerByHead (u.bind rec v t) := by
  unfold bind
  simp only [wouldCycle_byHead, Term.holeNames_byHead, binding?_byHead]
  split
  · rfl
  cases u.binding? v with
  | none =>
    refine congrArg (fun u' => some (true, u')) ?_
    simp only [addDeps, byHead, NameMap.map_insert]
    rfl
  | some old =>
    simp only [Option.map_some, hrec old t u]
    exact (map_answerByHead _ (g := (·.addDeps v t.holeNames)) fun u => rfl).symm

theorem identify_byHead (hrec : CommutesByHead rec) (u : Unifier) (v w : String) :
    u.byHead.identify rec v w = answerByHead (u.identify rec v w) := by
  unfold identify
  simp only [depends_byHead, binding?_byHead]
  split
  · rfl
  split
  · rfl
  cases u.binding? v with
  | none => rfl
  | some s =>
    cases u.binding? w with
    | none => rfl
    | some t =>
      simp only [Option.map_some, hrec s t u]
      exact (map_answerByHead _ (g := (·.merge v w)) fun u => rfl).symm

theorem unifyPairs_byHead (hrec : CommutesByHead rec) (pairs : List (Term × Term)) (u : Unifier) :
    unifyPairs rec (pairs.map (Prod.map Term.byHead Term.byHead)) u.byHead =
      answerByHead (unifyPairs rec pairs u) := by
  induction pairs generalizing u with
  | nil => rfl
  | cons p pairs ih =>
    obtain ⟨s, t⟩ := p
    simp only [List.map_cons, Prod.map_apply, unifyPairs, hrec s t u]
    cases rec s t u with
    | none => rfl
    | some a =>
      obtain ⟨ok, u'⟩ := a
      cases ok with
      | false => rfl
      | true => exact ih u'

theorem commutesByHead_unifyWithin (n : Nat) : CommutesByHead (unifyWithin n) := by
  induction n with
  | zero => exact fun _ _ _ => rfl
  | succ n ih =>
    intro s t u
    rw [unifyWithin, unifyWithin, Term.isHole_byHead, Term.isHole_byHead]
    cases hs : s.isHole with
    | true =>
      cases ht : t.isHole with
      | true =>
        simp only [Term.key_byHead hs, Term.key_byHead ht]
        exact identify_byHead ih u s.key t.key
      | false =>
        simp only [Term.key_byHead hs]
        exact bind_byHead ih u s.key t
    | false =>
      cases ht : t.isHole with
      | true =>
        simp only [Term.key_byHead ht]
        exact bind_byHead ih u t.key s
      | false =>
        simp only [Term.head_byHead, Term.args_byHead, List.length_map, List.zip_map]
        split
        · exact unifyPairs_byHead ih _ u
        · rfl

theorem weight_byHead (u : Unifier) (s t : Term) : u.byHead.weight s.byHead t.byHead = u.weight s t := by
  have hsizes : Term.sizes u.byHead.bindings.values = Term.sizes u.bindings.values := by
    rw [← Term.sizes_byHeadAll u.bindings.values, Term.byHeadAll_eq_map]
    simp [byHead, NameMap.values, NameMap.map, Function.comp_def]
  have hsize : u.byHead.bindings.size = u.bindings.size := NameMap.size_map ..
  unfold weight
  rw [Term.size_byHead, Term.size_byHead, hsizes, hsize]
  rfl

theorem depthBound_byHead (u : Unifier) (s t : Term) :
    u.byHead.depthBound s.byHead t.byHead = u.depthBound s t := by
  rw [depthBound, weight_byHead, depthBound]

theorem unify_byHead (u : Unifier) (s t : Term) :
    u.byHead.unify s.byHead t.byHead = ((u.unify s t).1, (u.unify s t).2.byHead) := by
  rw [unify, unify, depthBound_byHead, commutesByHead_unifyWithin]
  cases unifyWithin (u.depthBound s t) s t u <;> rfl

/-! ### Depth -/

/-- `rec'` gives the answers that `rec` gives, and maybe more. -/
def Refines (rec rec' : Term → Term → Unifier → Option (Bool × Unifier)) : Prop :=
  ∀ s t u r, rec s t u = some r → rec' s t u = some r

theorem bind_refines (hrec : Refines rec rec') {r : Bool × Unifier} (h : u.bind rec v t = some r) :
    u.bind rec' v t = some r := by
  unfold bind at h ⊢
  dsimp only at h ⊢
  split
  · next hcycle => rwa [if_pos hcycle] at h
  next hcycle =>
  rw [if_neg hcycle] at h
  cases hold : u.binding? v with
  | none => rwa [hold] at h
  | some old =>
    rw [hold] at h
    obtain ⟨a, ha, he⟩ := Option.map_eq_some_iff.1 h
    exact Option.map_eq_some_iff.2 ⟨a, hrec old t u a ha, he⟩

theorem identify_refines (hrec : Refines rec rec') {r : Bool × Unifier} (h : u.identify rec v w = some r) :
    u.identify rec' v w = some r := by
  unfold identify at h ⊢
  split
  · next he => rwa [if_pos he] at h
  next he =>
  rw [if_neg he] at h
  split
  · next hdep => rwa [if_pos hdep] at h
  next hdep =>
  rw [if_neg hdep] at h
  cases hs : u.binding? v with
  | none => rwa [hs] at h
  | some s =>
    cases ht : u.binding? w with
    | none => rwa [hs, ht] at h
    | some t =>
      rw [hs, ht] at h
      obtain ⟨a, ha, he⟩ := Option.map_eq_some_iff.1 h
      exact Option.map_eq_some_iff.2 ⟨a, hrec s t u a ha, he⟩

theorem unifyPairs_refines (hrec : Refines rec rec') {pairs : List (Term × Term)} {r : Bool × Unifier}
    (h : unifyPairs rec pairs u = some r) : unifyPairs rec' pairs u = some r := by
  induction pairs generalizing u with
  | nil => exact h
  | cons p pairs ih =>
    rw [unifyPairs] at h ⊢
    cases hr : rec p.1 p.2 u with
    | none =>
      rw [hr] at h
      cases h
    | some a =>
      obtain ⟨ok, u'⟩ := a
      rw [hrec _ _ _ _ hr]
      rw [hr] at h
      cases ok with
      | false => exact h
      | true => exact ih h

/-- More depth gives no other answer. -/
theorem refines_unifyWithin_succ (n : Nat) : Refines (unifyWithin n) (unifyWithin (n + 1)) := by
  induction n with
  | zero => exact fun s t u r h => absurd h nofun
  | succ n ih =>
    intro s t u r h
    rw [unifyWithin] at h ⊢
    cases hs : s.isHole with
    | true =>
      rw [hs] at h
      cases ht : t.isHole with
      | true =>
        rw [ht] at h
        exact identify_refines ih h
      | false =>
        rw [ht] at h
        exact bind_refines ih h
    | false =>
      rw [hs] at h
      cases ht : t.isHole with
      | true =>
        rw [ht] at h
        exact bind_refines ih h
      | false =>
        rw [ht] at h
        dsimp only at h ⊢
        split
        · next hhead =>
          rw [if_pos hhead] at h
          exact unifyPairs_refines ih h
        · next hhead => rwa [if_neg hhead] at h

theorem refines_unifyWithin {m : Nat} (h : n ≤ m) : Refines (unifyWithin n) (unifyWithin m) := by
  induction h with
  | refl => exact fun s t u r hr => hr
  | step _ ih => exact fun s t u r hr => refines_unifyWithin_succ _ s t u r (ih s t u r hr)

/-! ### Runs -/

/-- What every state of a unifier has. -/
structure Invariant (u : Unifier) : Prop where
  disjoint : u.Disjoint
  notHole : ∀ v t, u.bindings.get? v = some t → t.isHole = false
  deps : ∀ v t, u.bindings.get? v = some t → ∀ w ∈ t.holeNames, w ∈ u.depsOf v
  acyclic : ∀ v, ¬u.Below v v

/-- The terms whose names are their heads. -/
def SpelledByHead (t : Term) : Prop := ∃ s : Term, t = s.byHead

theorem inPlay_spelledByHead : InPlay (fun _ => True) SpelledByHead where
  args := by
    rintro _ ⟨s, rfl⟩ a ha
    rw [Term.args_byHead] at ha
    obtain ⟨b, -, rfl⟩ := List.mem_map.1 ha
    exact ⟨b, rfl⟩
  head := by
    rintro _ ⟨s, rfl⟩
    exact s.name_byHead.symm
  hole _ _ _ := trivial

/-- A state that is consistent once its terms are spelled by their heads. -/
def ReadyByHead (u : Unifier) : Prop := u.byHead.Ready (fun _ => True) SpelledByHead

theorem ReadyByHead.invariant (h : u.ReadyByHead) : u.Invariant where
  disjoint := h.disjoint
  notHole v t ht := by
    rw [← Term.isHole_byHead]
    exact h.notHole v t.byHead (by rw [get?_byHead, ht]; rfl)
  deps v t ht := by
    rw [← Term.holeNames_byHead]
    exact h.deps v t.byHead (by rw [get?_byHead, ht]; rfl)
  acyclic v hv := by
    obtain ⟨θ, hθ, -⟩ := h.free (fun _ => .node "" []) fun _ _ _ => rfl
    rw [← depends_iff, ← depends_byHead, depends_iff] at hv
    exact Nat.lt_irrefl _ (h.size_of_below hθ hv)

theorem readyByHead_empty : ReadyByHead {} := ready_empty _ _

theorem ReadyByHead.unify (h : u.ReadyByHead) (s t : Term) : (u.unify s t).2.ReadyByHead := by
  have hready := ready_unify inPlay_spelledByHead h ⟨s, rfl⟩ ⟨t, rfl⟩
  rwa [unify_byHead] at hready

/-- Every call comes to an end before the bound, so any depth from there on gives its answer. -/
theorem ReadyByHead.unifyWithin_eq (h : u.ReadyByHead) (s t : Term) (hn : u.depthBound s t ≤ n) :
    unifyWithin n s t u = some (u.unify s t) := by
  have hsome := isSome_unifyWithin_depthBound inPlay_spelledByHead h ⟨s, rfl⟩ ⟨t, rfl⟩
  rw [depthBound_byHead, commutesByHead_unifyWithin, answerByHead, Option.isSome_map] at hsome
  obtain ⟨r, hr⟩ := Option.isSome_iff_exists.1 hsome
  rw [Unifier.unify, hr, refines_unifyWithin hn s t u r hr]
  rfl

/-- The state after calls on pairs of terms, one after another, whatever each of them gives. -/
def run (u : Unifier) (calls : List (Option Term × Option Term)) : Unifier :=
  calls.foldl (fun u c => (u.unify? c.1 c.2).2) u

theorem readyByHead_run (h : u.ReadyByHead) (calls : List (Option Term × Option Term)) :
    (u.run calls).ReadyByHead := by
  induction calls generalizing u with
  | nil => exact h
  | cons c calls ih =>
    refine ih ?_
    obtain ⟨s?, t?⟩ := c
    cases s? with
    | none => exact h
    | some s =>
      cases t? with
      | none => exact h
      | some t => exact h.unify s t

/-- Along every run from the empty state the invariant holds and every further call ends, with the same
answer at any depth from the bound on. -/
theorem invariant_run (calls : List (Option Term × Option Term)) :
    (run {} calls).Invariant ∧ ∀ s t n, (run {} calls).depthBound s t ≤ n →
      unifyWithin n s t (run {} calls) = some ((run {} calls).unify s t) := by
  have hready := readyByHead_run readyByHead_empty calls
  exact ⟨hready.invariant, fun s t n hn => hready.unifyWithin_eq s t hn⟩

end Unifier

end Sequitur
