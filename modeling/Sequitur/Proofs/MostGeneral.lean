import Sequitur.Proofs.Substitution
import Sequitur.Proofs.UnifierCalls

/-!
# Most general unifiers

`Unifier.finish` turns the state after a run into a substitution. Closing the classes gives each hole
at most one term and keeps the solutions of the state; the rounds of `resolveWithin` put terms into
terms until no value holds a hole that is mapped. That the bound on the rounds is enough is seen on one
solution: along a chain of holes, each in the term of the one before, its values get smaller, so a
chain is no longer than the number of mapped holes, and every round makes chains shorter (`Unfolds`).

The result is a most general unifier of the pairs (`Unifier.mostGeneral_unifyAll`).
-/

namespace Sequitur

namespace Term

variable {K K' N : String → Prop} {θ : String → Tree} {σ : Subst} {t : Term} {v w : String}

/-! ### Names of holes and other names -/

theorem mem_holes {h : Term} : h ∈ t.holes ↔ h ∈ t.subterms ∧ h.isHole = true := by
  induction t using Term.ind with
  | var head span param =>
    refine ⟨nofun, fun ⟨hh, hhole⟩ => ?_⟩
    rw [List.mem_singleton.1 hh] at hhole
    exact absurd hhole nofun
  | hole head span param =>
    refine ⟨fun hh => ⟨hh, ?_⟩, And.left⟩
    rw [List.mem_singleton.1 hh]
    rfl
  | app head span decl args ih =>
    rw [holes_app, subterms, subtermsAll_eq_flatMap, List.mem_cons, List.mem_flatMap, List.mem_flatMap]
    constructor
    · rintro ⟨a, ha, hh⟩
      obtain ⟨hh, hhole⟩ := (ih a ha).1 hh
      exact ⟨.inr ⟨a, ha, hh⟩, hhole⟩
    · rintro ⟨rfl | ⟨a, ha, hh⟩, hhole⟩
      · exact absurd hhole nofun
      · exact ⟨a, ha, (ih a ha).2 ⟨hh, hhole⟩⟩

/-- Heads spell names; the names of holes are in `K`, all others in `N`. -/
def Spelled (K N : String → Prop) (t : Term) : Prop :=
  ∀ s ∈ t.subterms, s.head.text = s.name ∧ if s.isHole then K s.name else N s.name

theorem spelled_var {head : Token.Ref} {span : Span} {param : Param} :
    Spelled K N (.var head span param) ↔ head.text = param.name.text ∧ N param.name.text := by
  simp [Spelled, subterms, Term.head, name, isHole]

theorem spelled_hole {head : Token.Ref} {span : Span} {param : Param} :
    Spelled K N (.hole head span param) ↔ K head.text := by
  simp [Spelled, subterms, Term.head, name, isHole]

theorem spelled_app {head : Token.Ref} {span : Span} {decl : TermDecl} {args : List Term} :
    Spelled K N (.app head span decl args) ↔
      (head.text = decl.name.text ∧ N decl.name.text) ∧ ∀ a ∈ args, a.Spelled K N := by
  rw [Spelled, subterms, subtermsAll_eq_flatMap, List.forall_mem_cons]
  refine and_congr ?_ ?_
  · simp [Term.head, name, isHole]
  · constructor
    · exact fun h a ha s hs => h s (List.mem_flatMap.2 ⟨a, ha, hs⟩)
    · intro h s hs
      obtain ⟨a, ha, hs⟩ := List.mem_flatMap.1 hs
      exact h a ha s hs

theorem Spelled.mono (h : t.Spelled K N) (hK : ∀ w ∈ t.holeNames, K w → K' w) : t.Spelled K' N := by
  simp only [mem_holeNames] at hK
  induction t using Term.ind with
  | var head span param => exact spelled_var.2 (spelled_var.1 h)
  | hole head span param =>
    exact spelled_hole.2 (hK head.text (List.mem_singleton.2 rfl) (spelled_hole.1 h))
  | app head span decl args ih =>
    obtain ⟨hhead, hargs⟩ := spelled_app.1 h
    refine spelled_app.2 ⟨hhead, fun a ha => ih a ha (hargs a ha) fun w hw => hK w ?_⟩
    rw [holes_app, List.map_flatMap]
    exact List.mem_flatMap.2 ⟨a, ha, hw⟩

theorem Spelled.of_mem_holeNames (h : t.Spelled K N) (hw : w ∈ t.holeNames) : K w := by
  rw [mem_holeNames] at hw
  induction t using Term.ind with
  | var => exact absurd hw List.not_mem_nil
  | hole head span param =>
    rw [List.mem_singleton.1 hw]
    exact spelled_hole.1 h
  | app head span decl args ih =>
    rw [holes_app, List.map_flatMap] at hw
    obtain ⟨a, ha, hw⟩ := List.mem_flatMap.1 hw
    exact ih a ha ((spelled_app.1 h).2 a ha) hw

theorem Spelled.declNames (h : t.Spelled K N) : ∀ x ∈ t.declNames, N x := by
  induction t using Term.ind with
  | var => exact nofun
  | hole => exact nofun
  | app head span decl args ih =>
    obtain ⟨hhead, hargs⟩ := spelled_app.1 h
    intro x hx
    rw [declNames_app] at hx
    rcases List.mem_cons.1 hx with rfl | hx
    · exact hhead.2
    · obtain ⟨a, ha, hx⟩ := List.mem_flatMap.1 hx
      exact ih a ha (hargs a ha) x hx

theorem inPlay_spelled : Unifier.InPlay K (Spelled K N) where
  args t ht a ha := by
    cases t with
    | app head span decl args => exact (spelled_app.1 ht).2 a ha
    | _ => exact absurd ha List.not_mem_nil
  head t ht := (ht t (self_mem_subterms t)).1
  hole t ht hh := by
    cases t with
    | hole head span param => exact spelled_hole.1 ht
    | _ => exact absurd hh nofun

theorem words_eval (h : t.Spelled K N) (hN : ∀ x, N x → IsWord x) (hK : ∀ v, K v → (θ v).Words) :
    (t.eval θ).Words := by
  induction t using Term.ind with
  | var head span param => exact ⟨hN _ (spelled_var.1 h).2, trivial⟩
  | hole head span param => exact hK _ (spelled_hole.1 h)
  | app head span decl args ih =>
    obtain ⟨hhead, hargs⟩ := spelled_app.1 h
    rw [eval_app]
    refine ⟨hN _ hhead.2, Tree.wordsAll_iff.2 fun s hs => ?_⟩
    obtain ⟨a, ha, rfl⟩ := List.mem_map.1 hs
    exact ih a ha (hargs a ha)

end Term

/-! ### Substitutions -/

/-- The values that holes get under a substitution, from values of the holes that are left. -/
def Subst.value (σ : Subst) (θ : String → Tree) (v : String) : Tree :=
  ((σ.get? v).map (Term.eval θ)).getD (θ v)

theorem Subst.value_of_some {σ : Subst} {v : String} {s : Term} (h : σ.get? v = some s)
    (θ : String → Tree) : σ.value θ v = s.eval θ := by
  rw [value, h]
  rfl

theorem Subst.value_of_none {σ : Subst} {v : String} (h : σ.get? v = none) (θ : String → Tree) :
    σ.value θ v = θ v := by
  rw [value, h]
  rfl

namespace Term

variable {K K' N : String → Prop} {θ : String → Tree} {σ : Subst} {t : Term} {v w : String}

theorem Spelled.subst_eq_graft (h : t.Spelled K N) (hσ : σ.OnWords) (hN : ∀ x, N x → σ.get? x = none) :
    t.subst σ = t.graft σ :=
  Term.subst_eq_graft hσ fun x hx => hN x (h.declNames x hx)

/-- The value after a substitution is the value where the mapped holes have the values of their terms. -/
theorem eval_subst (h : t.Spelled K N) (hσ : σ.OnWords) (hN : ∀ x, N x → σ.get? x = none) :
    (t.subst σ).eval θ = t.eval (σ.value θ) := by
  rw [h.subst_eq_graft hσ hN]
  induction t using Term.ind with
  | var head span param => rw [graft_var, hN _ (spelled_var.1 h).2, Option.getD_none, eval_var, eval_var]
  | hole head span param =>
    rw [graft_hole, eval_hole]
    cases hv : σ.get? head.text with
    | none => exact (Subst.value_of_none hv θ).symm
    | some s => exact (Subst.value_of_some hv θ).symm
  | app head span decl args ih =>
    rw [graft_app, eval_app, eval_app, List.map_map]
    exact congrArg _ (List.map_congr_left fun a ha => ih a ha ((spelled_app.1 h).2 a ha))

theorem Spelled.subst (h : t.Spelled K N) (hσ : σ.OnWords) (hN : ∀ x, N x → σ.get? x = none)
    (hsome : ∀ v s, K v → σ.get? v = some s → s.Spelled K' N)
    (hnone : ∀ v, K v → σ.get? v = none → K' v) : (t.subst σ).Spelled K' N := by
  rw [h.subst_eq_graft hσ hN]
  induction t using Term.ind with
  | var head span param =>
    rw [graft_var, hN _ (spelled_var.1 h).2]
    exact spelled_var.2 (spelled_var.1 h)
  | hole head span param =>
    have hK := spelled_hole.1 h
    rw [graft_hole]
    cases hv : σ.get? head.text with
    | none => exact spelled_hole.2 (hnone _ hK hv)
    | some s => exact hsome _ s hK hv
  | app head span decl args ih =>
    obtain ⟨hhead, hargs⟩ := spelled_app.1 h
    rw [graft_app]
    refine spelled_app.2 ⟨hhead, fun b hb => ?_⟩
    obtain ⟨a, ha, rfl⟩ := List.mem_map.1 hb
    exact ih a ha (hargs a ha)

end Term

namespace Unifier

variable {K N : String → Prop} {θ : String → Tree} {u : Unifier} {σ τ : Subst} {c : NameSet}
  {node? : String → Option Term} {v w : String} {t : Term}

/-! ### Closing classes -/

theorem get?_insert_foldl (l : List String) (σ : Subst) (t : Term) (v : String) :
    (l.foldl (fun σ w => σ.insert w t) σ).get? v = if v ∈ l then some t else σ.get? v := by
  induction l generalizing σ with
  | nil => rfl
  | cons w l ih =>
    rw [List.foldl_cons, ih, NameMap.get?_insert]
    by_cases hl : v ∈ l <;> by_cases hw : v = w <;> simp [hl, hw]

/-- What a class maps its holes to: the first term of one of them, or else its first hole, which
itself stays unmapped. -/
def classTerm? (node? : String → Option Term) (σ : Subst) (c : NameSet) (v : String) : Option Term :=
  (c.toList.findSome? σ.get?).or ((c.toList.head?.bind node?).filter (·.key != v))

theorem get?_closeClass : (closeClass node? σ c).get? v =
    if v ∈ c then classTerm? node? σ c v else σ.get? v := by
  unfold closeClass classTerm?
  cases hc : c.toList.findSome? σ.get? with
  | some t => exact get?_insert_foldl c.toList σ t v
  | none =>
    have hnone : v ∈ c → σ.get? v = none := List.findSome?_eq_none_iff.1 hc v
    cases c.toList.head?.bind node? with
    | none =>
      by_cases hv : v ∈ c
      · rw [if_pos hv]
        exact hnone hv
      · rw [if_neg hv]
    | some t =>
      dsimp only
      rw [get?_insert_foldl]
      by_cases hv : v ∈ c
      · rw [if_pos hv]
        by_cases hk : v = t.key
        · rw [if_neg (by simp [← hk]), hnone hv]
          simp [Option.filter, ← hk]
        · rw [if_pos (List.mem_filter.2 ⟨hv, by simpa using hk⟩)]
          simp [Option.filter, Ne.symm hk]
      · rw [if_neg hv, if_neg fun h => hv (List.mem_filter.1 h).1]

/-- Closing a class depends on nothing outside of it. -/
theorem classTerm?_congr (h : ∀ x ∈ c, σ.get? x = τ.get? x) :
    classTerm? node? σ c v = classTerm? node? τ c v := by
  have hlist : c.toList.findSome? σ.get? = c.toList.findSome? τ.get? := findSome?_congr h
  rw [classTerm?, classTerm?, hlist]

/-- The substitution of a state before its terms are put into one another. -/
def closed (u : Unifier) (node? : String → Option Term) : Subst :=
  u.classes.foldl (closeClass node?) u.bindings

theorem get?_closeClasses {cs : List NameSet} (hcs : cs.Pairwise fun c d => ∀ v ∈ c, v ∉ d) :
    (cs.foldl (closeClass node?) σ).get? v =
      match cs.find? (·.contains v) with
      | some c => classTerm? node? σ c v
      | none => σ.get? v := by
  induction cs generalizing σ with
  | nil => rfl
  | cons c cs ih =>
    obtain ⟨hc, hcs⟩ := List.pairwise_cons.1 hcs
    rw [List.foldl_cons, ih hcs]
    cases hfind : cs.find? (·.contains v) with
    | some d =>
      have hvd : v ∈ d := by simpa using List.find?_some hfind
      have hd := List.mem_of_find?_eq_some hfind
      have hvc : c.contains v = false := NameSet.contains_eq_false.2 fun hvc => hc d hd v hvc hvd
      rw [List.find?_cons, hvc, hfind]
      refine classTerm?_congr fun x hx => ?_
      rw [get?_closeClass, if_neg fun hxc => hc d hd x hxc hx]
    | none =>
      rw [List.find?_cons]
      dsimp only
      rw [get?_closeClass]
      by_cases hvc : v ∈ c
      · rw [if_pos hvc, NameSet.contains_iff.2 hvc]
      · rw [if_neg hvc, NameSet.contains_eq_false.2 hvc, hfind]

/-- Names lead to the holes that have them, if to any. -/
def NodesOk (node? : String → Option Term) : Prop :=
  ∀ v h, node? v = some h → h.isHole = true ∧ h.key = v

theorem nodesOk_findHole? (ts : List Term) : NodesOk (Term.findHole? ts) := by
  intro v h hh
  have hmem := List.mem_of_find?_eq_some hh
  rw [Term.holesAll_eq_flatMap] at hmem
  obtain ⟨t, -, hh'⟩ := List.mem_flatMap.1 hmem
  exact ⟨(Term.mem_holes.1 hh').2, by simpa using List.find?_some hh⟩

theorem get?_closed (hu : u.Disjoint) (hnode : NodesOk node?) (v : String) :
    (u.closed node?).get? v = classTerm? node? u.bindings (u.members v) v := by
  rw [closed, get?_closeClasses hu, members]
  cases u.classes.find? (·.contains v) with
  | some c => rfl
  | none =>
    have hlist : (NameSet.ofList [v]).toList = [v] := rfl
    have hself : (node? v).filter (·.key != v) = none := by
      rw [Option.filter_eq_none_iff]
      intro h hh
      simp [(hnode v h hh).2]
    simp [classTerm?, hlist, hself]

theorem exists_head?_members (u : Unifier) (v : String) : ∃ r, (u.members v).toList.head? = some r := by
  cases h : (u.members v).toList with
  | nil =>
    have := u.self_mem_members v
    rw [← NameSet.mem_toList, h] at this
    exact absurd this List.not_mem_nil
  | cons r l => exact ⟨r, rfl⟩

theorem Ready.members (hu : u.Ready K (Term.Spelled K N)) (hw : w ∈ u.members v) :
    w = v ∨ K v ∧ K w := by
  rcases (mem_members_iff hu.disjoint).1 hw with rfl | ⟨c, hc, hv, hw⟩
  · exact .inl rfl
  · exact .inr ⟨hu.classes c hc v hv, hu.classes c hc w hw⟩

/-- A hole is mapped to a term of its class, or to the first hole of its class if none has a term. -/
theorem get?_closed_eq_some (hu : u.Ready K (Term.Spelled K N)) (hnode : NodesOk node?)
    (h : (u.closed node?).get? v = some t) :
    (∃ p ∈ u.members v, u.bindings.get? p = some t) ∨
      t.isHole = true ∧ t.key ∈ u.members v ∧ t.key ≠ v ∧ u.binding? v = none ∧
        (u.members v).toList.head? = some t.key := by
  rw [get?_closed hu.disjoint hnode, classTerm?] at h
  rcases Option.or_eq_some_iff.1 h with h | ⟨hnone, h⟩
  · exact .inl (List.exists_of_findSome?_eq_some h)
  · obtain ⟨h, hk⟩ := Option.filter_eq_some_iff.1 h
    obtain ⟨r, hr, h⟩ := Option.bind_eq_some_iff.1 h
    obtain ⟨hhole, rfl⟩ := hnode r t h
    refine .inr ⟨hhole, List.mem_of_mem_head? hr, by simpa using hk, ?_, hr⟩
    exact binding?_eq_none.2 (List.findSome?_eq_none_iff.1 hnone)

theorem get?_closed_eq_none (hu : u.Ready K (Term.Spelled K N)) (hnode : NodesOk node?)
    (hK : ∀ v, K v → (node? v).isSome) :
    (u.closed node?).get? v = none ↔ u.binding? v = none ∧ (u.members v).toList.head? = some v := by
  rw [get?_closed hu.disjoint hnode, classTerm?, Option.or_eq_none_iff, List.findSome?_eq_none_iff,
    binding?_eq_none]
  refine and_congr_right fun _ => ?_
  obtain ⟨r, hr⟩ := u.exists_head?_members v
  rw [hr, Option.bind_some, Option.filter_eq_none_iff, Option.some.injEq]
  constructor
  · intro h
    rcases hu.members (List.mem_of_mem_head? hr) with hrv | ⟨-, hKr⟩
    · exact hrv
    · obtain ⟨s, hs⟩ := Option.isSome_iff_exists.1 (hK r hKr)
      have := h s hs
      rw [(hnode r s hs).2] at this
      simpa using this
  · rintro rfl s hs
    simp [(hnode r s hs).2]

/-! ### Rounds of substitution -/

/-- Names are words, and no hole has the name of something else. -/
structure NamesOk (K N : String → Prop) : Prop where
  holes : ∀ v, K v → IsWord v
  others : ∀ x, N x → IsWord x
  apart : ∀ v, K v → ¬N v

/-- After `k` rounds: ranks fall by more than `k` from a mapped hole to the mapped holes in its term.
The domain `D` and the solutions `S` are those of the substitution at the start. -/
structure Unfolds (K N : String → Prop) (S : (String → Tree) → Prop) (D : String → Prop)
    (rank : String → Nat) (k : Nat) (σ : Subst) : Prop where
  domain : ∀ v, (σ.get? v).isSome ↔ D v
  key : ∀ v, D v → K v
  spelled : ∀ v t, σ.get? v = some t → t.Spelled (fun w => K w ∧ (D w → rank w + k < rank v)) N
  value : ∀ θ, S θ → ∀ v t, σ.get? v = some t → θ v = t.eval θ

namespace Unfolds

variable {S : (String → Tree) → Prop} {D : String → Prop} {rank : String → Nat} {k : Nat}

theorem get?_eq_none_iff (h : Unfolds K N S D rank k σ) : σ.get? v = none ↔ ¬D v := by
  rw [← h.domain, Option.not_isSome_iff_eq_none]

theorem onWords (h : Unfolds K N S D rank k σ) (hKN : NamesOk K N) : σ.OnWords :=
  fun x hx => hKN.holes x (h.key x ((h.domain x).1 hx))

theorem get?_other (h : Unfolds K N S D rank k σ) (hKN : NamesOk K N) :
    ∀ x, N x → σ.get? x = none := by
  intro x hx
  exact h.get?_eq_none_iff.2 fun hD => hKN.apart x (h.key x hD) hx

theorem value_eq (h : Unfolds K N S D rank k σ) (hθ : S θ) : σ.value θ = θ := by
  funext v
  cases hv : σ.get? v with
  | none => exact Subst.value_of_none hv θ
  | some t => rw [Subst.value_of_some hv, h.value θ hθ v t hv]

theorem round (h : Unfolds K N S D rank k σ) (hKN : NamesOk K N) :
    Unfolds K N S D rank (k + 1) (σ.map fun _ t => t.subst σ) where
  domain v := by rw [NameMap.get?_map, Option.isSome_map, h.domain]
  key := h.key
  spelled v s hs := by
    rw [NameMap.get?_map] at hs
    obtain ⟨t, ht, rfl⟩ := Option.map_eq_some_iff.1 hs
    refine (h.spelled v t ht).subst (h.onWords hKN) (h.get?_other hKN) ?_ ?_
    · intro w s hw hs
      have hrank := hw.2 ((h.domain w).1 (Option.isSome_of_eq_some hs))
      refine (h.spelled w s hs).mono fun x _ hx => ⟨hx.1, fun hD => ?_⟩
      have := hx.2 hD
      omega
    · exact fun w hw hs => ⟨hw.1, fun hD => absurd hD (h.get?_eq_none_iff.1 hs)⟩
  value θ hθ v s hs := by
    rw [NameMap.get?_map] at hs
    obtain ⟨t, ht, rfl⟩ := Option.map_eq_some_iff.1 hs
    rw [Term.eval_subst (h.spelled v t ht) (h.onWords hKN) (h.get?_other hKN), h.value_eq hθ]
    exact h.value θ hθ v t ht

theorem resolveWithin (h : Unfolds K N S D rank k σ) (hKN : NamesOk K N) (n : Nat) :
    Unfolds K N S D rank (k + n) (resolveWithin n σ) := by
  induction n generalizing k σ with
  | zero => exact h
  | succ n ih =>
    rw [resolveWithin_succ, Nat.add_comm n, ← Nat.add_assoc]
    exact ih (h.round hKN)

end Unfolds

/-- The mapped holes with smaller values. -/
def rank (σ : Subst) (θ : String → Tree) (v : String) : Nat :=
  σ.keys.countP fun x => decide ((θ x).size < (θ v).size)

theorem rank_lt (hw : (σ.get? w).isSome) (h : (θ w).size < (θ v).size) : rank σ θ w < rank σ θ v := by
  obtain ⟨t, ht⟩ := Option.isSome_iff_exists.1 hw
  have hmem : w ∈ σ.keys := List.mem_map.2 ⟨(w, t), NameMap.mem_toList.2 ht, rfl⟩
  refine countP_lt_countP hmem (fun x _ hx => ?_) (decide_eq_true h) (by simp)
  simp only [decide_eq_true_eq] at hx ⊢
  omega

theorem rank_le (σ : Subst) (θ : String → Tree) (v : String) : rank σ θ v ≤ σ.size :=
  calc rank σ θ v ≤ σ.keys.length := List.countP_le_length
    _ = σ.size := List.length_map ..

theorem unfolds_closed (hu : u.Ready K (Term.Spelled K N)) (hnode : NodesOk node?)
    (hK : ∀ v, K v → (node? v).isSome) (hθ : u.Solves θ) :
    Unfolds K N u.Solves (fun v => ((u.closed node?).get? v).isSome) (rank (u.closed node?) θ) 0
      (u.closed node?) where
  domain v := Iff.rfl
  key v hv := by
    obtain ⟨t, ht⟩ := Option.isSome_iff_exists.1 hv
    rcases get?_closed_eq_some hu hnode ht with ⟨p, hp, hpt⟩ | ⟨-, hm, hne, -⟩
    · rcases hu.members hp with rfl | hKvp
      · exact (hu.bound p t hpt).1
      · exact hKvp.1
    · exact ((hu.members hm).resolve_left hne).1
  spelled v t ht := by
    rcases get?_closed_eq_some hu hnode ht with ⟨p, hp, ht⟩ | ⟨hhole, hm, hne, hnone, hhead⟩
    · refine (hu.bound p t ht).2.mono fun w hw hKw => ⟨hKw, fun hD => ?_⟩
      refine rank_lt hD ?_
      rw [← hθ.classes v p hp, hθ.bindings p t ht]
      exact Term.size_lt_of_mem_holeNames hw (hu.notHole p t ht) θ
    · -- the first hole of an unbound class is not mapped
      have hmembers := members_eq hu.disjoint hm
      have hfirst : (u.closed node?).get? t.key = none := by
        refine (get?_closed_eq_none hu hnode hK).2 ⟨binding?_eq_none.2 ?_, ?_⟩
        · rw [hmembers]
          exact binding?_eq_none.1 hnone
        · rw [hmembers, hhead]
      cases t with
      | hole head span param =>
        refine Term.spelled_hole.2 ⟨((hu.members hm).resolve_left hne).2, fun hD => ?_⟩
        rw [Term.key_hole] at hfirst
        rw [hfirst] at hD
        exact absurd hD nofun
      | _ => exact absurd hhole nofun
  value θ hθ v t ht := by
    rcases get?_closed_eq_some hu hnode ht with ⟨p, hp, ht⟩ | ⟨hhole, hm, -⟩
    · rw [← hθ.classes v p hp, hθ.bindings p t ht]
    · rw [Term.eval_of_isHole hhole, hθ.classes v _ hm]

/-! ### The result -/

def leaf (v : String) : Tree := .node v []

/-- A substitution that has the solutions of a state, and is one of them. -/
structure Finishes (K N : String → Prop) (u : Unifier) (σ : Subst) : Prop where
  key : ∀ v t, σ.get? v = some t → K v
  spelled : ∀ v t, σ.get? v = some t → t.Spelled (fun w => K w ∧ σ.get? w = none) N
  value : ∀ θ, u.Solves θ → ∀ v t, σ.get? v = some t → θ v = t.eval θ
  solves : u.Solves (σ.value leaf)

/-- After enough rounds the substitution is the solution that leaves unmapped holes as they are. -/
theorem Unfolds.finishes {D : String → Prop} {rank : String → Nat} {k : Nat}
    (h : Unfolds K N u.Solves D rank k σ) (hrank : ∀ v, D v → rank v ≤ k) (hθ : u.Solves θ)
    (hleaf : ∀ v, ¬D v → θ v = leaf v) : Finishes K N u σ := by
  have hD : ∀ {v t}, σ.get? v = some t → D v := fun ht => (h.domain _).1 (Option.isSome_of_eq_some ht)
  -- ranks are too small for another mapped hole
  have hspelled : ∀ v t, σ.get? v = some t → t.Spelled (fun w => K w ∧ σ.get? w = none) N := by
    intro v t ht
    refine (h.spelled v t ht).mono fun w _ hw => ⟨hw.1, h.get?_eq_none_iff.2 fun hDw => ?_⟩
    have hlt := hw.2 hDw
    have hle := hrank v (hD ht)
    omega
  refine ⟨fun v t ht => h.key v (hD ht), hspelled, h.value, ?_⟩
  -- the solution is what the substitution gives
  have heq : σ.value leaf = θ := by
    funext v
    cases hv : σ.get? v with
    | none => rw [Subst.value_of_none hv, hleaf v (h.get?_eq_none_iff.1 hv)]
    | some t =>
      rw [Subst.value_of_some hv, h.value θ hθ v t hv]
      refine Term.eval_congr fun w hw => (hleaf w ?_).symm
      exact h.get?_eq_none_iff.1 ((hspelled v t hv).of_mem_holeNames (Term.mem_holeNames.2 hw)).2
  rw [heq]
  exact hθ

/-- The value at a class, each unbound class standing for its first hole. -/
def firstLeaf (u : Unifier) (v : String) : Tree := leaf (((u.members v).toList.head?).getD v)

theorem respects_firstLeaf (hu : u.Disjoint) : u.Respects u.firstLeaf := by
  intro v w hw
  obtain ⟨r, hr⟩ := u.exists_head?_members v
  rw [firstLeaf, firstLeaf, members_eq hu hw, hr]
  rfl

theorem finishes_finish (hu : u.Ready K (Term.Spelled K N)) (hKN : NamesOk K N) (hnode : NodesOk node?)
    (hK : ∀ v, K v → (node? v).isSome) : Finishes K N u (u.finish node?) := by
  obtain ⟨θ, hθ, hfree⟩ := hu.free u.firstLeaf (respects_firstLeaf hu.disjoint)
  have hrounds := (unfolds_closed hu hnode hK hθ).resolveWithin hKN ((u.closed node?).size + 1)
  rw [Nat.zero_add] at hrounds
  refine Unfolds.finishes hrounds (fun v _ => ?_) hθ fun v hv => ?_
  · exact Nat.le_succ_of_le (rank_le (u.closed node?) θ v)
  · obtain ⟨hb, hr⟩ := (get?_closed_eq_none hu hnode hK).1 (Option.not_isSome_iff_eq_none.1 hv)
    rw [hfree v hb, firstLeaf, hr]
    rfl

/-! ### Lists of pairs -/

/-- Unifies the pairs in their order; `none` if one of them fails. -/
def unifyAll (pairs : List (Term × Term)) : Option Unifier :=
  match unifyPairs (fun s t u => some (u.unify s t)) pairs {} with
  | some (true, u) => some u
  | _ => none

/-- After success the solutions are those that make all pairs equal; after failure there are none. -/
theorem unifyAll_outcome {Q : Term → Prop} (hQ : InPlay K Q) {pairs : List (Term × Term)}
    (hpairs : ∀ p ∈ pairs, Q p.1 ∧ Q p.2) :
    match unifyAll pairs with
    | some u => u.Ready K Q ∧ ∀ θ, u.Solves θ ↔ ∀ p ∈ pairs, p.1.eval θ = p.2.eval θ
    | none => ∀ θ, ¬∀ p ∈ pairs, p.1.eval θ = p.2.eval θ := by
  have hout : Outcome (Ready K Q) False {} _ (unifyPairs (fun s t u => some (u.unify s t)) pairs {}) :=
    .unifyPairs (ready_empty K Q) fun p hp u hu => outcome_unify hQ hu (hpairs p hp).1 (hpairs p hp).2
  unfold unifyAll
  cases h : unifyPairs (fun s t u => some (u.unify s t)) pairs {} with
  | none =>
    rw [h] at hout
    exact hout.elim
  | some r =>
    rw [h] at hout
    obtain ⟨ok, u⟩ := r
    cases ok with
    | false => exact fun θ => hout θ (solves_empty θ)
    | true => exact ⟨hout.1, fun θ => (hout.2 θ).trans (and_iff_right (solves_empty θ))⟩

theorem isSome_unifyAll_iff {Q : Term → Prop} (hQ : InPlay K Q) {pairs : List (Term × Term)}
    (hpairs : ∀ p ∈ pairs, Q p.1 ∧ Q p.2) :
    (unifyAll pairs).isSome ↔ ∃ θ, ∀ p ∈ pairs, p.1.eval θ = p.2.eval θ := by
  have hout := unifyAll_outcome hQ hpairs
  cases h : unifyAll pairs with
  | none =>
    rw [h] at hout
    exact ⟨fun hn => absurd hn Bool.false_ne_true, fun ⟨θ, hθ⟩ => absurd hθ (hout θ)⟩
  | some u =>
    rw [h] at hout
    obtain ⟨θ, hθ, -⟩ := hout.1.free (fun _ => leaf "") fun _ _ _ => rfl
    exact ⟨fun _ => ⟨θ, (hout.2 θ).1 hθ⟩, fun _ => rfl⟩

/-- Success depends on which terms are paired, and on nothing else. -/
theorem isSome_unifyAll_congr {Q : Term → Prop} (hQ : InPlay K Q) {pairs pairs' : List (Term × Term)}
    (hpairs : ∀ p ∈ pairs, Q p.1 ∧ Q p.2)
    (hsame : ∀ s t, (s, t) ∈ pairs' ∨ (t, s) ∈ pairs' ↔ (s, t) ∈ pairs ∨ (t, s) ∈ pairs) :
    (unifyAll pairs').isSome = (unifyAll pairs).isSome := by
  have hpairs' : ∀ p ∈ pairs', Q p.1 ∧ Q p.2 := by
    intro p hp
    rcases (hsame p.1 p.2).1 (.inl hp) with h | h
    · exact hpairs _ h
    · exact (hpairs _ h).symm
  have hle : ∀ {ps qs : List (Term × Term)} {θ : String → Tree},
      (∀ s t, (s, t) ∈ qs ∨ (t, s) ∈ qs → (s, t) ∈ ps ∨ (t, s) ∈ ps) →
      (∀ p ∈ ps, p.1.eval θ = p.2.eval θ) → ∀ p ∈ qs, p.1.eval θ = p.2.eval θ := by
    intro ps qs θ hqs hps p hp
    rcases hqs p.1 p.2 (.inl hp) with h | h
    · exact hps _ h
    · exact (hps _ h).symm
  rw [Bool.eq_iff_iff, isSome_unifyAll_iff hQ hpairs', isSome_unifyAll_iff hQ hpairs]
  refine exists_congr fun θ => ⟨hle fun s t => (hsame s t).2, hle fun s t => (hsame s t).1⟩

def subtermsOf (pairs : List (Term × Term)) : List Term :=
  pairs.flatMap fun p => p.1.subterms ++ p.2.subterms

def HoleOf (pairs : List (Term × Term)) (v : String) : Prop :=
  ∃ s ∈ subtermsOf pairs, s.isHole = true ∧ s.name = v

/-- The name of a parameter or of a declared term. -/
def OtherOf (pairs : List (Term × Term)) (x : String) : Prop :=
  ∃ s ∈ subtermsOf pairs, s.isHole = false ∧ s.name = x

/-- The head of a term is the name that it goes by, names are words, and no hole has the name of a
parameter or of a declared term. -/
structure WellSpelled (pairs : List (Term × Term)) : Prop where
  head : ∀ s ∈ subtermsOf pairs, s.head.text = s.name
  word : ∀ s ∈ subtermsOf pairs, IsWord s.name
  apart : ∀ s ∈ subtermsOf pairs, ∀ t ∈ subtermsOf pairs,
    s.isHole = true → t.isHole = false → s.name ≠ t.name

instance (pairs : List (Term × Term)) : Decidable (WellSpelled pairs) :=
  decidable_of_iff
    ((∀ s ∈ subtermsOf pairs, s.head.text = s.name) ∧ (∀ s ∈ subtermsOf pairs, IsWord s.name) ∧
      ∀ s ∈ subtermsOf pairs, ∀ t ∈ subtermsOf pairs,
        s.isHole = true → t.isHole = false → s.name ≠ t.name)
    ⟨fun h => ⟨h.1, h.2.1, h.2.2⟩, fun h => ⟨h.head, h.word, h.apart⟩⟩

theorem WellSpelled.namesOk {pairs : List (Term × Term)} (h : WellSpelled pairs) :
    NamesOk (HoleOf pairs) (OtherOf pairs) where
  holes := by
    rintro v ⟨s, hs, -, rfl⟩
    exact h.word s hs
  others := by
    rintro x ⟨s, hs, -, rfl⟩
    exact h.word s hs
  apart := by
    rintro v ⟨s, hs, hhole, rfl⟩ ⟨t, ht, hother, he⟩
    exact h.apart s hs t ht hhole hother he.symm

theorem WellSpelled.spelled {pairs : List (Term × Term)} (h : WellSpelled pairs) :
    ∀ p ∈ pairs, p.1.Spelled (HoleOf pairs) (OtherOf pairs) ∧
      p.2.Spelled (HoleOf pairs) (OtherOf pairs) := by
  have hside : ∀ t : Term, t.subterms ⊆ subtermsOf pairs → t.Spelled (HoleOf pairs) (OtherOf pairs) := by
    intro t ht s hs
    refine ⟨h.head s (ht hs), ?_⟩
    cases hhole : s.isHole with
    | true => exact ⟨s, ht hs, hhole, rfl⟩
    | false => exact ⟨s, ht hs, hhole, rfl⟩
  intro p hp
  constructor
  · exact hside p.1 fun s hs => List.mem_flatMap.2 ⟨p, hp, List.mem_append_left _ hs⟩
  · exact hside p.2 fun s hs => List.mem_flatMap.2 ⟨p, hp, List.mem_append_right _ hs⟩

end Unifier

/-! ### Unifiers as substitutions -/

namespace Subst

variable {K N : String → Prop} {θ : Subst} {v : String} {s t : Term}

/-- Maps words, to terms of words, and nothing in `N`. -/
structure Spares (θ : Subst) (N : String → Prop) : Prop where
  words : ∀ x t, θ.get? x = some t → IsWord x ∧ t.tree.Words
  other : ∀ x, N x → θ.get? x = none

def Unifies (θ : Subst) (pairs : List (Term × Term)) : Prop :=
  ∀ p ∈ pairs, (p.1.subst θ).key = (p.2.subst θ).key

theorem Spares.onWords (hθ : θ.Spares N) : θ.OnWords := by
  intro x hx
  obtain ⟨t, ht⟩ := Option.isSome_iff_exists.1 hx
  exact (hθ.words x t ht).1

theorem Spares.tree_subst (hθ : θ.Spares N) (ht : t.Spelled K N) :
    (t.subst θ).tree = t.eval (θ.value Unifier.leaf) :=
  Term.eval_subst ht hθ.onWords hθ.other

theorem Spares.words_value (hθ : θ.Spares N) (hv : IsWord v) : (θ.value Unifier.leaf v).Words := by
  cases h : θ.get? v with
  | none =>
    rw [value_of_none h]
    exact ⟨hv, trivial⟩
  | some t =>
    rw [value_of_some h]
    exact (hθ.words v t h).2

theorem Spares.key_subst_eq_iff (hθ : θ.Spares N) (hKN : Unifier.NamesOk K N) (hs : s.Spelled K N)
    (ht : t.Spelled K N) : (s.subst θ).key = (t.subst θ).key ↔
      s.eval (θ.value Unifier.leaf) = t.eval (θ.value Unifier.leaf) := by
  have hwords : ∀ r : Term, r.Spelled K N → (r.subst θ).tree.Words := by
    intro r hr
    rw [hθ.tree_subst hr]
    exact Term.words_eval hr hKN.others fun v hv => hθ.words_value (hKN.holes v hv)
  rw [← hθ.tree_subst hs, ← hθ.tree_subst ht]
  exact ⟨Term.tree_eq_of_key_eq (hwords s hs) (hwords t ht), Term.key_eq_of_tree_eq⟩

theorem Spares.unifies_iff (hθ : θ.Spares N) (hKN : Unifier.NamesOk K N) {pairs : List (Term × Term)}
    (hpairs : ∀ p ∈ pairs, p.1.Spelled K N ∧ p.2.Spelled K N) : θ.Unifies pairs ↔
      ∀ p ∈ pairs, p.1.eval (θ.value Unifier.leaf) = p.2.eval (θ.value Unifier.leaf) :=
  forall₂_congr fun p hp => hθ.key_subst_eq_iff hKN (hpairs p hp).1 (hpairs p hp).2

end Subst

namespace Unifier

variable {K N : String → Prop} {u : Unifier} {σ : Subst} {pairs : List (Term × Term)}
  {node? : String → Option Term}

theorem Finishes.spares (h : Finishes K N u σ) (hKN : NamesOk K N) : σ.Spares N where
  words v t ht := by
    refine ⟨hKN.holes v (h.key v t ht), ?_⟩
    exact Term.words_eval (h.spelled v t ht) hKN.others fun w hw => ⟨hKN.holes w hw.1, trivial⟩
  other x hx := by
    cases hv : σ.get? x with
    | none => rfl
    | some t => exact absurd hx (hKN.apart x (h.key x t hv))

/-- A hole has the same value with and without the finished substitution. -/
theorem Finishes.key_subst_subst (h : Finishes K N u σ) {θ : Subst} (hθ : θ.Spares N)
    (hsolves : u.Solves (θ.value leaf)) {t : Term} (ht : t.isHole = true) :
    ((t.subst σ).subst θ).key = (t.subst θ).key := by
  cases t with
  | hole head span param =>
    rw [Term.subst_hole]
    cases hv : σ.get? head.text with
    | none => rfl
    | some s =>
      refine Term.key_eq_of_tree_eq ?_
      have hhole : Term.Spelled (fun _ => True) N (.hole head span param) := Term.spelled_hole.2 trivial
      rw [Option.getD_some, hθ.tree_subst (h.spelled _ s hv), hθ.tree_subst hhole, Term.eval_hole]
      exact (h.value _ hsolves _ s hv).symm
  | _ => exact absurd ht nofun

structure MostGeneral (pairs : List (Term × Term)) (σ : Subst) : Prop where
  spares : σ.Spares (OtherOf pairs)
  unifies : σ.Unifies pairs
  domain : ∀ v t, σ.get? v = some t → HoleOf pairs v
  idempotent : ∀ v t, σ.get? v = some t → ∀ w ∈ t.holeNames, σ.get? w = none
  general : ∀ θ : Subst, θ.Spares (OtherOf pairs) → θ.Unifies pairs →
    ∀ v : Term, v.isHole = true → ((v.subst σ).subst θ).key = (v.subst θ).key

/-- Unification of a list of pairs gives a most general unifier, and fails only if there is none;
the order of the pairs and of their sides does not matter for that. -/
theorem mostGeneral_unifyAll (h : WellSpelled pairs) (hnode : NodesOk node?)
    (hholes : ∀ v, HoleOf pairs v → (node? v).isSome) :
    (∀ u, unifyAll pairs = some u → MostGeneral pairs (u.finish node?)) ∧
    (unifyAll pairs = none → ∀ θ : Subst, θ.Spares (OtherOf pairs) → ¬θ.Unifies pairs) ∧
    ∀ pairs' : List (Term × Term),
      (∀ s t, (s, t) ∈ pairs' ∨ (t, s) ∈ pairs' ↔ (s, t) ∈ pairs ∨ (t, s) ∈ pairs) →
      (unifyAll pairs').isSome = (unifyAll pairs).isSome := by
  have hKN := h.namesOk
  have hspelled := h.spelled
  have hout := unifyAll_outcome Term.inPlay_spelled hspelled
  refine ⟨fun u hu => ?_, fun hnone θ hθ hunifies => ?_, fun pairs' hsame => ?_⟩
  · rw [hu] at hout
    obtain ⟨hready, hsolves⟩ := hout
    have hfin := finishes_finish hready hKN hnode hholes
    have hspares := hfin.spares hKN
    refine ⟨hspares, ?_, hfin.key, ?_, fun θ hθ hunifies v hv => ?_⟩
    · exact (hspares.unifies_iff hKN hspelled).2 ((hsolves _).1 hfin.solves)
    · exact fun v t ht w hw => ((hfin.spelled v t ht).of_mem_holeNames hw).2
    · refine hfin.key_subst_subst hθ ((hsolves _).2 ?_) hv
      exact (hθ.unifies_iff hKN hspelled).1 hunifies
  · rw [hnone] at hout
    exact hout _ ((hθ.unifies_iff hKN hspelled).1 hunifies)
  · exact isSome_unifyAll_congr Term.inPlay_spelled hspelled hsame

end Unifier

/-! ### Aliases and bindings -/

namespace Aliasing

open OneType Unifier

/-- Two aliases of `A`, one of which is then bound. -/
def pairs : List (Term × Term) :=
  [(hole "A", hole "B"), (join (hole "A") (var "x"), join (hole "C") (hole "D")),
    (hole "B", join (hole "E") (hole "D"))]

/-- Binds `E` so that it depends on itself through `C` and its aliases. -/
def cyclic : List (Term × Term) := pairs ++ [(join (hole "C") (var "x"), hole "E")]

def node? : String → Option Term := Term.findHole? (["A", "B", "C", "D", "E"].map hole)

theorem mostGeneral_aliased :
    WellSpelled pairs ∧ WellSpelled cyclic ∧
      (∃ u, unifyAll pairs = some u ∧ MostGeneral pairs (u.finish node?)) ∧
      unifyAll cyclic = none ∧ ∀ θ : Subst, θ.Spares (OtherOf cyclic) → ¬θ.Unifies cyclic := by
  have hspelled : WellSpelled pairs ∧ WellSpelled cyclic := by decide +kernel
  have hnodes : NodesOk node? := nodesOk_findHole? _
  have hholes : ∀ ps, (∀ s ∈ subtermsOf ps, s.isHole = true → (node? s.name).isSome) →
      ∀ v, HoleOf ps v → (node? v).isSome := by
    rintro ps h v ⟨s, hs, hhole, rfl⟩
    exact h s hs hhole
  have hsome : (unifyAll pairs).isSome := by decide +kernel
  have hnone : (unifyAll cyclic).isNone := by decide +kernel
  rw [Option.isNone_iff_eq_none] at hnone
  obtain ⟨u, hu⟩ := Option.isSome_iff_exists.1 hsome
  refine ⟨hspelled.1, hspelled.2, ⟨u, hu, ?_⟩, hnone, ?_⟩
  · exact (mostGeneral_unifyAll hspelled.1 hnodes (hholes pairs (by decide +kernel))).1 u hu
  · exact (mostGeneral_unifyAll hspelled.2 hnodes (hholes cyclic (by decide +kernel))).2.1 hnone

end Aliasing

end Sequitur
