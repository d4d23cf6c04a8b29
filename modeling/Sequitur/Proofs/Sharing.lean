import Mathlib.Data.List.Forall2
import Sequitur.Proofs.Nodes

/-!
# Stored fields and sharing

`Node.subst` looks up the keys that are stored, makes a node only over children that have changed, and
shares all others. The result is coherent and stands for the term under `Term.subst`
(`Node.substitutes`). If no application in the term is mapped, this is simultaneous replacement of leaves, in
the stored fields as in the term, and every part in which no leaf is mapped is shared
(`Node.simultaneous_subst`).
-/

namespace Sequitur

theorem Term.subst_of_some {σ : Subst} {t r : Term} (h : σ.get? t.key = some r) : t.subst σ = r := by
  cases t with
  | var head span param =>
    rw [subst_var]
    exact congrArg (Option.getD · _) h
  | hole head span param =>
    rw [subst_hole]
    exact congrArg (Option.getD · _) h
  | app head span decl args => rw [subst_app, h, Option.getD_some]

theorem Term.subst_of_none {σ : Subst} {t : Term} (h : σ.get? t.key = none) (hargs : t.args = []) :
    t.subst σ = t := by
  cases t with
  | var head span param =>
    rw [subst_var]
    exact congrArg (Option.getD · _) h
  | hole head span param =>
    rw [subst_hole]
    exact congrArg (Option.getD · _) h
  | app head span decl args =>
    obtain rfl : args = [] := hargs
    rw [subst_app, h, Option.getD_none, List.map_nil]

namespace Node

variable {σ : NameMap Node} {n u : Node} {pool : List Node} {next : Nat}

/-! ### Substitution in memory -/

/-- No stored key of an application inside the node is mapped, be it to arguments or of a constant. -/
def AppsFree (σ : NameMap Node) (n : Node) : Prop :=
  ∀ u ∈ n.subnodes, u.decl?.isSome → σ.get? u.key = none

/-- No leaf is mapped, unless to itself. -/
def Fixed (σ : NameMap Node) (n : Node) : Prop := ∀ l ∈ n.leaves, ∀ s, σ.get? l.key = some s → s = l

theorem AppsFree.child (h : AppsFree σ n) {c : Node} (hc : c ∈ n.children) : AppsFree σ c :=
  fun u hu => h u (subnodes_subset hc hu)

theorem fixed_leaf (hn : n.children = []) : Fixed σ n ↔ ∀ s, σ.get? n.key = some s → s = n := by
  rw [Fixed, leaves_of_children_eq_nil hn, List.forall_mem_singleton]

theorem fixed_iff (hn : n.children ≠ []) : Fixed σ n ↔ ∀ c ∈ n.children, Fixed σ c := by
  rw [Fixed, leaves_of_children_ne_nil hn]
  simp only [List.mem_flatMap, forall_exists_index, and_imp]
  exact ⟨fun h c hc l hl => h l c hc hl, fun h l c hc hl => h c hc l hl⟩

/-- What a node that is the result of a substitution has to do with the node it was made from. -/
structure Replaces (σ : NameMap Node) (n r : Node) : Prop where
  coherent : r.Coherent
  toTerm_eq : r.toTerm = n.toTerm.subst (σ.map fun _ => toTerm)
  /-- A node is made anew only where a leaf is. -/
  eq_iff : AppsFree σ n → (r = n ↔ Fixed σ n)
  /-- What does not change is part of the result, not a copy of it. -/
  shared : AppsFree σ n → ∀ u ∈ n.subnodes, Fixed σ u → u ∈ r.subnodes

theorem get?_map_toTerm (hn : n.Coherent) :
    (σ.map fun _ => toTerm).get? n.toTerm.key = (σ.get? n.key).map toTerm := by
  rw [NameMap.get?_map, hn.key_toTerm]

theorem toTerm_subst_term {decl : TermDecl} (hn : n.Coherent) (hr : n.referent = .term decl)
    (h : σ.get? n.key = none) : n.toTerm.subst (σ.map fun _ => toTerm) =
      .app n.head n.span decl (n.children.map fun c => c.toTerm.subst (σ.map fun _ => toTerm)) := by
  have hnone := get?_map_toTerm (σ := σ) hn
  rw [h, Option.map_none, toTerm_term hr] at hnone
  rw [toTerm_term hr, Term.subst_app, hnone, Option.getD_none, List.map_map]
  rfl

theorem map_toTerm_of_replaces {ns rs : List Node} (h : List.Forall₂ (Replaces σ) ns rs) :
    rs.map toTerm = ns.map fun n => n.toTerm.subst (σ.map fun _ => toTerm) := by
  induction h with
  | nil => rfl
  | cons hn _ ih => rw [List.map_cons, List.map_cons, hn.toTerm_eq, ih]

theorem coherent_of_replaces {ns rs : List Node} (h : List.Forall₂ (Replaces σ) ns rs) :
    ∀ r ∈ rs, r.Coherent := by
  induction h with
  | nil => exact List.forall_mem_nil _
  | cons hn _ ih => exact List.forall_mem_cons.2 ⟨hn.coherent, ih⟩

theorem eq_iff_of_replaces {ns rs : List Node} (h : List.Forall₂ (Replaces σ) ns rs)
    (hfree : ∀ n ∈ ns, AppsFree σ n) : rs = ns ↔ ∀ n ∈ ns, Fixed σ n := by
  induction h with
  | nil => simp
  | cons hn _ ih =>
    rw [List.forall_mem_cons] at hfree ⊢
    rw [List.cons.injEq, hn.eq_iff hfree.1, ih hfree.2]

theorem exists_shared_of_replaces {ns rs : List Node} (h : List.Forall₂ (Replaces σ) ns rs)
    (hfree : ∀ n ∈ ns, AppsFree σ n) (hn : n ∈ ns) (hu : u ∈ n.subnodes) (hfixed : Fixed σ u) :
    ∃ r ∈ rs, u ∈ r.subnodes := by
  induction h with
  | nil => exact absurd hn List.not_mem_nil
  | cons hr _ ih =>
    rw [List.forall_mem_cons] at hfree
    rcases List.mem_cons.1 hn with rfl | hn
    · exact ⟨_, List.mem_cons_self .., hr.shared hfree.1 u hu hfixed⟩
    · obtain ⟨r, hr, hu⟩ := ih hfree.2 hn
      exact ⟨r, List.mem_cons_of_mem _ hr, hu⟩

namespace Replaces

theorem found {r : Node} (hn : n.Coherent) (hr : r.Coherent) (h : σ.get? n.key = some r) :
    Replaces σ n r := by
  -- only a parameter or a hole can be mapped, so the node is a leaf
  have hleaf : AppsFree σ n → n.children = [] := by
    intro hfree
    cases hr : n.referent with
    | term decl =>
      have hnone := hfree n (self_mem_subnodes n) (by rw [decl?, hr]; rfl)
      exact absurd (h.symm.trans hnone) nofun
    | param p => exact hn.children_eq_nil hr
  have heq : AppsFree σ n → (r = n ↔ Fixed σ n) := by
    intro hfree
    rw [fixed_leaf (hleaf hfree), h]
    exact ⟨fun hrn s hs => Option.some.inj hs ▸ hrn, fun hs => hs r rfl⟩
  refine ⟨hr, ?_, heq, fun hfree u hu hfixed => ?_⟩
  · have hsome := get?_map_toTerm (σ := σ) hn
    rw [h, Option.map_some] at hsome
    exact (Term.subst_of_some hsome).symm
  · rw [subnodes_eq, hleaf hfree, List.flatMap_nil, List.mem_singleton] at hu
    subst hu
    rw [(heq hfree).2 hfixed]
    exact self_mem_subnodes u

theorem leaf (hn : n.Coherent) (h : σ.get? n.key = none) (hc : n.children = []) : Replaces σ n n where
  coherent := hn
  toTerm_eq := by
    have hnone := get?_map_toTerm (σ := σ) hn
    rw [h, Option.map_none] at hnone
    exact (Term.subst_of_none hnone (args_toTerm hc)).symm
  eq_iff _ := by
    rw [fixed_leaf hc, h]
    simp
  shared _ u hu _ := hu

theorem same (hn : n.Coherent) (h : σ.get? n.key = none) (hc : n.children ≠ [])
    (hs : List.Forall₂ (Replaces σ) n.children n.children) : Replaces σ n n where
  coherent := hn
  toTerm_eq := by
    obtain ⟨decl, hr⟩ := hn.exists_term hc
    rw [toTerm_subst_term hn hr h, toTerm_term hr, map_toTerm_of_replaces hs]
  eq_iff hfree := by
    rw [fixed_iff hc, ← eq_iff_of_replaces hs fun c hc => hfree.child hc]
    exact iff_of_true rfl rfl
  shared _ u hu _ := hu

theorem made {rs : List Node} {address : Nat} (hn : n.Coherent) (h : σ.get? n.key = none)
    (hc : n.children ≠ []) (hs : List.Forall₂ (Replaces σ) n.children rs) (hne : rs ≠ n.children) :
    Replaces σ n (n.withChildren rs address) := by
  obtain ⟨decl, hr⟩ := hn.exists_term hc
  have hmade : n.withChildren rs address = .app n.head n.span decl rs address := by
    rw [withChildren, hr]
  have hhead : n.head.text = decl.name.text := by
    rw [hn.head_eq, name, hr]
  have hchildren := children_withChildren n rs address
  have hfixed : AppsFree σ n → ¬Fixed σ n := by
    intro hfree hfixed
    rw [fixed_iff hc, ← eq_iff_of_replaces hs fun c hc => hfree.child hc] at hfixed
    exact hne hfixed
  refine ⟨?_, ?_, fun hfree => iff_of_false ?_ (hfixed hfree), fun hfree u hu hfix => ?_⟩
  · rw [hmade]
    exact coherent_app hhead (coherent_of_replaces hs)
  · rw [toTerm_subst_term hn hr h, ← map_toTerm_of_replaces hs, hmade]
    exact toTerm_term rfl
  · intro heq
    exact hne (hchildren.symm.trans (congrArg (·.children) heq))
  · rw [subnodes_eq] at hu
    rcases List.mem_cons.1 hu with rfl | hu
    · exact absurd hfix (hfixed hfree)
    · obtain ⟨c, hcm, hu⟩ := List.mem_flatMap.1 hu
      obtain ⟨r, hrm, hu⟩ := exists_shared_of_replaces hs (fun c hc => hfree.child hc) hcm hu hfix
      exact subnodes_subset (hchildren.symm ▸ hrm) hu

end Replaces

theorem run_subst_of_some {r : Node} (h : σ.get? n.key = some r) : (subst σ n).run next = (r, next) := by
  cases n
  rw [subst, h]
  rfl

theorem run_subst_leaf (h : σ.get? n.key = none) (hc : n.children = []) :
    (subst σ n).run next = (n, next) := by
  cases n
  cases hc
  rw [subst, h]
  rfl

theorem run_subst_of_ne_nil (h : σ.get? n.key = none) (hc : n.children ≠ []) {rs : List Node}
    {next' : Nat} (hrs : (substAll σ n.children).run next = (rs, next')) : (subst σ n).run next =
      if sameNodes n.children rs then (n, next') else (n.withChildren rs next', next' + 1) := by
  cases n
  rw [subst, h]
  dsimp only
  rw [if_neg (mt List.isEmpty_iff.1 hc), StateT.run_bind, hrs]
  change StateT.run (if _ then _ else _) next' = _
  split <;> rfl

theorem run_substAll_cons {ns rs : List Node} {r : Node} {next' next'' : Nat}
    (h : (subst σ n).run next = (r, next')) (hrs : (substAll σ ns).run next' = (rs, next'')) :
    (substAll σ (n :: ns)).run next = (r :: rs, next'') := by
  rw [substAll, StateT.run_bind, h]
  change StateT.run (substAll σ ns >>= _) next' = _
  rw [StateT.run_bind, hrs]
  rfl

/-- The replacements are in memory and coherent. -/
def Supplied (σ : NameMap Node) (pool : List Node) : Prop :=
  ∀ x s, σ.get? x = some s → Occurs pool s ∧ s.Coherent

theorem Supplied.append (h : Supplied σ pool) (ns : List Node) : Supplied σ (ns ++ pool) :=
  fun x s hs => ⟨(h x s hs).1.append ns, (h x s hs).2⟩

/-- What substitution into a node returns, wherever the node is in memory. -/
def Substitutes (σ : NameMap Node) (n : Node) : Prop :=
  ∀ pool next, Placed next pool → Supplied σ pool → Occurs pool n → n.Coherent →
    ∃ r next', (subst σ n).run next = (r, next') ∧ Grown pool next [r] next' ∧ Replaces σ n r

theorem substitutes_list {ns : List Node} (h : ∀ n ∈ ns, Substitutes σ n) (hp : Placed next pool)
    (hσ : Supplied σ pool) (hns : ∀ n ∈ ns, Occurs pool n ∧ n.Coherent) :
    ∃ rs next', (substAll σ ns).run next = (rs, next') ∧ Grown pool next rs next' ∧
      List.Forall₂ (Replaces σ) ns rs := by
  induction ns generalizing pool next with
  | nil => exact ⟨[], next, rfl, .nil hp, .nil⟩
  | cons n ns ih =>
    rw [List.forall_mem_cons] at h hns
    obtain ⟨r, next₁, hrun, hgrown, hr⟩ := h.1 pool next hp hσ hns.1.1 hns.1.2
    have hrest : ∀ m ∈ ns, Occurs (r :: pool) m ∧ m.Coherent := fun m hm =>
      ⟨(hns.2 m hm).1.append [r], (hns.2 m hm).2⟩
    obtain ⟨rs, next₂, hruns, hgrowns, hrs⟩ := ih h.2 hgrown.placed (hσ.append [r]) hrest
    exact ⟨r :: rs, next₂, run_substAll_cons hrun hruns, hgrown.cons hgrowns, .cons hr hrs⟩

theorem substitutes (σ : NameMap Node) (n : Node) : Substitutes σ n := by
  induction n using Node.ind with
  | node label address children ih =>
    intro pool next hp hσ ho hn
    generalize hnode : (⟨label, address, children⟩ : Node) = n at ho hn ⊢
    have hc : n.children = children := hnode ▸ rfl
    cases hs : σ.get? n.key with
    | some r =>
      obtain ⟨hr, hrc⟩ := hσ n.key r hs
      exact ⟨r, next, run_subst_of_some hs, (Grown.nil hp).keep hr, .found hn hrc hs⟩
    | none =>
      by_cases hnil : n.children = []
      · exact ⟨n, next, run_subst_leaf hs hnil, (Grown.nil hp).keep ho, .leaf hn hs hnil⟩
      · obtain ⟨rs, next', hrun, hgrown, hrs⟩ := substitutes_list (hc.symm ▸ ih) hp hσ
          fun c hc => ⟨ho.child hc, hn.child hc⟩
        have hsame : sameNodes n.children rs = true ↔ n.children = rs :=
          hgrown.placed.sameNodes_iff (fun c hc => (ho.child hc).append rs)
            (fun r hr => .of_mem (List.mem_append_left pool hr)) hrs.length_eq
        rw [run_subst_of_ne_nil hs hnil hrun]
        by_cases heq : n.children = rs
        · rw [if_pos (hsame.2 heq)]
          exact ⟨n, next', rfl, hgrown.keep ho, .same hn hs hnil (heq.symm ▸ hrs)⟩
        · rw [if_neg (mt hsame.1 heq)]
          refine ⟨_, _, rfl, hgrown.parent ?_ ?_, .made hn hs hnil hrs (Ne.symm heq)⟩
          · exact children_withChildren n rs next'
          · exact address_withChildren n rs next'

/-! ### The law -/

/-- Every application is to arguments of the types that its declaration wants. -/
def Applied (n : Node) : Prop :=
  ∀ u ∈ n.subnodes, ∀ decl ∈ u.decl?, u.children.map (·.type) = decl.params.map (·.type.text)

/-- Every leaf that is replaced has the type of its replacement. -/
def LeavesTyped (σ : NameMap Node) (n : Node) : Prop :=
  ∀ l ∈ n.leaves, ∀ s, σ.get? l.key = some s → s.type = l.type

theorem decl?_toTerm (n : Node) : n.toTerm.decl? = n.decl? := by
  cases hr : n.referent with
  | term decl =>
    rw [toTerm_term hr, decl?, hr]
    rfl
  | param p =>
    rw [toTerm_param hr, decl?, hr]
    split <;> rfl

theorem Coherent.types_children (h : n.Coherent) {decl : TermDecl} (hd : decl ∈ n.decl?) :
    n.toTerm.args.map Term.type = n.children.map (·.type) := by
  cases hr : n.referent with
  | term decl =>
    rw [toTerm_term hr]
    change (n.children.map toTerm).map Term.type = _
    rw [List.map_map]
    exact List.map_congr_left fun c hc => (h.child hc).type_toTerm
  | param p =>
    rw [decl?, hr] at hd
    exact absurd hd (Option.not_mem_none _)

theorem Coherent.applied_toTerm (h : n.Coherent) : n.toTerm.Applied ↔ n.Applied := by
  rw [Term.Applied, h.subterms_toTerm, List.forall_mem_map, Applied]
  refine forall₂_congr fun u hu => ?_
  rw [decl?_toTerm]
  refine forall₂_congr fun decl hd => ?_
  rw [(h.of_mem_subnodes hu).types_children hd]

theorem AppsFree.toTerm (hn : n.Coherent) (h : AppsFree σ n) :
    Term.AppsFree (σ.map fun _ => toTerm) n.toTerm := by
  rw [Term.AppsFree, hn.subterms_toTerm, List.forall_mem_map]
  intro u hu hd
  rw [decl?_toTerm] at hd
  rw [get?_map_toTerm (hn.of_mem_subnodes hu), h u hu hd, Option.map_none]

theorem forall_replaced {P : Term → Term → Prop} (hn : n.Coherent) :
    (∀ l ∈ n.toTerm.leaves, ∀ t, (σ.map fun _ => toTerm).get? l.key = some t → P l t) ↔
      ∀ l ∈ n.leaves, ∀ s, σ.get? l.key = some s → P l.toTerm s.toTerm := by
  rw [hn.leaves_toTerm, List.forall_mem_map]
  refine forall₂_congr fun l hl => ?_
  rw [get?_map_toTerm (hn.of_mem_subnodes (leaves_subset_subnodes n hl))]
  cases σ.get? l.key <;> simp

theorem leavesTyped_toTerm (hn : n.Coherent) (hσ : ∀ x s, σ.get? x = some s → s.Coherent) :
    Term.LeavesTyped (σ.map fun _ => toTerm) n.toTerm ↔ LeavesTyped σ n := by
  refine (forall_replaced (P := fun l t => t.type = l.type) hn).trans ?_
  refine forall₂_congr fun l hl => forall₂_congr fun s hs => ?_
  have hlc := hn.of_mem_subnodes (leaves_subset_subnodes n hl)
  rw [(hσ l.key s hs).type_toTerm, hlc.type_toTerm]

theorem replacements_applied (hn : n.Coherent) (hσ : ∀ x s, σ.get? x = some s → s.Coherent) :
    (∀ l ∈ n.toTerm.leaves, ∀ t, (σ.map fun _ => toTerm).get? l.key = some t → t.Applied) ↔
      ∀ l ∈ n.leaves, ∀ s, σ.get? l.key = some s → s.Applied := by
  refine (forall_replaced (P := fun _ t => t.Applied) hn).trans ?_
  exact forall₂_congr fun l _ => forall₂_congr fun s hs => (hσ l.key s hs).applied_toTerm

theorem mem_leafNames_replacement (hσ : ∀ x s, σ.get? x = some s → s.Coherent) {x y : String} :
    (∃ t, (σ.map fun _ => toTerm).get? y = some t ∧ x ∈ t.leafNames) ↔
      ∃ s, σ.get? y = some s ∧ x ∈ s.leafKeys := by
  rw [NameMap.get?_map]
  cases hs : σ.get? y with
  | none => simp
  | some s => simp [(hσ y s hs).leafNames_toTerm]

theorem mem_values {x : String} {s : Node} (h : σ.get? x = some s) : s ∈ σ.values :=
  List.mem_map.2 ⟨(x, s), NameMap.mem_toList.2 h, rfl⟩

theorem occurs_cons_values (h : Occurs (n :: σ.values) u) :
    u ∈ n.subnodes ∨ ∃ x s, σ.get? x = some s ∧ u ∈ s.subnodes := by
  obtain ⟨m, hm, hu⟩ := h
  rcases List.mem_cons.1 hm with rfl | hm
  · exact .inl hu
  · obtain ⟨⟨x, s⟩, hs, rfl⟩ := List.mem_map.1 hm
    exact .inr ⟨x, s, NameMap.mem_toList.1 hs, hu⟩

/-- What substitution returns, as a simultaneous replacement of leaves, for stored terms. -/
structure Simultaneous (σ : NameMap Node) (n : Node) (next : Nat) (result : Node × Nat) : Prop where
  /-- No stored field is out of step, neither where a node was made nor where one was shared. -/
  coherent : result.1.Coherent
  toTerm_eq_subst : result.1.toTerm = n.toTerm.subst (σ.map fun _ => toTerm)
  /-- What is put in place is not replaced again. -/
  toTerm_eq_graft : result.1.toTerm = n.toTerm.graft (σ.map fun _ => toTerm)
  mem_leafKeys : ∀ x, x ∈ result.1.leafKeys ↔ x ∈ n.leafKeys ∧ σ.get? x = none ∨
    ∃ y ∈ n.leafKeys, ∃ s, σ.get? y = some s ∧ x ∈ s.leafKeys
  type_eq : LeavesTyped σ n → result.1.type = n.type
  applied_iff : LeavesTyped σ n →
    (result.1.Applied ↔ n.Applied ∧ ∀ l ∈ n.leaves, ∀ s, σ.get? l.key = some s → s.Applied)
  /-- The node itself is returned exactly if all leaves stay. -/
  address_eq_iff : result.1.address = n.address ↔ Fixed σ n
  /-- Every part in which all leaves stay is shared. -/
  shared : ∀ u ∈ n.subnodes, Fixed σ u → u ∈ result.1.subnodes
  /-- A part of the result is a part of the term, a part of a replacement, or new. -/
  origin : ∀ u ∈ result.1.subnodes,
    u ∈ n.subnodes ∨ (∃ x s, σ.get? x = some s ∧ u ∈ s.subnodes) ∨ next ≤ u.address
  placed : Placed result.2 (result.1 :: n :: σ.values)

/-- Substitution by stored keys replaces parameters and holes at once and keeps all stored fields in step,
if no application in the term is mapped. -/
theorem simultaneous_subst (hn : n.Coherent) (hσ : ∀ x s, σ.get? x = some s → s.Coherent)
    (happs : AppsFree σ n) (hplaced : Placed next (n :: σ.values)) :
    Simultaneous σ n next ((subst σ n).run next) := by
  have hsupplied : Supplied σ (n :: σ.values) := fun x s hs =>
    ⟨.of_mem (List.mem_cons_of_mem _ (mem_values hs)), hσ x s hs⟩
  obtain ⟨r, next', hrun, hgrown, hr⟩ :=
    substitutes σ n (n :: σ.values) next hplaced hsupplied (.of_mem (List.mem_cons_self ..)) hn
  rw [hrun]
  have hterm := (happs.toTerm hn).simultaneous
  have hrn : r.address = n.address ↔ r = n := by
    refine ⟨hgrown.placed.unique r n (.of_mem ?_) (.of_mem ?_), congrArg _⟩
    · exact List.mem_cons_self ..
    · exact List.mem_cons_of_mem _ (List.mem_cons_self ..)
  refine ⟨hr.coherent, hr.toTerm_eq, hr.toTerm_eq.trans hterm.subst_eq_graft, fun x => ?_, fun ht => ?_,
    fun ht => ?_, hrn.trans (hr.eq_iff happs), hr.shared happs, fun u hu => ?_, hgrown.placed⟩
  · rw [← hr.coherent.leafNames_toTerm, hr.toTerm_eq, hterm.mem_leafNames, hn.leafNames_toTerm,
      NameMap.get?_map, Option.map_eq_none_iff]
    exact or_congr_right (exists_congr fun y => and_congr_right fun _ => mem_leafNames_replacement hσ)
  · rw [← hr.coherent.type_toTerm, hr.toTerm_eq, ← hn.type_toTerm]
    exact hterm.type_subst ((leavesTyped_toTerm hn hσ).2 ht)
  · rw [← hr.coherent.applied_toTerm, hr.toTerm_eq,
      hterm.applied_subst ((leavesTyped_toTerm hn hσ).2 ht), hn.applied_toTerm,
      replacements_applied hn hσ]
  · rcases hgrown.origin r (List.mem_singleton_self r) u hu with ho | ho
    · exact (occurs_cons_values ho).imp_right .inl
    · exact .inr (.inr ho)

end Node

namespace Crossing

open OneType

/-- A parameter that is mapped, a part in which nothing is, and a hole that is mapped. -/
def mixed : Term := join (join (var "x") (join (var "y") (constant "c"))) (hole "A")

def stored : Node × Nat := mixed.store.run 0

/-- What is put for `x`. It has the leaf `A`. -/
def forX : Node × Nat := (join (hole "A") (var "y")).store.run stored.2

/-- What is put for `A`. It has the leaf `x`. -/
def forA : Node × Nat := (var "x").store.run forX.2

def crossed : NameMap Node := .ofList [("x", forX.1), ("A", forA.1)]

def result : Node × Nat := (Node.subst crossed stored.1).run forA.2

theorem simultaneous_crossed :
    Node.Simultaneous crossed stored.1 forA.2 result ∧ result.1.Applied ∧ result.1.type = "T" ∧
      result.1.key = "f(f(f(A,y),f(y,c)),x)" ∧ forA.2 ≤ result.1.address ∧
      ∃ u ∈ stored.1.subnodes, u ∈ result.1.subnodes ∧ u.key = "f(y,c)" := by
  have hheaded : ∀ t ∈ [mixed, join (hole "A") (var "y"), var "x"], ∀ u ∈ t.subterms,
      u.head.text = u.name := by decide +kernel
  rw [List.forall_mem_cons, List.forall_mem_cons, List.forall_mem_singleton] at hheaded
  obtain ⟨h₁, hc₁, -⟩ := Term.Headed.run_store hheaded.1 (Node.placed_nil 0)
  obtain ⟨h₂, hc₂, -⟩ := Term.Headed.run_store hheaded.2.1 h₁.placed
  obtain ⟨h₃, hc₃, -⟩ := Term.Headed.run_store hheaded.2.2 h₂.placed
  have hvalues : crossed.values = [forA.1, forX.1] := rfl
  have hplaced : Node.Placed forA.2 (stored.1 :: crossed.values) := by
    refine h₃.placed.of_occurs fun n hn => .of_mem ?_
    rw [hvalues] at hn
    rcases List.mem_cons.1 hn with rfl | hn
    · exact List.mem_append_right [forA.1, forX.1] (List.mem_singleton_self _)
    · exact List.mem_append_left [stored.1] hn
  have hcoherent : ∀ x s, crossed.get? x = some s → s.Coherent := by
    intro x s hs
    have hmem := Node.mem_values hs
    rw [hvalues] at hmem
    exact (List.forall_mem_cons.2 ⟨hc₃, List.forall_mem_singleton.2 hc₂⟩) s hmem
  have hfree : Node.AppsFree crossed stored.1 := by
    unfold Node.AppsFree
    decide +kernel
  have happlied : stored.1.Applied ∧ ∀ e ∈ crossed.toList, e.2.Applied := by
    unfold Node.Applied
    decide +kernel
  have htypes : (∀ l ∈ stored.1.leaves, l.type = "T") ∧ ∀ e ∈ crossed.toList, e.2.type = "T" := by
    decide +kernel
  have hsimultaneous := Node.simultaneous_subst hc₁ hcoherent hfree hplaced
  have htyped : Node.LeavesTyped crossed stored.1 := fun l hl s hs =>
    (htypes.2 (l.key, s) (NameMap.mem_toList.2 hs)).trans (htypes.1 l hl).symm
  have hunmapped : ∃ u ∈ stored.1.subnodes, u.key = "f(y,c)" ∧
      ∀ l ∈ u.leaves, crossed.get? l.key = none := by decide +kernel
  obtain ⟨u, hu, hkey, hnone⟩ := hunmapped
  refine ⟨hsimultaneous, (hsimultaneous.applied_iff htyped).2 ⟨happlied.1, fun l _ s hs => ?_⟩,
    by decide +kernel, by decide +kernel, by decide +kernel, u, hu, ?_, hkey⟩
  · exact happlied.2 (l.key, s) (NameMap.mem_toList.2 hs)
  · refine hsimultaneous.shared u hu fun l hl s hs => ?_
    rw [hnone l hl] at hs
    exact absurd hs nofun

end Crossing

end Sequitur
