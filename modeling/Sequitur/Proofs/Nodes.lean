import Sequitur.Proofs.Simultaneous
import Sequitur.Term.Node

/-!
# Coherent nodes

A node is coherent if the fields stored in it, and in every node below it, are those that would be computed
from its declaration and its children (`Node.Coherent`). Then they are the key, the text and the type of the
term that it stands for (`Node.Coherent.fields_toTerm`).

Nodes are compared by address. That compares nodes where every address belongs to one node
(`Node.Placed.sameNodes_iff`), and it stays so if new nodes are made at free addresses over nodes that are
there (`Node.Grown`). Terms written with the names they go by can be put into memory like that
(`Term.Headed.run_store`).
-/

namespace Sequitur

namespace Node

variable {n u : Node} {pool : List Node} {next : Nat}

@[elab_as_elim] theorem ind {P : Node → Prop}
    (node : ∀ label address children, (∀ c ∈ children, P c) → P ⟨label, address, children⟩) (n : Node) :
    P n := by
  refine @Node.rec P (fun ns => ∀ c ∈ ns, P c) node (List.forall_mem_nil _) (fun n ns hn hns => ?_) n
  exact List.forall_mem_cons.2 ⟨hn, hns⟩

theorem toTerms_eq_map (ns : List Node) : toTerms ns = ns.map toTerm := by
  induction ns with
  | nil => rfl
  | cons n ns ih => rw [toTerms, ih, List.map_cons]

theorem leavesAll_eq_flatMap (ns : List Node) : leavesAll ns = ns.flatMap leaves := by
  induction ns with
  | nil => rfl
  | cons n ns ih => rw [leavesAll, ih, List.flatMap_cons]

mutual
def subnodes : Node → List Node
  | ⟨label, address, children⟩ => ⟨label, address, children⟩ :: subnodesAll children
def subnodesAll : List Node → List Node
  | [] => []
  | n :: ns => subnodes n ++ subnodesAll ns
end

theorem subnodesAll_eq_flatMap (ns : List Node) : subnodesAll ns = ns.flatMap subnodes := by
  induction ns with
  | nil => rfl
  | cons n ns ih => rw [subnodesAll, ih, List.flatMap_cons]

theorem subnodes_eq (n : Node) : n.subnodes = n :: n.children.flatMap subnodes := by
  rw [← subnodesAll_eq_flatMap]
  cases n
  rw [subnodes]

theorem leaves_of_children_eq_nil (h : n.children = []) : n.leaves = [n] := by
  cases n
  cases h
  rw [leaves]

theorem leaves_of_children_ne_nil (h : n.children ≠ []) : n.leaves = n.children.flatMap leaves := by
  obtain ⟨label, address, _ | ⟨c, cs⟩⟩ := n
  · exact absurd rfl h
  · rw [leaves, leavesAll_eq_flatMap, List.flatMap_cons]

theorem self_mem_subnodes (n : Node) : n ∈ n.subnodes := by
  rw [subnodes_eq]
  exact List.mem_cons_self ..

theorem subnodes_subset {c : Node} (hc : c ∈ n.children) : c.subnodes ⊆ n.subnodes := by
  rw [subnodes_eq n]
  exact fun u hu => List.mem_cons_of_mem _ (List.mem_flatMap.2 ⟨c, hc, hu⟩)

theorem leaves_subset_subnodes (n : Node) : n.leaves ⊆ n.subnodes := by
  induction n using Node.ind with
  | node label address children ih =>
    by_cases hn : children = []
    · rw [leaves_of_children_eq_nil hn, subnodes_eq]
      exact List.cons_subset_cons _ (List.nil_subset _)
    · rw [leaves_of_children_ne_nil hn]
      intro l hl
      obtain ⟨c, hc, hl⟩ := List.mem_flatMap.1 hl
      exact subnodes_subset hc (ih c hc hl)

/-- The declaration of an application. -/
def decl? (n : Node) : Option TermDecl :=
  match n.referent with
  | .term decl => some decl
  | .param _ => none

/-- The name that a node goes by. -/
def name (n : Node) : String :=
  match n.referent with
  | .term decl => decl.name.text
  | .param param => if n.isHole then n.head.text else param.name.text

/-- The node with its key, its text and its type computed anew, from its declaration and its children. -/
def remade (n : Node) : Node :=
  match n.referent with
  | .term decl => .app n.head n.span decl n.children n.address
  | .param param =>
    if n.isHole then .hole n.head n.span param n.address else .param n.head n.span param n.address

/-- At every node, what is stored is what would be computed, and the head spells the name. -/
def Coherent (n : Node) : Prop := ∀ u ∈ n.subnodes, u.remade = u ∧ u.head.text = u.name

theorem toTerm_term {decl : TermDecl} (h : n.referent = .term decl) :
    n.toTerm = .app n.head n.span decl (n.children.map toTerm) := by
  cases n
  rw [toTerm, h, toTerms_eq_map]

theorem toTerm_param {param : Param} (h : n.referent = .param param) :
    n.toTerm = if n.isHole then .hole n.head n.span param else .var n.head n.span param := by
  cases n
  rw [toTerm, h]

theorem children_withChildren (n : Node) (children : List Node) (address : Nat) :
    (n.withChildren children address).children = children := by
  rw [withChildren]
  split <;> rfl

theorem address_withChildren (n : Node) (children : List Node) (address : Nat) :
    (n.withChildren children address).address = address := by
  rw [withChildren]
  split <;> rfl

theorem args_toTerm (h : n.children = []) : n.toTerm.args = [] := by
  cases hr : n.referent with
  | term decl =>
    rw [toTerm_term hr, h]
    rfl
  | param p =>
    rw [toTerm_param hr]
    split <;> rfl

theorem remade_term {decl : TermDecl} (h : n.referent = .term decl) :
    n.remade = .app n.head n.span decl n.children n.address := by
  rw [remade, h]

theorem remade_param {p : Param} (h : n.referent = .param p) :
    n.remade = if n.isHole then .hole n.head n.span p n.address else .param n.head n.span p n.address := by
  rw [remade, h]

/-! ### Coherent nodes -/

theorem coherent_iff : n.Coherent ↔
    (n.remade = n ∧ n.head.text = n.name) ∧ ∀ c ∈ n.children, c.Coherent := by
  rw [Coherent, subnodes_eq, List.forall_mem_cons]
  simp only [List.mem_flatMap, forall_exists_index, and_imp]
  exact and_congr_right fun _ => ⟨fun h c hc u hu => h u c hc hu, fun h u c hc hu => h c hc u hu⟩

/-- What is stored in a new application is in step with its children. -/
theorem coherent_app {head : Token.Ref} {span : Span} {decl : TermDecl} {children : List Node}
    {address : Nat} (hhead : head.text = decl.name.text) (h : ∀ c ∈ children, c.Coherent) :
    (app head span decl children address).Coherent :=
  coherent_iff.2 ⟨⟨rfl, hhead⟩, h⟩

theorem coherent_param {head : Token.Ref} {span : Span} {p : Param} {address : Nat}
    (hhead : head.text = p.name.text) : (param head span p address).Coherent :=
  coherent_iff.2 ⟨⟨rfl, hhead⟩, List.forall_mem_nil _⟩

theorem coherent_hole (head : Token.Ref) (span : Span) (p : Param) (address : Nat) :
    (hole head span p address).Coherent :=
  coherent_iff.2 ⟨⟨rfl, rfl⟩, List.forall_mem_nil _⟩

namespace Coherent

theorem child (h : n.Coherent) {c : Node} (hc : c ∈ n.children) : c.Coherent := (coherent_iff.1 h).2 c hc

theorem remade_eq (h : n.Coherent) : n.remade = n := (coherent_iff.1 h).1.1

theorem head_eq (h : n.Coherent) : n.head.text = n.name := (coherent_iff.1 h).1.2

theorem children_eq_nil (h : n.Coherent) {p : Param} (hp : n.referent = .param p) : n.children = [] := by
  rw [← h.remade_eq, remade_param hp]
  split <;> rfl

theorem exists_term (h : n.Coherent) (hn : n.children ≠ []) : ∃ decl, n.referent = .term decl := by
  cases hr : n.referent with
  | term decl => exact ⟨decl, rfl⟩
  | param p => exact absurd (h.children_eq_nil hr) hn

/-- The stored fields are those of the term that the node stands for. -/
theorem fields_toTerm (h : n.Coherent) :
    n.toTerm.key = n.key ∧ n.toTerm.text = n.text ∧ n.toTerm.type = n.type := by
  induction n using Node.ind with
  | node label address children ih =>
    have hremade := h.remade_eq
    cases hr : label.referent with
    | term decl =>
      rw [toTerm_term hr]
      rw [remade_term hr] at hremade
      have hkeys : (children.map toTerm).map Term.key = children.map (·.key) := by
        rw [List.map_map]
        exact List.map_congr_left fun c hc => (ih c hc (h.child hc)).1
      have htexts : (children.map toTerm).map Term.text = children.map (·.text) := by
        rw [List.map_map]
        exact List.map_congr_left fun c hc => (ih c hc (h.child hc)).2.1
      refine ⟨?_, ?_, congrArg (·.type) hremade⟩
      · rw [Term.key, Term.keys_eq_map, hkeys]
        exact congrArg (·.key) hremade
      · rw [Term.text, Term.texts_eq_map, htexts]
        exact congrArg (·.text) hremade
    | param p =>
      rw [toTerm_param hr]
      rw [remade_param hr] at hremade
      dsimp only at hremade ⊢
      split at hremade
      · next hh =>
        rw [if_pos hh]
        exact ⟨congrArg (·.key) hremade, congrArg (·.text) hremade, congrArg (·.type) hremade⟩
      · next hh =>
        rw [if_neg hh]
        exact ⟨congrArg (·.key) hremade, congrArg (·.text) hremade, congrArg (·.type) hremade⟩

theorem key_toTerm (h : n.Coherent) : n.toTerm.key = n.key := h.fields_toTerm.1

theorem type_toTerm (h : n.Coherent) : n.toTerm.type = n.type := h.fields_toTerm.2.2

theorem of_mem_subnodes (h : n.Coherent) (hu : u ∈ n.subnodes) : u.Coherent := by
  induction n using Node.ind with
  | node label address children ih =>
    rw [subnodes_eq] at hu
    rcases List.mem_cons.1 hu with rfl | hu
    · exact h
    · obtain ⟨c, hc, hu⟩ := List.mem_flatMap.1 hu
      exact ih c hc (h.child hc) hu

theorem subterms_toTerm (h : n.Coherent) : n.toTerm.subterms = n.subnodes.map toTerm := by
  induction n using Node.ind with
  | node label address children ih =>
    rw [subnodes_eq, List.map_cons]
    cases hr : label.referent with
    | term decl =>
      rw [toTerm_term hr, Term.subterms_app, List.flatMap_map, List.map_flatMap]
      exact congrArg _ (List.flatMap_congr fun c hc => ih c hc (h.child hc))
    | param p =>
      obtain rfl : children = [] := h.children_eq_nil hr
      rw [toTerm_param hr]
      dsimp only
      split <;> rfl

theorem leaves_toTerm (h : n.Coherent) : n.toTerm.leaves = n.leaves.map toTerm := by
  induction n using Node.ind with
  | node label address children ih =>
    cases hr : label.referent with
    | term decl =>
      rw [toTerm_term hr]
      by_cases hn : children = []
      · subst hn
        rw [leaves_of_children_eq_nil rfl, List.map_nil, Term.leaves_app_nil, List.map_singleton,
          toTerm_term hr, List.map_nil]
      · rw [leaves_of_children_ne_nil hn, Term.leaves_app_of_ne_nil _ _ _ (mt List.map_eq_nil_iff.1 hn),
          List.flatMap_map, List.map_flatMap]
        exact List.flatMap_congr fun c hc => ih c hc (h.child hc)
    | param p =>
      obtain rfl : children = [] := h.children_eq_nil hr
      rw [leaves_of_children_eq_nil rfl, List.map_singleton, toTerm_param hr]
      dsimp only
      split <;> rfl

theorem leafNames_toTerm (h : n.Coherent) : n.toTerm.leafNames = n.leafKeys := by
  rw [Term.leafNames, leafKeys, Term.keys_eq_map, h.leaves_toTerm, List.map_map]
  congr 1
  exact List.map_congr_left fun l hl => (h.of_mem_subnodes (leaves_subset_subnodes n hl)).key_toTerm

end Coherent

/-- The branch of `Node.withChildren` that computes nothing anew: its result is out of step, so it must not
be reached. -/
theorem not_coherent_withChildren {p : Param} {children : List Node} {address : Nat}
    (hp : n.referent = .param p) (hc : children ≠ []) : ¬(n.withChildren children address).Coherent := by
  intro h
  have hreferent : (n.withChildren children address).referent = .param p := by
    rw [withChildren, hp]
    exact hp
  exact hc ((children_withChildren n children address).symm.trans (h.children_eq_nil hreferent))

/-! ### Memory -/

theorem subnodes_trans (hu : u ∈ n.subnodes) : u.subnodes ⊆ n.subnodes := by
  induction n using Node.ind with
  | node label address children ih =>
    rw [subnodes_eq] at hu
    rcases List.mem_cons.1 hu with rfl | hu
    · exact List.Subset.refl _
    · obtain ⟨c, hc, hu⟩ := List.mem_flatMap.1 hu
      exact List.Subset.trans (ih c hc hu) (subnodes_subset hc)

/-- A node is one of those in a pool or somewhere inside them. -/
def Occurs (pool : List Node) (u : Node) : Prop := ∃ n ∈ pool, u ∈ n.subnodes

namespace Occurs

theorem of_mem (h : n ∈ pool) : Occurs pool n := ⟨n, h, self_mem_subnodes n⟩

theorem sub (h : Occurs pool n) (hu : u ∈ n.subnodes) : Occurs pool u := by
  obtain ⟨m, hm, hn⟩ := h
  exact ⟨m, hm, subnodes_trans hn hu⟩

theorem child (h : Occurs pool n) {c : Node} (hc : c ∈ n.children) : Occurs pool c :=
  h.sub (subnodes_subset hc (self_mem_subnodes c))

theorem append (h : Occurs pool n) (ns : List Node) : Occurs (ns ++ pool) n := by
  obtain ⟨m, hm, hn⟩ := h
  exact ⟨m, List.mem_append_right ns hm, hn⟩

theorem of_forall {ns : List Node} (hns : ∀ n ∈ ns, Occurs pool n) (h : Occurs ns u) : Occurs pool u := by
  obtain ⟨n, hn, hu⟩ := h
  exact (hns n hn).sub hu

end Occurs

/-- One address, one node, and addresses from `next` on are free. -/
structure Placed (next : Nat) (pool : List Node) : Prop where
  lt : ∀ u, Occurs pool u → u.address < next
  unique : ∀ u v, Occurs pool u → Occurs pool v → u.address = v.address → u = v

theorem placed_nil (next : Nat) : Placed next [] := by
  constructor
  · rintro u ⟨n, hn, -⟩
    exact absurd hn List.not_mem_nil
  · rintro u v ⟨n, hn, -⟩
    exact absurd hn List.not_mem_nil

namespace Placed

theorem of_occurs {ns : List Node} (h : Placed next pool) (hns : ∀ n ∈ ns, Occurs pool n) :
    Placed next ns where
  lt u hu := h.lt u (.of_forall hns hu)
  unique u v hu hv := h.unique u v (.of_forall hns hu) (.of_forall hns hv)

/-- A new node at the next address. -/
theorem cons (h : Placed next pool) (hc : ∀ c ∈ n.children, Occurs pool c) (ha : n.address = next) :
    Placed (next + 1) (n :: pool) := by
  have hold : ∀ u, Occurs (n :: pool) u → u = n ∨ Occurs pool u := by
    rintro u ⟨m, hm, hu⟩
    rcases List.mem_cons.1 hm with rfl | hm
    · rw [subnodes_eq] at hu
      rcases List.mem_cons.1 hu with rfl | hu
      · exact .inl rfl
      · obtain ⟨c, hcm, hu⟩ := List.mem_flatMap.1 hu
        exact .inr ((hc c hcm).sub hu)
    · exact .inr ⟨m, hm, hu⟩
  constructor
  · intro u hu
    rcases hold u hu with rfl | hu
    · omega
    · exact Nat.lt_succ_of_lt (h.lt u hu)
  · intro u v hu hv huv
    rcases hold u hu with rfl | hu' <;> rcases hold v hv with rfl | hv'
    · rfl
    · have := h.lt v hv'
      omega
    · have := h.lt u hu'
      omega
    · exact h.unique u v hu' hv' huv

/-- Comparing addresses compares nodes. -/
theorem sameNodes_iff (h : Placed next pool) {ms ns : List Node} (hms : ∀ m ∈ ms, Occurs pool m)
    (hns : ∀ n ∈ ns, Occurs pool n) (hlen : ms.length = ns.length) : sameNodes ms ns = true ↔ ms = ns := by
  induction ms generalizing ns with
  | nil =>
    cases ns with
    | nil => simp [sameNodes]
    | cons n ns => exact absurd hlen nofun
  | cons m ms ih =>
    cases ns with
    | nil => exact absurd hlen nofun
    | cons n ns =>
      rw [List.forall_mem_cons] at hms hns
      have hrest : sameNodes ms ns = true ↔ ms = ns := ih hms.2 hns.2 (Nat.succ.inj hlen)
      have hfirst : m.address = n.address ↔ m = n :=
        ⟨h.unique m n hms.1 hns.1, congrArg _⟩
      rw [List.cons.injEq, ← hrest, ← hfirst]
      simp [sameNodes]

end Placed

/-- Making some nodes, some of them new, in a memory with a pool of nodes. -/
structure Grown (pool : List Node) (next : Nat) (ns : List Node) (next' : Nat) : Prop where
  le : next ≤ next'
  placed : Placed next' (ns ++ pool)
  origin : ∀ n ∈ ns, ∀ u ∈ n.subnodes, Occurs pool u ∨ next ≤ u.address

namespace Grown

variable {ns : List Node} {next' next'' : Nat}

theorem nil (h : Placed next pool) : Grown pool next [] next :=
  ⟨Nat.le_refl next, h, List.forall_mem_nil _⟩

/-- Nodes were made, but a node that was there is what is returned. -/
theorem keep (h : Grown pool next ns next') (hn : Occurs pool n) : Grown pool next [n] next' where
  le := h.le
  placed := by
    refine h.placed.of_occurs (List.forall_mem_cons.2 ⟨hn.append ns, fun m hm => ?_⟩)
    exact (Occurs.of_mem hm).append ns
  origin := by
    rintro m hm u hu
    rw [List.mem_singleton.1 hm] at hu
    exact .inl (hn.sub hu)

theorem cons (h : Grown pool next [n] next') (h' : Grown (n :: pool) next' ns next'') :
    Grown pool next (n :: ns) next'' where
  le := Nat.le_trans h.le h'.le
  placed := by
    refine h'.placed.of_occurs fun m hm => .of_mem ?_
    exact List.perm_middle.mem_iff.2 hm
  origin := by
    rw [List.forall_mem_cons]
    refine ⟨h.origin n (List.mem_singleton_self n), fun m hm u hu => ?_⟩
    rcases h'.origin m hm u hu with ⟨m', hm', hu'⟩ | hu'
    · rcases List.mem_cons.1 hm' with rfl | hm'
      · exact h.origin m' (List.mem_singleton_self m') u hu'
      · exact .inl ⟨m', hm', hu'⟩
    · exact .inr (Nat.le_trans h.le hu')

/-- A new node over the nodes that were made. -/
theorem parent (h : Grown pool next ns next') (hc : n.children = ns) (ha : n.address = next') :
    Grown pool next [n] (next' + 1) where
  le := Nat.le_succ_of_le h.le
  placed := by
    have hplaced : Placed (next' + 1) (n :: (ns ++ pool)) := by
      refine h.placed.cons (fun c hcm => .of_mem ?_) ha
      exact List.mem_append_left pool (hc ▸ hcm)
    refine hplaced.of_occurs fun m hm => .of_mem ?_
    rcases List.mem_cons.1 hm with rfl | hm
    · exact List.mem_cons_self ..
    · exact List.mem_cons_of_mem _ (List.mem_append_right ns hm)
  origin := by
    rintro m hm u hu
    rw [List.mem_singleton.1 hm, subnodes_eq] at hu
    rcases List.mem_cons.1 hu with rfl | hu
    · exact .inr (ha ▸ h.le)
    · obtain ⟨c, hcm, hu⟩ := List.mem_flatMap.1 hu
      exact h.origin c (hc ▸ hcm) u hu

end Grown

end Node

/-! ### Terms put into memory -/

namespace Term

variable {t : Term} {pool : List Node} {next : Nat}

/-- Every subterm is written with the name it goes by. -/
def Headed (t : Term) : Prop := ∀ u ∈ t.subterms, u.head.text = u.name

/-- Putting a term into memory makes a coherent node for it, whatever is in memory. -/
def Stores (t : Term) : Prop :=
  ∀ pool next, Node.Placed next pool → ∃ n next', t.store.run next = (n, next') ∧
    Node.Grown pool next [n] next' ∧ n.Coherent ∧ n.toTerm = t

theorem stores_list {ts : List Term} (h : ∀ t ∈ ts, t.Stores) (hp : Node.Placed next pool) :
    ∃ ns next', (storeAll ts).run next = (ns, next') ∧ Node.Grown pool next ns next' ∧
      (∀ n ∈ ns, n.Coherent) ∧ ns.map Node.toTerm = ts := by
  induction ts generalizing pool next with
  | nil => exact ⟨[], next, rfl, .nil hp, List.forall_mem_nil _, rfl⟩
  | cons t ts ih =>
    rw [List.forall_mem_cons] at h
    obtain ⟨n, next₁, hrun, hgrown, hn, ht⟩ := h.1 pool next hp
    obtain ⟨ns, next₂, hruns, hgrowns, hns, hts⟩ := ih h.2 hgrown.placed
    refine ⟨n :: ns, next₂, ?_, hgrown.cons hgrowns, List.forall_mem_cons.2 ⟨hn, hns⟩, ?_⟩
    · rw [storeAll, StateT.run_bind, hrun]
      change StateT.run (storeAll ts >>= _) next₁ = _
      rw [StateT.run_bind, hruns]
      rfl
    · rw [List.map_cons, ht, hts]

theorem Headed.stores (h : t.Headed) : t.Stores := by
  induction t using Term.ind with
  | var head span param =>
    intro pool next hp
    have hhead : head.text = param.name.text := h _ (self_mem_subterms _)
    exact ⟨.param head span param next, next + 1, rfl, (Node.Grown.nil hp).parent rfl rfl,
      Node.coherent_param hhead, rfl⟩
  | hole head span param =>
    intro pool next hp
    exact ⟨.hole head span param next, next + 1, rfl, (Node.Grown.nil hp).parent rfl rfl,
      Node.coherent_hole head span param next, rfl⟩
  | app head span decl args ih =>
    intro pool next hp
    obtain ⟨hhead, hargs⟩ := forall_subterms_app.1 h
    obtain ⟨ns, next', hrun, hgrown, hns, hts⟩ := stores_list (fun a ha => ih a ha (hargs a ha)) hp
    refine ⟨.app head span decl ns next', next' + 1, ?_, hgrown.parent rfl rfl,
      Node.coherent_app hhead hns, ?_⟩
    · rw [store, StateT.run_bind, hrun]
      rfl
    · rw [Node.toTerm_term rfl]
      exact congrArg _ hts

/-- What putting a term into memory returns. -/
theorem Headed.run_store (h : t.Headed) (hp : Node.Placed next pool) :
    Node.Grown pool next [(t.store.run next).1] (t.store.run next).2 ∧ (t.store.run next).1.Coherent ∧
      (t.store.run next).1.toTerm = t := by
  obtain ⟨n, next', hrun, hn⟩ := h.stores pool next hp
  rw [hrun]
  exact hn

end Term

end Sequitur
