import Sequitur.Proofs.Proving
import Sequitur.Proofs.Soundness

/-!
# Names of holes

Each hole of a proof is created once, under a name that no other hole of the proof has: the name it was
written with, which then denotes nothing else, or a name `?Tn` that is made up for it
(`Document.hygienic_check`). A name is made up by looking at the holes alone. So it can be the name of a
parameter or a declaration, and then the hole passes for that (`Document.not_apart`).
-/

namespace Sequitur

open Noted

/-! ### Made-up names -/

theorem Token.isBoundary_of_isDigit {c : Char} (h : c.isDigit = true) : isBoundary c = false := by
  have hdigits : ∀ n ∈ List.range' 48 10, isBoundary (Char.ofNat n) = false := by decide
  rw [Char.isDigit, Bool.and_eq_true, decide_eq_true_eq, decide_eq_true_eq] at h
  have hmem : c.toNat ∈ List.range' 48 10 := List.mem_range'_1.2 ⟨h.1, Nat.lt_succ_of_le h.2⟩
  rw [← Char.ofNat_toNat c]
  exact hdigits _ hmem

namespace Holes

theorem isWord_nameAt {type : String} (h : IsWord type) (n : Nat) : IsWord (nameAt type n) := by
  rw [IsWord, nameAt, String.toList_append, String.toList_append]
  refine ⟨by simp, fun c hc => ?_⟩
  rcases List.mem_append.1 hc with hc | hc
  · rcases List.mem_append.1 hc with hc | hc
    · rw [List.mem_singleton.1 hc]
      rfl
    · exact h.2 c hc
  · rw [Nat.toString_eq_repr, Nat.toList_repr] at hc
    exact Token.isBoundary_of_isDigit (Nat.isDigit_of_mem_toDigits (by decide) (by decide) hc)

end Holes

/-! ### Creation -/

theorem Decl.params_of_rule? {d : Decl} {r : Rule} (h : d.rule? = some r) : d.params = r.params := by
  cases d with
  | axm | thm =>
    cases h
    rfl
  | _ => cases h

/-- No parameter and no declaration has the name. -/
def Apart (decls : List Decl) (params : List Param) (x : String) : Prop :=
  (∀ p ∈ params, p.name.text ≠ x) ∧ ∀ d ∈ decls, d.name.text ≠ x

/-- The name of a hole that was created after `i` others, in a proof where `heads` are written. -/
inductive Hole.Origin (decls : List Decl) (params : List Param) (heads : List Token.Ref) (i : Nat)
    (h : Hole) : Prop where
  | written : h.head ∈ heads → Apart decls params h.name → Origin decls params heads i h
  | madeUp (n : Nat) : i ≤ n → h.name = Holes.nameAt h.param.type.text n → Origin decls params heads i h

structure Holes.Created (decls : List Decl) (params : List Param) (heads : List Token.Ref) (hs : Holes) :
    Prop where
  nodup : (hs.map Hole.name).Nodup
  origin : ∀ (i : Nat) (h : Hole), hs[i]? = some h → h.Origin decls params heads i
  /-- Each stands in the place of a parameter of something declared. -/
  wanted : ∀ h ∈ hs, ∃ d ∈ decls, h.param ∈ d.params

namespace Holes.Created

variable {decls : List Decl} {params : List Param} {heads : List Token.Ref} {hs : Holes} {hole : Hole}

theorem nil : Created decls params heads [] := ⟨List.nodup_nil, nofun, nofun⟩

theorem concat (h : Created decls params heads hs) (hnew : hole.name ∉ hs.map Hole.name)
    (horigin : hole.Origin decls params heads hs.length) (hwant : ∃ d ∈ decls, hole.param ∈ d.params) :
    Created decls params heads (hs ++ [hole]) where
  nodup := nodup_concat h.nodup hnew
  origin i x hx := by
    rw [List.getElem?_append] at hx
    split at hx
    · exact h.origin i x hx
    · next hi =>
      obtain ⟨hlt, rfl⟩ := List.getElem?_eq_some_iff.1 hx
      obtain rfl : i = hs.length := by simp at hlt; omega
      simpa using horigin
  wanted x hx := by
    rcases List.mem_append.1 hx with hx | hx
    · exact h.wanted x hx
    · rwa [List.mem_singleton.1 hx]

theorem fresh (h : Created decls params heads hs) {want : Param} (hwant : ∃ d ∈ decls, want ∈ d.params)
    (token : Token.Ref) (span : Span) : Created decls params heads (hs ++ [hs.fresh token span want]) := by
  obtain ⟨n, hn, hname, -⟩ := hs.exists_freshName want.type.text
  exact h.concat (hs.name_fresh_notMem token span want) (.madeUp n hn hname) hwant

theorem useAt (h : Created decls params heads hs) (name : String) (span : Span) :
    Created decls params heads (hs.useAt name span) where
  nodup := by
    rw [map_name_useAt]
    exact h.nodup
  origin i x hx := by
    rw [Holes.useAt, List.getElem?_map] at hx
    obtain ⟨y, hy, rfl⟩ := Option.map_eq_some_iff.1 hx
    have horigin := h.origin i y hy
    split
    · cases horigin with
      | written hhead hapart => exact .written hhead hapart
      | madeUp n hn hname => exact .madeUp n hn hname
    · exact horigin
  wanted x hx := by
    obtain ⟨y, hy, rfl⟩ := List.mem_map.1 hx
    have hwant := h.wanted y hy
    split
    · exact hwant
    · exact hwant

end Holes.Created

/-! ### Holes along elaboration -/

/-- The holes of a proof so far, with some terms that have no others. -/
structure Holes.Known (decls : List Decl) (params : List Param) (heads : List Token.Ref)
    (known : List Term) (hs : Holes) : Prop extends hs.Created decls params heads where
  known : ∀ t ∈ known, t.holes ⊆ hs.map Hole.term

namespace Holes.Known

variable {decls : List Decl} {params : List Param} {heads : List Token.Ref} {hs : Holes}
  {known known' : List Term}

theorem mono (h : Known decls params heads known hs) (hsub : known' ⊆ known) :
    Known decls params heads known' hs :=
  ⟨h.toCreated, fun t ht => h.known t (hsub ht)⟩

theorem cons {t : Term} (h : Known decls params heads known hs) (ht : t.holes ⊆ hs.map Hole.term) :
    Known decls params heads (t :: known) hs :=
  ⟨h.toCreated, List.forall_mem_cons.2 ⟨ht, h.known⟩⟩

theorem concat {hole : Hole} (h : Known decls params heads known hs)
    (hcreated : Created decls params heads (hs ++ [hole])) :
    Known decls params heads (hole.term :: known) (hs ++ [hole]) := by
  refine cons ⟨hcreated, fun t ht => ?_⟩ ?_
  · rw [List.map_append]
    exact List.subset_append_of_subset_left _ (h.known t ht)
  · rw [List.map_append]
    exact List.subset_append_right _ _

theorem useAt {hole : Hole} (h : Known decls params heads known hs) (hhole : hole ∈ hs) (name : String)
    (span : Span) : Known decls params heads (hole.term :: known) (hs.useAt name span) := by
  have hterms : (hs.useAt name span).map Hole.term = hs.map Hole.term := map_useAt (fun _ _ => rfl) ..
  refine cons ⟨h.toCreated.useAt name span, hterms ▸ h.known⟩ ?_
  rw [hterms]
  exact List.cons_subset.2 ⟨List.mem_map_of_mem hhole, List.nil_subset _⟩

end Holes.Known

section

variable {scope : Scope} {params : List Param} {heads : List Token.Ref} {us : List Term}

theorem Expr.Leaf.known {want : Param} {e : Expr} {hs : Holes} {t : Term} {c : List Holes.Call}
    (h : e.Leaf scope params want hs t c) (hknown : hs.Known scope.decls params heads us)
    (hwant : ∃ d ∈ scope.decls, want ∈ d.params) (hhead : e.head ∈ heads) :
    (hs.run c).Known scope.decls params heads (t :: us) := by
  cases h with
  | var => exact hknown.cons (List.nil_subset _)
  | use hhole => exact hknown.useAt (List.mem_of_find?_eq_some hhole) e.head.text e.span
  | named hparam hhole hdecl =>
    -- only here a hole gets a written name: nothing else has it
    have hnew : Hole.name { head := e.head, span := e.span, param := want } ∉ hs.map Hole.name :=
      Holes.find?_eq_none.1 hhole
    refine hknown.concat (hknown.toCreated.concat hnew (.written hhead ⟨?_, ?_⟩) hwant)
    · exact fun p hp he => List.find?_eq_none.1 hparam p hp (beq_iff_eq.2 he)
    · exact Scope.name_ne_of_find? hdecl
  | fresh => exact hknown.concat (hknown.fresh hwant e.head e.span)

theorem Expr.Fills.known {head : Token.Ref} {wants : List Param} {es : List Expr} {hs : Holes}
    {ts : List Term} {cs : List Holes.Call} {n : Notes} (h : Fills scope params head wants es hs ts cs n)
    (hknown : hs.Known scope.decls params heads us)
    (hwants : ∀ want ∈ wants, ∃ d ∈ scope.decls, want ∈ d.params) (hheads : headsAll es ⊆ heads) :
    (hs.run cs).Known scope.decls params heads (ts ++ us) := by
  induction h generalizing us with
  | done => exact hknown
  | missing _ ih =>
    obtain ⟨hwant, hwants⟩ := List.forall_mem_cons.1 hwants
    exact (ih (hknown.concat (hknown.fresh hwant _ _)) hwants hheads).mono (by simp)
  | leaf hleaf _ _ _ ih =>
    obtain ⟨hwant, hwants⟩ := List.forall_mem_cons.1 hwants
    obtain ⟨he, hes⟩ := List.append_subset.1 hheads
    rw [Holes.run_append]
    exact (ih (hleaf.known hknown hwant (he (head_mem_heads _))) hwants hes).mono (by simp)
  | @app _ _ _ e _ hs decl as _ c _ _ _ _ hdecl _ _ _ _ _ ihargs ih =>
    obtain ⟨-, hwants⟩ := List.forall_mem_cons.1 hwants
    obtain ⟨he, hes⟩ := List.append_subset.1 hheads
    have hmem := (Scope.mem_decls_of_find? hdecl).1
    have hargs := ihargs hknown (fun p hp => ⟨_, hmem, hp⟩) (List.Subset.trans (headsAll_args_subset _) he)
    have happ : (hs.run c).Known scope.decls params heads (.app e.head e.span decl as :: us) := by
      refine (hargs.mono (List.subset_append_right as us)).cons ?_
      rw [Term.holes_app]
      intro x hx
      obtain ⟨t, ht, hx⟩ := List.mem_flatMap.1 hx
      exact hargs.known t (List.mem_append_left _ ht) hx
    rw [Holes.run_append]
    exact (ih happ hwants hes).mono (by simp)

theorem Step.Elaborates.known {thm : Rule} {es : List Expr} {hs : Holes} {steps : List Step}
    {others : List Suggestion} {cs : List Holes.Call} {n : Notes}
    (h : Elaborates scope thm es hs steps others cs n) (hknown : hs.Known scope.decls thm.params heads us)
    (hheads : ∀ e ∈ es, e.heads ⊆ heads) :
    (hs.run cs).Known scope.decls thm.params heads (steps.flatMap (·.args) ++ us) := by
  induction h generalizing us with
  | nil => exact hknown
  | unnamed _ _ _ _ ih => exact ih hknown (List.forall_mem_cons.1 hheads).2
  | named hrule _ _ hargs _ _ ih =>
    obtain ⟨he, hes⟩ := List.forall_mem_cons.1 hheads
    obtain ⟨d, hd, -, hdr⟩ := mem_decls_of_rule? hrule
    have hwants : ∀ want ∈ Rule.params _, ∃ d ∈ scope.decls, want ∈ d.params := fun want hwant =>
      ⟨d, hd, by rwa [Decl.params_of_rule? hdr]⟩
    have hfill := hargs.known hknown hwants (List.Subset.trans (Expr.headsAll_args_subset _) he)
    rw [Holes.run_append]
    exact (ih hfill hes).mono (by simp [apply])

end

/-! ### Hygiene -/

namespace Thm

theorem proof_prove (scope : Scope) (rule : Rule) (proof : List Expr) :
    (prove scope rule proof).value.proof = steps scope rule proof :=
  rfl

theorem known_created (scope : Scope) (rule : Rule) (proof : List Expr) :
    (created scope rule proof).Known scope.decls rule.params (proof.flatMap (·.heads))
      ((prove scope rule proof).value.proof.flatMap (·.args)) := by
  obtain ⟨cs, hcreated, helaborates⟩ := exists_elaborates scope rule proof
  have hheads : ∀ e ∈ proof, e.heads ⊆ proof.flatMap (·.heads) := fun e he r hr =>
    List.mem_flatMap.2 ⟨e, he, hr⟩
  have hnil : Holes.Known scope.decls rule.params (proof.flatMap (·.heads)) [] [] :=
    ⟨.nil, List.forall_mem_nil _⟩
  have hknown := helaborates.known hnil hheads
  rwa [← hcreated, List.append_nil] at hknown

/-- The holes of a proof: no two have one name, the arguments of the steps have no others, and only one
under a made-up name can have the name of a parameter or a declaration. -/
structure Hygienic (before : List Decl) (t : Thm) (holes : Holes) : Prop where
  nodup : (holes.map Hole.name).Nodup
  created : ∀ s ∈ t.proof, ∀ a ∈ s.args, ∀ h ∈ a.holes, ∃ hole ∈ holes, hole.term = h
  apart : ∀ (i : Nat) (hole : Hole), holes[i]? = some hole →
    Apart before t.rule.params hole.name ∨
      ∃ n, i ≤ n ∧ hole.name = Holes.nameAt hole.param.type.text n

theorem hygienic_prove (scope : Scope) (rule : Rule) (proof : List Expr) :
    (prove scope rule proof).value.Hygienic scope.decls (created scope rule proof) := by
  have hknown := known_created scope rule proof
  refine ⟨hknown.nodup, fun s hs a ha h hh => ?_, fun i hole hi => ?_⟩
  · exact List.mem_map.1 (hknown.known a (List.mem_flatMap.2 ⟨s, hs, ha⟩) hh)
  · cases hknown.origin i hole hi with
    | written _ hapart => exact .inl hapart
    | madeUp n hn hname => exact .inr ⟨n, hn, hname⟩

end Thm

theorem Decl.exists_thm_of_any {ds : List Decl} {i : Nat} {P : Thm → Prop} [DecidablePred P]
    (h : (ds[i]?.bind Decl.thm?).any (fun t => decide (P t)) = true) : ∃ t, ds[i]? = some (.thm t) ∧ P t := by
  obtain ⟨t, ht, hP⟩ := (Option.any_eq_true _ _).1 h
  obtain ⟨d, hd, hdt⟩ := Option.bind_eq_some_iff.1 ht
  exact ⟨t, eq_of_thm? hdt ▸ hd, of_decide_eq_true hP⟩

namespace Document

/-- The holes of every theorem of a text are hygienic, whatever is wrong with its proof. -/
theorem hygienic_check {imports : List Table} {searchLimit : Nat} {text : String} {i : Nat} {t : Thm}
    (h : (check imports searchLimit text).decls[i]? = some (.thm t)) :
    ∃ b : ThmBlock, .thm b ∈ (Block.readAll (Token.scan text)).value ∧
      (Thm.prove (scopeAt imports searchLimit text i) t.rule b.proof).value = t ∧
      t.Hygienic (scopeAt imports searchLimit text i).decls
        (Thm.created (scopeAt imports searchLimit text i) t.rule b.proof) := by
  obtain ⟨b, hb, -, ht⟩ := exists_block_of_thm h
  refine ⟨b, hb, ht, ?_⟩
  have hhygienic := Thm.hygienic_prove (scopeAt imports searchLimit text i) t.rule b.proof
  rwa [ht] at hhygienic

/-- A hole is written with a name like those that are made up. -/
def probing : String :=
  "type W axiom a(W p, W q) { |- p } thm t(W x) { |- x } = { a(?W1) a }"

theorem hygienic_probing : ∃ t, (check [] 5 probing).decls[2]? = some (.thm t) ∧
    t.proof.map (fun s => Term.keys s.args) = [["?W1", "?W2"], ["?W3", "?W4"]] ∧
    ∃ b : ThmBlock, .thm b ∈ (Block.readAll (Token.scan probing)).value ∧
      (Thm.prove (scopeAt [] 5 probing 2) t.rule b.proof).value = t ∧
      t.Hygienic (scopeAt [] 5 probing 2).decls (Thm.created (scopeAt [] 5 probing 2) t.rule b.proof) := by
  have hthm : ∃ t, (check [] 5 probing).decls[2]? = some (.thm t) ∧
      t.proof.map (fun s => Term.keys s.args) = [["?W1", "?W2"], ["?W3", "?W4"]] :=
    Decl.exists_thm_of_any (by decide +kernel)
  obtain ⟨t, ht, hkeys⟩ := hthm
  exact ⟨t, ht, hkeys, hygienic_check ht⟩

instance (decls : List Decl) (params : List Param) (x : String) : Decidable (Apart decls params x) :=
  inferInstanceAs (Decidable (_ ∧ _))

/-- A parameter has the name that is made up for a missing argument. -/
def captured : String :=
  "type W axiom a(W p) { |- p } thm t(W ?W0) { |- ?W0 } = { a }"

/-- A constant has it. -/
def capturedConstant : String :=
  "type W term W ?W0 axiom a(W p) { |- p } thm t() { |- ?W0 } = { a }"

/-- Its holes are not all apart from what is in scope, and still the theorem is proved. -/
abbrev ProvedByCapture (text : String) (i : Nat) (t : Thm) : Prop :=
  t.isProved = true ∧
    ∃ s ∈ t.proof, ∃ a ∈ s.args, ∃ h ∈ a.holes, ¬Apart (scopeAt [] 5 text i).decls t.rule.params h.key

/-- Hygiene does not keep made-up names apart from others, and then a step without its argument proves
what it is to prove. -/
theorem not_apart :
    (∃ t, (check [] 5 captured).decls[2]? = some (.thm t) ∧ ProvedByCapture captured 2 t) ∧
    ∃ t, (check [] 5 capturedConstant).decls[3]? = some (.thm t) ∧ ProvedByCapture capturedConstant 3 t :=
  ⟨Decl.exists_thm_of_any (by decide +kernel), Decl.exists_thm_of_any (by decide +kernel)⟩

end Document

end Sequitur
