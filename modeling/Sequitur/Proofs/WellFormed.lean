import Sequitur.Document
import Sequitur.Proofs.Elaborating
import Sequitur.Proofs.Reading
import Sequitur.Proofs.Typing

/-!
# Well-formed tables

What a declaration may refer to is what was introduced before it. `Decl.WellFormed before d` says so
for each kind of declaration, and `InOrder` reads a table in order, each declaration against those
before it. Every table that checking a text gives is well formed, after any imports and whatever is
wrong with the text (`Document.inOrder_wellFormed_check`): elaboration may fail or leave holes, but what
it does yield is well typed, so the lemmas here are about values only.
-/

namespace Sequitur

open Noted

/-! ### Well-formedness -/

/-- A name that can be introduced after declarations. -/
structure NewName (before : List Decl) (x : String) : Prop where
  word : IsWord x
  ne_diff : x ≠ "diff"
  fresh : ∀ d ∈ before, d.name.text ≠ x

def IsType (before : List Decl) (x : String) : Prop :=
  ∃ d, Decl.type d ∈ before ∧ d.name.text = x

structure ParamsOk (before : List Decl) (params : List Param) : Prop where
  types : ∀ p ∈ params, IsType before p.type.text
  names : ∀ p ∈ params, NewName before p.name.text
  nodup : (params.map (·.name.text)).Nodup

structure TermDecl.WellFormed (before : List Decl) (d : TermDecl) : Prop where
  name : NewName before d.name.text
  type : IsType before d.type.text
  params : ParamsOk before d.params
  template : ∀ i, .arg i ∈ d.template → i < d.params.length

structure Rule.WellFormed (before : List Decl) (r : Rule) : Prop where
  name : NewName before r.name.text
  params : ParamsOk before r.params
  targets : ∀ t ∈ r.targets, t.Complete before r.params
  assumptions : ∀ t ∈ r.assumptions, t.Complete before r.params
  groups : ∀ g ∈ r.groups, 2 ≤ g.length ∧ g.Nodup ∧ g ⊆ r.paramNames

/-- A step in the proof of `thm` applies an earlier rule to one argument for each of its parameters. -/
structure Step.WellFormed (before : List Decl) (thm : Rule) (s : Step) : Prop where
  rule : ∃ d ∈ before, d.name.text = s.head.text ∧ d.rule? = some s.rule
  args : Term.Fits before thm.params s.args s.rule.params
  eq_apply : s = Step.apply thm s.rule s.head s.span s.args

/-- What is noted about holes is true. -/
theorem Step.WellFormed.usesHole_eq_false {before : List Decl} {thm : Rule} {s : Step}
    (h : s.WellFormed before thm) : s.usesHole = false ↔ ∀ a ∈ s.args, a.hasHole = false := by
  have hflag : s.usesHole = s.args.any Term.hasHole := congrArg Step.usesHole h.eq_apply
  rw [hflag, List.any_eq_false]
  exact forall₂_congr fun a _ => Bool.not_eq_true _ ▸ Iff.rfl

/-- The trace has the goals after each step, and there are alternatives to each. -/
structure Thm.Aligned (t : Thm) : Prop where
  trace : t.trace.length = t.proof.length
  alternatives : t.alternatives.length = t.proof.length

structure Thm.WellFormed (before : List Decl) (t : Thm) : Prop where
  rule : t.rule.WellFormed before
  steps : ∀ s ∈ t.proof, s.WellFormed before t.rule
  aligned : t.Aligned

def Decl.WellFormed (before : List Decl) : Decl → Prop
  | .type d => NewName before d.name.text
  | .term d => d.WellFormed before
  | .axm r => r.WellFormed before
  | .thm t => t.WellFormed before

/-- The parameters that a declaration introduces. -/
def Decl.params : Decl → List Param
  | .type _ => []
  | .term d => d.params
  | .axm r => r.params
  | .thm t => t.rule.params

/-- Each of some declarations has a property of it and of all those before. -/
def InOrder (P : List Decl → Decl → Prop) (before : List Decl) : List Decl → Prop
  | [] => True
  | d :: ds => P before d ∧ InOrder P (before ++ [d]) ds

theorem inOrder_append {P : List Decl → Decl → Prop} {before ds es : List Decl} :
    InOrder P before (ds ++ es) ↔ InOrder P before ds ∧ InOrder P (before ++ ds) es := by
  induction ds generalizing before with
  | nil => simp [InOrder]
  | cons d ds ih => simp [InOrder, ih, and_assoc]

/-! ### Scopes -/

namespace Scope

/-- Everything in scope, in order of introduction. -/
def decls (s : Scope) : List Decl := s.imports.flatMap (·.decls) ++ s.table.decls

variable {scope : Scope}

theorem mem_decls_of_find? {x : String} {d : Decl} (h : scope.find? x = some d) :
    d ∈ scope.decls ∧ d.name.text = x := by
  have htable : ∀ t : Table, t.find? x = some d → d ∈ t.decls ∧ d.name.text = x := fun t ht =>
    ⟨List.mem_of_find?_eq_some ht, by simpa using List.find?_some ht⟩
  rcases Option.or_eq_some_iff.1 h with h | ⟨-, h⟩
  · exact ⟨List.mem_append_right _ (htable _ h).1, (htable _ h).2⟩
  · obtain ⟨t, ht, h⟩ := List.exists_of_findSome?_eq_some h
    exact ⟨List.mem_append_left _ (List.mem_flatMap.2 ⟨t, ht, (htable t h).1⟩), (htable t h).2⟩

theorem name_ne_of_find? {x : String} (h : scope.find? x = none) : ∀ d ∈ scope.decls, d.name.text ≠ x := by
  have htable : ∀ t : Table, t.find? x = none → ∀ d ∈ t.decls, d.name.text ≠ x := fun t ht d hd => by
    simpa using List.find?_eq_none.1 ht d hd
  obtain ⟨h, himports⟩ := Option.or_eq_none_iff.1 h
  intro d hd
  rcases List.mem_append.1 hd with hd | hd
  · obtain ⟨t, ht, hd⟩ := List.mem_flatMap.1 hd
    exact htable t (List.findSome?_eq_none_iff.1 himports t ht) d hd
  · exact htable _ h d hd

theorem mem_decls_of_term? {x : String} {d : TermDecl} (h : scope.term? x = some d) :
    .term d ∈ scope.decls ∧ d.name.text = x := by
  obtain ⟨e, he, hd⟩ := Option.bind_eq_some_iff.1 h
  cases e with
  | term e =>
    cases hd
    exact mem_decls_of_find? he
  | _ => exact absurd hd nofun

theorem yields_checkFresh {name : Token.Ref} (hw : IsWord name.text) :
    (scope.checkFresh name).Yields fun ok => ok = true → NewName scope.decls name.text := by
  unfold checkFresh
  refine yields_ite (fun _ => yields_then fun _ => yields_pure nofun) fun hdiff => ?_
  refine yields_ite (fun _ => yields_then fun _ => yields_pure nofun) fun hfind => ?_
  exact yields_pure fun _ => ⟨hw, hdiff, name_ne_of_find? (Option.not_isSome_iff_eq_none.1 hfind)⟩

theorem yields_checkType (type : Token.Ref) :
    (scope.checkType type).Yields fun ok => ok = true → IsType scope.decls type.text := by
  unfold checkType
  split
  · next d hd => exact yields_pure fun _ => ⟨d, mem_decls_of_find? hd⟩
  · exact yields_then fun _ => yields_pure nofun
  · exact yields_then fun _ => yields_pure nofun

theorem yields_checkParams {params : List Param} (hw : ∀ p ∈ params, IsWord p.name.text)
    (seen : List String) : (scope.checkParams seen params).Yields fun ok => ok = true →
      ParamsOk scope.decls params ∧ ∀ p ∈ params, p.name.text ∉ seen := by
  induction params generalizing seen with
  | nil => exact yields_pure fun _ => ⟨⟨nofun, nofun, List.nodup_nil⟩, nofun⟩
  | cons p ps ih =>
    unfold checkParams
    refine yields_bind (yields_checkType p.type) fun ok htype => ?_
    refine yields_ite (fun _ => yields_pure nofun) fun hok => ?_
    refine yields_bind (yields_checkFresh (hw p (List.mem_cons_self ..))) fun ok' hname => ?_
    refine yields_ite (fun _ => yields_pure nofun) fun hok' => ?_
    refine yields_ite (fun _ => yields_then fun _ => yields_pure nofun) fun hseen => ?_
    refine (ih (fun p hp => hw p (List.mem_cons_of_mem _ hp)) _).mono fun ok'' h hok'' => ?_
    obtain ⟨hps, hnot⟩ := h hok''
    have hseen : p.name.text ∉ seen := by simpa using hseen
    refine ⟨⟨?_, ?_, ?_⟩, ?_⟩
    · exact List.forall_mem_cons.2 ⟨htype (by simpa using hok), hps.types⟩
    · exact List.forall_mem_cons.2 ⟨hname (by simpa using hok'), hps.names⟩
    · refine List.nodup_cons.2 ⟨fun hm => ?_, hps.nodup⟩
      obtain ⟨q, hq, he⟩ := List.mem_map.1 hm
      exact hnot q hq (he ▸ List.mem_cons_self ..)
    · refine List.forall_mem_cons.2 ⟨hseen, fun q hq hm => ?_⟩
      exact hnot q hq (List.mem_cons_of_mem _ hm)

end Scope

/-! ### Statements -/

namespace Expr

variable {scope : Scope} {params : List Param}

theorem isInstance_typedArgs {ts : List (Option Term)} {wants : List Param} {us : List Term}
    (hlen : ts.length = wants.length) (hts : ∀ t? ∈ ts, ∀ t ∈ t?, t.Complete scope.decls params)
    (h : typedArgs ts wants = some us) : IsInstance scope.decls params wants us := by
  induction ts generalizing wants us with
  | nil =>
    rw [List.length_eq_zero_iff.1 hlen.symm] at h ⊢
    cases h
    exact ⟨rfl, nofun⟩
  | cons t? ts ih =>
    cases wants with
    | nil => exact absurd hlen nofun
    | cons want wants =>
      cases t? with
      | none => exact absurd h nofun
      | some t =>
        rw [typedArgs] at h
        split at h
        · next htype =>
          obtain ⟨us, hus, rfl⟩ := Option.map_eq_some_iff.1 h
          obtain ⟨hfits, hholes⟩ := ih (Nat.succ.inj hlen)
            (fun t? ht => hts t? (List.mem_cons_of_mem _ ht)) hus
          have ht := hts _ (List.mem_cons_self ..) t rfl
          exact ⟨Term.fits_cons.2 ⟨htype, ht.wellTyped, hfits⟩, List.forall_mem_cons.2 ⟨ht.noHole, hholes⟩⟩
        · exact absurd h nofun

mutual
theorem yields_elaborate : ∀ e : Expr,
    (e.elaborate scope params).Yields fun t? => ∀ t ∈ t?, t.Complete scope.decls params
  | ⟨head, args, span⟩ => by
    unfold elaborate
    split
    · next param hparam =>
      refine yields_then fun _ => yields_ite (fun _ => yields_pure ?_) fun _ => yields_then fun _ =>
        yields_pure nofun
      rintro t ⟨⟩
      have hname : param.name.text = head.text := by simpa using List.find?_some hparam
      exact ⟨⟨List.mem_of_find?_eq_some hparam, hname.symm⟩, rfl⟩
    · split
      · exact yields_then fun _ => yields_pure nofun
      · next decl hdecl =>
        obtain ⟨hmem, hname⟩ := Scope.mem_decls_of_term? hdecl
        refine yields_bind (Q := fun ok => ok = true → args.length = decl.params.length)
          value_checkArity fun ok harity => ?_
        refine yields_ite (fun _ => yields_pure nofun) fun hok => yields_then fun _ => ?_
        have harity := harity (by simpa using hok)
        refine yields_bind (yields_elaborateAll args) fun ts hts => ?_
        split
        · next us hus =>
          refine yields_pure ?_
          rintro t ⟨⟩
          obtain ⟨hfits, hholes⟩ := isInstance_typedArgs (hts.1.trans harity) hts.2 hus
          exact Term.complete_app.2 ⟨⟨hmem, hname.symm⟩, hfits, hholes⟩
        · exact yields_then fun _ => yields_pure nofun
theorem yields_elaborateAll : ∀ es : List Expr,
    (elaborateAll scope params es).Yields fun ts =>
      ts.length = es.length ∧ ∀ t? ∈ ts, ∀ t ∈ t?, t.Complete scope.decls params
  | [] => yields_pure ⟨rfl, nofun⟩
  | e :: es => by
    unfold elaborateAll
    refine yields_bind (yields_elaborate e) fun t ht => yields_bind (yields_elaborateAll es) fun ts hts => ?_
    exact yields_pure ⟨congrArg Nat.succ hts.1, List.forall_mem_cons.2 ⟨ht, hts.2⟩⟩
end

end Expr

/-! ### Arguments of proof steps -/

namespace Expr

variable {scope : Scope} {params : List Param}

theorem Leaf.wellTyped {want : Param} {e : Expr} {hs : Holes} {t : Term} {c : List Holes.Call}
    (h : e.Leaf scope params want hs t c) : t.type = want.type.text ∧ t.WellTyped scope.decls params := by
  cases h with
  | @var param hparam htype =>
    have hname : param.name.text = e.head.text := by simpa using List.find?_some hparam
    exact ⟨htype, List.mem_of_find?_eq_some hparam, hname.symm⟩
  | use _ htype => exact ⟨htype, trivial⟩
  | named => exact ⟨rfl, trivial⟩
  | fresh => exact ⟨rfl, trivial⟩

theorem Fills.fits {head : Token.Ref} {wants : List Param} {es : List Expr} {hs : Holes} {ts : List Term}
    {cs : List Holes.Call} {n : Notes} (h : Fills scope params head wants es hs ts cs n) :
    Term.Fits scope.decls params ts wants := by
  induction h with
  | done => exact rfl
  | missing _ ih => exact Term.fits_cons.2 ⟨rfl, trivial, ih⟩
  | leaf hleaf _ _ _ ih => exact Term.fits_cons.2 ⟨hleaf.wellTyped.1, hleaf.wellTyped.2, ih⟩
  | app hdecl htype _ _ _ _ ihargs ih =>
    obtain ⟨hmem, hname⟩ := Scope.mem_decls_of_find? hdecl
    exact Term.fits_cons.2 ⟨htype, Term.wellTyped_app.2 ⟨hmem, hname.symm, ihargs⟩, ih⟩

end Expr

/-! ### Proofs -/

namespace Step

variable {scope : Scope} {thm : Rule}

theorem mem_decls_of_rule? {x : String} {kind : Token.Kind} {rule : Rule}
    (h : rule? scope x = some (kind, rule)) :
    ∃ d ∈ scope.decls, d.name.text = x ∧ d.rule? = some rule := by
  unfold rule? at h
  split at h
  · next r hr =>
    cases h
    exact ⟨_, (Scope.mem_decls_of_find? hr).1, (Scope.mem_decls_of_find? hr).2, rfl⟩
  · next t ht =>
    cases h
    exact ⟨_, (Scope.mem_decls_of_find? ht).1, (Scope.mem_decls_of_find? ht).2, rfl⟩
  · exact absurd h nofun

theorem Elaborates.wellFormed {es : List Expr} {hs : Holes} {steps : List Step} {others : List Suggestion}
    {cs : List Holes.Call} {n : Notes} (h : Elaborates scope thm es hs steps others cs n) :
    ∀ s ∈ steps, s.WellFormed scope.decls thm := by
  induction h with
  | nil => exact List.forall_mem_nil _
  | unnamed _ _ _ _ ih => exact ih
  | named hrule _ _ hargs _ _ ih =>
    exact List.forall_mem_cons.2 ⟨⟨mem_decls_of_rule? hrule, hargs.fits, rfl⟩, ih⟩

/-- Replaying gives goals and alternatives for every step. -/
theorem yields_length_replay (holes : Holes) (current : List Term) (steps : List Step) :
    (replay thm holes current steps).Yields fun r =>
      r.1.length = steps.length ∧ r.2.length = steps.length := by
  induction steps generalizing current with
  | nil => exact yields_pure ⟨rfl, rfl⟩
  | cons step steps ih =>
    unfold replay
    split
    · refine yields_then fun _ => yields_bind (ih _) fun r hr => yields_pure ?_
      exact ⟨congrArg (· + 1) hr.1, congrArg (· + 1) hr.2⟩
    · refine yields_then fun _ => yields_bind (ih _) fun r hr => yields_pure ?_
      exact ⟨congrArg (· + 1) hr.1, congrArg (· + 1) hr.2⟩

end Step

theorem Thm.yields_prove (scope : Scope) (rule : Rule) (proof : List Expr) :
    (Thm.prove scope rule proof).Yields fun thm =>
      thm.rule = rule ∧ (∀ s ∈ thm.proof, s.WellFormed scope.decls rule) ∧ thm.Aligned := by
  obtain ⟨cs, -, helaborates⟩ := exists_elaborates scope rule proof
  have hwf : ((Step.elaborateAll scope rule proof).run ∅).Yields fun r =>
      ∀ s ∈ r.1.1, s.WellFormed scope.decls rule := helaborates.wellFormed
  unfold prove
  refine yields_bind hwf fun ⟨⟨steps, _⟩, table⟩ hsteps => ?_
  refine yields_bind (Step.yields_length_replay table.holes rule.targets steps) fun r hr => ?_
  exact yields_pure ⟨rfl, hsteps, hr.1, hr.2⟩

/-! ### Declarations -/

theorem Template.lt_of_mem_cons {params : List String} {piece : String} {t : Template} {i : Nat}
    (h : .arg i ∈ cons params piece t) : i < params.length ∨ .arg i ∈ t := by
  unfold cons at h
  split at h
  · next j hj =>
    rcases List.mem_cons.1 h with h | h
    · cases h
      exact .inl (List.idxOf?_eq_some_iff.1 hj).1
    · exact .inr h
  · split at h
    · rcases List.mem_cons.1 h with h | h
      · exact absurd h nofun
      · exact .inr (List.mem_cons_of_mem _ h)
    · rcases List.mem_cons.1 h with h | h
      · exact absurd h nofun
      · exact .inr h

theorem Template.lt_of_mem_ofForm {params form : List String} {i : Nat}
    (h : .arg i ∈ ofForm params form) : i < params.length := by
  unfold ofForm at h
  generalize form.flatMap (pieces params) = pieces at h
  induction pieces with
  | nil => exact absurd h List.not_mem_nil
  | cons piece pieces ih => exact (lt_of_mem_cons h).elim id ih

/-- The table of a scope is well formed after its imports. -/
def Scope.WellFormed (scope : Scope) : Prop :=
  InOrder Decl.WellFormed (scope.imports.flatMap (·.decls)) scope.table.decls

/-- What a block makes of the table of a scope. -/
def KeepsWellFormed (scope : Scope) (x : Noted Table) : Prop :=
  x.Yields fun table => { scope with table }.WellFormed

variable {scope : Scope}

theorem keepsWellFormed_declare {d : Decl} (h : scope.WellFormed) (hd : d.WellFormed scope.decls) :
    KeepsWellFormed scope (scope.declare d) := by
  unfold Scope.declare
  split
  · next table ht =>
    refine yields_pure ?_
    rw [Scope.WellFormed, (Table.insert_eq_ok ht).2]
    exact inOrder_append.2 ⟨h, hd, trivial⟩
  · exact yields_then fun _ => h

theorem TypeBlock.keepsWellFormed_declareNames (span : Span) {names : List Token.Ref}
    (hw : ∀ n ∈ names, IsWord n.text) (h : scope.WellFormed) :
    KeepsWellFormed scope (declareNames scope span names) := by
  induction names generalizing scope with
  | nil => exact yields_pure h
  | cons n ns ih =>
    unfold declareNames
    have hns := fun n hn => hw n (List.mem_cons_of_mem _ hn)
    refine yields_bind (Scope.yields_checkFresh (hw n (List.mem_cons_self ..))) fun ok hok => ?_
    refine yields_ite (fun htrue => ?_) fun _ => ih hns h
    exact yields_bind (keepsWellFormed_declare h (hok htrue)) fun table htable => ih hns htable

theorem TermBlock.keepsWellFormed_declare {b : TermBlock} (hn : IsWord b.name.text)
    (hp : ∀ p ∈ b.params, IsWord p.name.text) (h : scope.WellFormed) :
    KeepsWellFormed scope (b.declare scope) := by
  unfold declare
  refine yields_bind (Scope.yields_checkType b.type) fun ok htype => ?_
  refine yields_ite (fun _ => yields_pure h) fun hok => ?_
  refine yields_bind (Scope.yields_checkFresh hn) fun ok' hname => ?_
  refine yields_ite (fun _ => yields_pure h) fun hok' => ?_
  refine yields_bind (Scope.yields_checkParams hp []) fun ok'' hparams => ?_
  refine yields_ite (fun _ => yields_pure h) fun hok'' => yields_then fun _ => ?_
  refine Sequitur.keepsWellFormed_declare h ⟨hname (by simpa using hok'), htype (by simpa using hok),
    (hparams (by simpa using hok'')).1, fun i hi => ?_⟩
  rw [← List.length_map]
  exact Template.lt_of_mem_ofForm hi

namespace RuleBlock

theorem yields_statements (params : List Param) (es : List Expr) :
    (statements scope params es).Yields fun ts? => ∀ ts ∈ ts?, ∀ t ∈ ts, t.Complete scope.decls params := by
  induction es with
  | nil =>
    refine yields_pure ?_
    rintro ts ⟨⟩
    exact nofun
  | cons e es ih =>
    unfold statements
    refine yields_bind (Expr.yields_elaborate e) fun t? ht => ?_
    match t? with
    | none => exact yields_pure nofun
    | some t =>
      refine yields_then fun _ => yields_bind ih fun ts? hts => yields_pure fun us hus => ?_
      obtain ⟨ts, hsome, rfl⟩ := Option.map_eq_some_iff.1 hus
      exact List.forall_mem_cons.2 ⟨ht t rfl, hts ts hsome⟩

theorem yields_rule? {b : RuleBlock} {ls : List Lexeme} (hb : b.ReadFrom ls)
    (hw : ∀ r, WordIn ls r → IsWord r.text) :
    (b.rule? scope).Yields fun r? => ∀ r ∈ r?, r.WellFormed scope.decls := by
  unfold rule?
  refine yields_bind (Scope.yields_checkFresh (hw _ hb.name)) fun ok hname => ?_
  refine yields_ite (fun _ => yields_pure nofun) fun hok => ?_
  refine yields_bind (Scope.yields_checkParams (fun p hp => hw _ (hb.params p hp).2) []) fun ok' hparams => ?_
  refine yields_ite (fun _ => yields_pure nofun) fun hok' => ?_
  refine yields_bind (yields_statements b.params b.targets) fun targets? htargets => ?_
  match targets? with
  | none => exact yields_pure nofun
  | some targets =>
    refine yields_bind (yields_statements b.params b.assumptions) fun assumptions? hassumptions => ?_
    match assumptions? with
    | none => exact yields_pure nofun
    | some assumptions =>
      refine yields_pure ?_
      rintro r ⟨⟩
      refine ⟨hname (by simpa using hok), (hparams (by simpa using hok')).1, htargets _ rfl,
        hassumptions _ rfl, fun g hg => ?_⟩
      obtain ⟨g, hmem, rfl⟩ := List.mem_map.1 hg
      obtain ⟨hlen, hnodup, hin⟩ := hb.groups g hmem
      refine ⟨by simpa using hlen, hnodup, fun x hx => ?_⟩
      obtain ⟨r, hr, rfl⟩ := List.mem_map.1 hx
      obtain ⟨p, hp, he⟩ := hin r hr
      exact he ▸ List.mem_map_of_mem (f := (·.name.text)) hp

end RuleBlock

namespace Block

/-- One block, however it was read, keeps a table well formed. -/
theorem keepsWellFormed_declare {b : Block} {ls : List Lexeme} (hb : b.ReadFrom ls)
    (hw : ∀ r, WordIn ls r → IsWord r.text) (h : scope.WellFormed) :
    KeepsWellFormed scope (b.declare scope) := by
  cases b with
  | types b => exact TypeBlock.keepsWellFormed_declareNames b.span (fun n hn => hw n (hb n hn)) h
  | term b => exact TermBlock.keepsWellFormed_declare (hw _ hb.name) (fun p hp => hw _ (hb.params p hp).2) h
  | axm b =>
    refine yields_bind (RuleBlock.yields_rule? hb hw) fun r? hr => ?_
    match r? with
    | none => exact yields_pure h
    | some r => exact Sequitur.keepsWellFormed_declare h (hr r rfl)
  | thm b =>
    refine yields_bind (RuleBlock.yields_rule? hb.1 hw) fun r? hr => ?_
    match r? with
    | none => exact yields_pure h
    | some r =>
      refine yields_bind (Thm.yields_prove scope r b.proof) fun thm hthm => ?_
      have hd : (Decl.thm thm).WellFormed scope.decls := by
        obtain ⟨rfl, hproof, haligned⟩ := hthm
        exact ⟨hr _ rfl, hproof, haligned⟩
      refine yields_ite (fun _ => yields_then fun _ => ?_) fun _ => ?_
      all_goals exact Sequitur.keepsWellFormed_declare h hd

theorem keepsWellFormed_declareAll {blocks : List Block} {ls : List Lexeme}
    (hb : ∀ b ∈ blocks, b.ReadFrom ls) (hw : ∀ r, WordIn ls r → IsWord r.text) (h : scope.WellFormed) :
    KeepsWellFormed scope (declareAll scope blocks) := by
  induction blocks generalizing scope with
  | nil => exact yields_pure h
  | cons b blocks ih =>
    refine yields_bind (keepsWellFormed_declare (hb b (List.mem_cons_self ..)) hw h) fun table htable => ?_
    exact ih (fun b hb' => hb b (List.mem_cons_of_mem _ hb')) htable

end Block

/-- Whatever diagnostics a text has, its table is well formed after the imports. -/
theorem Document.inOrder_wellFormed_check (imports : List Table) (searchLimit : Nat) (text : String) :
    InOrder Decl.WellFormed (imports.flatMap (·.decls)) (Document.check imports searchLimit text).decls := by
  have hwords : ∀ r, WordIn (Lexeme.ofTokens (Token.scan text)) r → IsWord r.text := by
    rintro r ⟨l, hl, hw, rfl⟩
    exact Lexeme.isWord_of_mem_scan hl hw
  have hempty : ({ imports, searchLimit } : Scope).WellFormed := trivial
  exact Block.keepsWellFormed_declareAll (fun b hb => Block.readFrom_of_mem_readAll hb) hwords hempty

end Sequitur
