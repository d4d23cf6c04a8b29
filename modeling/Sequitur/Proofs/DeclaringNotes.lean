import Sequitur.Proofs.ReadingNotes
import Sequitur.Proofs.WellFormed

/-!
# Where notes of declaring are

What a block declares is checked at the tokens that the block holds, so the notes are there
(`Block.within_declare`): faults at names, types, parameters and heads of expressions, never at a token
of a declaration that a name refers to. Steps of a proof keep the head that they were written with, and a
hole has no notes of its own.
-/

namespace Sequitur

open Noted

variable {S : Sites}

namespace Scope

variable (scope : Scope)

theorem within_checkFresh {name : Token.Ref} (h : S.fault name) : (scope.checkFresh name).Within S := by
  unfold checkFresh
  refine within_ite (fun _ => ?_) fun _ => within_ite (fun _ => ?_) fun _ => within_pure _
  · exact within_then (within_fault h) fun _ => within_pure _
  · exact within_then (within_fault h) fun _ => within_pure _

theorem within_checkType {type : Token.Ref} (h : S.fault type) : (scope.checkType type).Within S := by
  unfold checkType
  split
  · exact within_pure _
  · exact within_then (within_fault h) fun _ => within_pure _
  · exact within_then (within_fault h) fun _ => within_pure _

theorem within_checkParams {ps : List Param} (h : ∀ p ∈ ps, S.Name p.type ∧ S.Name p.name)
    (seen : List String) : (scope.checkParams seen ps).Within S := by
  induction ps generalizing seen with
  | nil => exact within_pure _
  | cons p ps ih =>
    obtain ⟨⟨htype, hname⟩, hps⟩ := List.forall_mem_cons.1 h
    unfold checkParams
    refine within_then (scope.within_checkType htype.fault) fun _ => ?_
    refine within_ite (fun _ => within_pure _) fun _ => ?_
    refine within_then (scope.within_checkFresh hname.fault) fun _ => ?_
    refine within_ite (fun _ => within_pure _) fun _ => within_ite (fun _ => ?_) fun _ => ih hps _
    exact within_then (within_fault hname.fault) fun _ => within_pure _

theorem within_declare {d : Decl} (h : S.fault d.name) : (scope.declare d).Within S := by
  unfold declare
  split
  · exact within_pure _
  · exact within_then (within_fault h) fun _ => within_pure _

end Scope

theorem within_checkArity {head : Token.Ref} (h : S.fault head) (want got : Nat) :
    (checkArity head want got).Within S := by
  unfold checkArity
  refine within_ite (fun _ => within_pure _) fun _ => ?_
  exact within_then (within_fault h) fun _ => within_pure _

namespace Expr

variable {scope : Scope} {params : List Param}

mutual
theorem within_elaborate : ∀ e : Expr, (∀ r ∈ e.heads, S.Name r) → (e.elaborate scope params).Within S
  | ⟨head, args, span⟩, h => by
    rw [heads] at h
    obtain ⟨hhead, hargs⟩ := List.forall_mem_cons.1 h
    unfold elaborate
    split
    · refine within_then (within_refine (hhead.refine _ rfl)) fun _ => ?_
      refine within_ite (fun _ => within_pure _) fun _ => ?_
      exact within_then (within_fault hhead.fault) fun _ => within_pure _
    · split
      · exact within_then (within_fault hhead.fault) fun _ => within_pure _
      · next decl _ =>
        refine within_then (within_checkArity hhead.fault _ _) fun _ => ?_
        refine within_ite (fun _ => within_pure _) fun _ => ?_
        refine within_then (within_refine (hhead.refine _ decl.isName_nameKind)) fun _ => ?_
        refine within_then (within_elaborateAll args hargs) fun ts => ?_
        split
        · exact within_pure _
        · exact within_then (within_fault hhead.fault) fun _ => within_pure _
theorem within_elaborateAll : ∀ es : List Expr, (∀ r ∈ headsAll es, S.Name r) →
    (elaborateAll scope params es).Within S
  | [], _ => within_pure _
  | e :: es, h => by
    rw [headsAll] at h
    obtain ⟨he, hes⟩ := List.forall_mem_append.1 h
    unfold elaborateAll
    refine within_then (within_elaborate e he) fun _ => ?_
    exact within_then (within_elaborateAll es hes) fun _ => within_pure _
end

end Expr

/-! ### Proofs -/

theorem Expr.Fills.within {scope : Scope} {params : List Param} {head : Token.Ref} {wants : List Param}
    {es : List Expr} {hs : Holes} {ts : List Term} {cs : List Holes.Call} {n : Notes}
    (h : Fills scope params head wants es hs ts cs n) (hheads : ∀ r ∈ headsAll es, S.Name r) : n.Within S := by
  induction h with
  | done => exact Notes.within_empty S
  | missing _ ih => exact ih hheads
  | leaf _ hat _ _ ih =>
    rw [headsAll, List.forall_mem_append] at hheads
    exact (hat.within (hheads.1 _ (head_mem_heads _))).append (ih hheads.2)
  | app _ _ _ hat _ _ ihargs ih =>
    rw [headsAll, List.forall_mem_append] at hheads
    have hargs := ihargs fun r hr => hheads.1 r (headsAll_args_subset _ hr)
    exact ((hat.within (hheads.1 _ (head_mem_heads _))).append hargs).append (ih hheads.2)

namespace Step

variable {scope : Scope} {thm : Rule}

theorem Elaborates.within {es : List Expr} {hs : Holes} {steps : List Step} {others : List Suggestion}
    {cs : List Holes.Call} {n : Notes} (h : Elaborates scope thm es hs steps others cs n)
    (hheads : ∀ e ∈ es, ∀ r ∈ e.heads, S.Name r) : n.Within S := by
  induction h with
  | nil => exact Notes.within_empty S
  | unnamed _ hat _ _ ih =>
    obtain ⟨he, hes⟩ := List.forall_mem_cons.1 hheads
    exact (hat.within (he _ (Expr.head_mem_heads _))).append (ih hes)
  | named _ hat _ hargs hat' _ ih =>
    obtain ⟨he, hes⟩ := List.forall_mem_cons.1 hheads
    have hhead := he _ (Expr.head_mem_heads _)
    have hfill := hargs.within fun r hr => he r (Expr.headsAll_args_subset _ hr)
    exact (((hat.within hhead).append hfill).append (hat'.within hhead)).append (ih hes)

/-- A step is there if its rule is, and keeps what was written. -/
theorem Elaborates.sites {es : List Expr} {hs : Holes} {steps : List Step} {others : List Suggestion}
    {cs : List Holes.Call} {n : Notes} (h : Elaborates scope thm es hs steps others cs n) :
    steps.map (fun s => (s.head, s.span, s.rule)) =
      es.filterMap fun e => (rule? scope e.head.text).map fun r => (e.head, e.span, r.2) := by
  induction h with
  | nil => rfl
  | unnamed hrule _ _ _ ih => rw [List.filterMap_cons, hrule, ih, Option.map_none]
  | named hrule _ _ _ _ _ ih =>
    rw [List.filterMap_cons, hrule, Option.map_some, List.map_cons, ih]
    rfl

/-- A step keeps the head that it was written with. -/
theorem Elaborates.exists_head {es : List Expr} {hs : Holes} {steps : List Step} {others : List Suggestion}
    {cs : List Holes.Call} {n : Notes} (h : Elaborates scope thm es hs steps others cs n) {s : Step}
    (hs : s ∈ steps) : ∃ e ∈ es, s.head = e.head := by
  have hsite : (s.head, s.span, s.rule) ∈ steps.map fun s => (s.head, s.span, s.rule) := List.mem_map_of_mem hs
  rw [h.sites] at hsite
  obtain ⟨e, he, hsome⟩ := List.mem_filterMap.1 hsite
  obtain ⟨rule, -, heq⟩ := Option.map_eq_some_iff.1 hsome
  exact ⟨e, he, (congrArg Prod.fst heq).symm⟩

theorem within_replay (holes : Holes) {steps : List Step} (h : ∀ s ∈ steps, S.fault s.head)
    (current : List Term) : (replay thm holes current steps).Within S := by
  induction steps generalizing current with
  | nil => exact within_pure _
  | cons step steps ih =>
    obtain ⟨hstep, hsteps⟩ := List.forall_mem_cons.1 h
    unfold replay
    split
    · refine within_then (within_comment ..) fun _ => ?_
      exact within_then (ih hsteps _) fun _ => within_pure _
    · refine within_then (within_fault hstep) fun _ => ?_
      exact within_then (ih hsteps _) fun _ => within_pure _

end Step

theorem Thm.within_prove (scope : Scope) (rule : Rule) {proof : List Expr}
    (h : ∀ e ∈ proof, ∀ r ∈ e.heads, S.Name r) : (Thm.prove scope rule proof).Within S := by
  obtain ⟨cs, -, helaborates⟩ := exists_elaborates scope rule proof
  have hheads : ((Step.elaborateAll scope rule proof).run ∅).Yields fun r =>
      ∀ s ∈ r.1.1, ∃ e ∈ proof, s.head = e.head := fun s => helaborates.exists_head
  unfold prove
  refine within_bind (helaborates.within h) hheads ?_
  rintro ⟨⟨steps, suggestions⟩, table⟩ hsteps
  refine within_then (Step.within_replay table.holes (fun s hs => ?_) rule.targets) fun _ => within_pure _
  obtain ⟨e, he, hhead⟩ := hsteps s hs
  rw [hhead]
  exact (h e he e.head e.head_mem_heads).fault

/-! ### Declarations -/

namespace TypeBlock

theorem within_declareNames (scope : Scope) (span : Span) {names : List Token.Ref}
    (h : ∀ n ∈ names, S.Name n) : (declareNames scope span names).Within S := by
  induction names generalizing scope with
  | nil => exact within_pure _
  | cons name names ih =>
    obtain ⟨hname, hnames⟩ := List.forall_mem_cons.1 h
    unfold declareNames
    refine within_then (scope.within_checkFresh hname.fault) fun ok => ?_
    cases ok with
    | true => exact within_then (scope.within_declare hname.fault) fun _ => ih _ hnames
    | false => exact within_then (within_pure _) fun _ => ih _ hnames

end TypeBlock

namespace TermBlock

theorem within_declare (scope : Scope) {b : TermBlock} {ls : List Lexeme} (hS : S.Cover ls)
    (hb : b.ReadFrom ls)
    (hform : ∀ r ∈ b.content, ∀ p ∈ b.params, r.text = p.name.text → S.refine r .argName) :
    (b.declare scope).Within S := by
  have hname := hS.of_wordIn hb.name
  have hparams : ∀ p ∈ b.params, S.Name p.type ∧ S.Name p.name := fun p hp =>
    ⟨hS.of_wordIn (hb.params p hp).1, hS.of_wordIn (hb.params p hp).2⟩
  unfold declare
  refine within_then (scope.within_checkType (hS.of_wordIn hb.type).fault) fun _ => ?_
  refine within_ite (fun _ => within_pure _) fun _ => ?_
  refine within_then (scope.within_checkFresh hname.fault) fun _ => ?_
  refine within_ite (fun _ => within_pure _) fun _ => ?_
  refine within_then (scope.within_checkParams hparams _) fun _ => ?_
  refine within_ite (fun _ => within_pure _) fun _ => ?_
  refine within_then (within_forM fun r hr => ?_) fun _ => scope.within_declare hname.fault
  refine within_ite (fun hmem => ?_) fun _ => within_pure _
  obtain ⟨p, hp, htext⟩ := List.mem_map.1 (List.contains_iff_mem.1 hmem)
  exact within_refine (hform r hr p hp htext.symm)

end TermBlock

namespace RuleBlock

variable (scope : Scope)

theorem within_statements (params : List Param) {es : List Expr} (h : ∀ e ∈ es, ∀ r ∈ e.heads, S.Name r) :
    (statements scope params es).Within S := by
  induction es with
  | nil => exact within_pure _
  | cons e es ih =>
    obtain ⟨he, hes⟩ := List.forall_mem_cons.1 h
    unfold statements
    refine within_then (Expr.within_elaborate e he) fun t? => ?_
    cases t? with
    | none => exact within_pure _
    | some t =>
      refine within_then (within_comment ..) fun _ => ?_
      exact within_then (ih hes) fun _ => within_pure _

variable {b : RuleBlock} {ls : List Lexeme}

theorem within_rule? (hS : S.Cover ls) (hb : b.ReadFrom ls) : (b.rule? scope).Within S := by
  have hparams : ∀ p ∈ b.params, S.Name p.type ∧ S.Name p.name := fun p hp =>
    ⟨hS.of_wordIn (hb.params p hp).1, hS.of_wordIn (hb.params p hp).2⟩
  unfold rule?
  refine within_then (scope.within_checkFresh (hS.of_wordIn hb.name).fault) fun _ => ?_
  refine within_ite (fun _ => within_pure _) fun _ => ?_
  refine within_then (scope.within_checkParams hparams _) fun _ => ?_
  refine within_ite (fun _ => within_pure _) fun _ => ?_
  refine within_then (within_statements scope b.params fun e he r hr => ?_) ?_
  · exact hS.of_wordIn (hb.targets e he r hr)
  intro targets?
  cases targets? with
  | none => exact within_pure _
  | some targets =>
    refine within_then (within_statements scope b.params fun e he r hr => ?_) ?_
    · exact hS.of_wordIn (hb.assumptions e he r hr)
    intro assumptions?
    cases assumptions? with
    | none => exact within_pure _
    | some assumptions => exact within_pure _

/-- A rule has the name and the span of its block. -/
theorem yields_site_rule? (b : RuleBlock) :
    (b.rule? scope).Yields fun r? => ∀ r, r? = some r → r.name = b.name ∧ r.span = b.span := by
  unfold rule?
  refine yields_then fun _ => yields_ite (fun _ => yields_pure fun r hr => absurd hr nofun) fun _ => ?_
  refine yields_then fun _ => yields_ite (fun _ => yields_pure fun r hr => absurd hr nofun) fun _ => ?_
  refine yields_then fun targets? => ?_
  cases targets? with
  | none => exact yields_pure fun r hr => absurd hr nofun
  | some targets =>
    refine yields_then fun assumptions? => ?_
    cases assumptions? with
    | none => exact yields_pure fun r hr => absurd hr nofun
    | some assumptions =>
      refine yields_pure ?_
      rintro r ⟨⟩
      exact ⟨rfl, rfl⟩

theorem yields_name_rule? (b : RuleBlock) :
    (b.rule? scope).Yields fun r? => ∀ r, r? = some r → r.name = b.name :=
  (yields_site_rule? scope b).mono fun _ h r hr => (h r hr).1

end RuleBlock

namespace Block

/-- Declaring a block takes notes at tokens of the lexemes that it was read from. -/
theorem within_declare (scope : Scope) {b : Block} {ls : List Lexeme} (hS : S.Cover ls) (hb : b.ReadFrom ls)
    (hform : ∀ t : TermBlock, b = .term t → ∀ r ∈ t.content, ∀ p ∈ t.params, r.text = p.name.text →
      S.refine r .argName) : (b.declare scope).Within S := by
  cases b with
  | types b => exact TypeBlock.within_declareNames scope b.span fun n hn => hS.of_wordIn (hb n hn)
  | term b => exact TermBlock.within_declare scope hS hb (hform b rfl)
  | axm b =>
    refine within_bind (RuleBlock.within_rule? scope hS hb) (RuleBlock.yields_name_rule? scope b) ?_
    intro r? hr
    cases r? with
    | none => exact within_pure _
    | some r => exact scope.within_declare (by rw [Decl.name, hr r rfl]; exact (hS.of_wordIn hb.name).fault)
  | thm b =>
    obtain ⟨hrule, hproof⟩ := hb
    have hname := (hS.of_wordIn hrule.name).fault
    refine within_bind (RuleBlock.within_rule? scope hS hrule)
      (RuleBlock.yields_name_rule? scope b.toRuleBlock) ?_
    intro r? hr
    cases r? with
    | none => exact within_pure _
    | some r =>
      have hname : S.fault r.name := hr r rfl ▸ hname
      refine within_bind (Thm.within_prove scope r fun e he r hr => hS.of_wordIn (hproof e he r hr))
        (Thm.yields_prove scope r b.proof) fun thm hthm => ?_
      have hdeclare : (scope.declare (.thm thm)).Within S :=
        scope.within_declare (by rw [Decl.name, hthm.1]; exact hname)
      exact within_ite (fun _ => within_then (within_fault hname) fun _ => hdeclare) fun _ => hdeclare

end Block

end Sequitur
