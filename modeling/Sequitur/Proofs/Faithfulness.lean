import Sequitur.Proofs.Rereading
import Sequitur.Proofs.Soundness

/-!
# Declarations say what was written

Where no fault is found, the terms of a declaration are spelled the way the expressions of its block
are: the same names in the same places (`Block.ensures_makes`). Elaboration only adds what the names
refer to. So the printed declaration is the block again, up to places, except for the form of a term,
which is printed by its template.
-/

namespace Sequitur

open Placed (relocate)
open Noted Filling

mutual
/-- The names of an expression. -/
def Expr.tree : Expr → Tree
  | ⟨head, args, _⟩ => .node head.text (trees args)
def Expr.trees : List Expr → List Tree
  | [] => []
  | e :: es => tree e :: trees es
end

namespace Expr

theorem trees_eq_map (es : List Expr) : trees es = es.map tree := by
  induction es with
  | nil => rfl
  | cons e es ih => rw [trees, ih, List.map_cons]

theorem tree_mk (head : Token.Ref) (args : List Expr) (span : Span) :
    tree ⟨head, args, span⟩ = .node head.text (args.map tree) := by
  rw [tree, trees_eq_map]

mutual
/-- Without places, nothing but the names is left of an expression. -/
theorem expr_tree : ∀ e : Expr, e.tree.expr = relocate .blank e
  | ⟨head, args, span⟩ => by
    rw [tree, Tree.expr, exprs_trees args, relocate_mk]
    rfl
theorem exprs_trees : ∀ es : List Expr, Tree.exprs (trees es) = relocate .blank es
  | [] => rfl
  | e :: es => by rw [trees, Tree.exprs, expr_tree e, exprs_trees es, relocate_cons]
end

theorem exprs_map_tree (es : List Expr) : (es.map tree).map Tree.expr = relocate .blank es := by
  rw [← trees_eq_map, ← Tree.exprs_eq_map, exprs_trees]

variable {scope : Scope} {params : List Param}

/-! ### Statements -/

theorem typedArgs_map_some {ts us : List Term} {wants : List Param} (hlen : ts.length = wants.length)
    (h : typedArgs (ts.map some) wants = some us) : us = ts := by
  induction ts generalizing wants us with
  | nil =>
    rw [List.length_eq_zero_iff.1 hlen.symm] at h
    cases h
    rfl
  | cons t ts ih =>
    cases wants with
    | nil => exact absurd hlen (by simp)
    | cons want wants =>
      rw [List.map_cons, typedArgs] at h
      split at h
      · obtain ⟨vs, hvs, rfl⟩ := Option.map_eq_some_iff.1 h
        rw [ih (Nat.succ.inj hlen) hvs]
      · cases h

theorem ensures_checkArity (head : Token.Ref) (want got : Nat) :
    (checkArity head want got).Ensures fun ok => ok = true ∧ got = want := by
  unfold checkArity
  exact ensures_ite (fun h => ensures_pure ⟨rfl, h⟩) fun _ => ensures_fault

mutual
theorem ensures_elaborate : ∀ e : Expr,
    (e.elaborate scope params).Ensures fun t? => ∃ t, t? = some t ∧ t.tree = e.tree
  | ⟨head, args, span⟩ => by
    rw [tree_mk]
    unfold elaborate
    split
    · next param hparam =>
      have hname : param.name.text = head.text := by simpa using List.find?_some hparam
      refine ensures_then fun _ => ensures_ite (fun hargs => ?_) fun _ => ensures_fault
      rw [List.isEmpty_iff.1 hargs, ← hname]
      exact ensures_pure ⟨_, rfl, rfl⟩
    · split
      · exact ensures_fault
      · next decl hdecl =>
        have hname := (Scope.mem_decls_of_term? hdecl).2
        refine ensures_bind (ensures_checkArity head decl.params.length args.length) ?_
        rintro ok ⟨rfl, harity⟩
        refine ensures_then fun _ => ensures_bind (ensures_elaborateAll args) ?_
        rintro ts ⟨us, rfl, hus⟩
        split
        · next vs hvs =>
          have hlen : us.length = decl.params.length := by
            rw [← harity, ← List.length_map (f := Term.tree), hus, List.length_map]
          rw [typedArgs_map_some hlen hvs]
          refine ensures_pure ⟨_, rfl, ?_⟩
          rw [Term.tree_app, hname, hus]
        · exact ensures_fault
theorem ensures_elaborateAll : ∀ es : List Expr,
    (elaborateAll scope params es).Ensures fun ts =>
      ∃ us : List Term, ts = us.map some ∧ us.map Term.tree = es.map tree
  | [] => ensures_pure ⟨[], rfl, rfl⟩
  | e :: es => by
    unfold elaborateAll
    refine ensures_bind (ensures_elaborate e) ?_
    rintro t? ⟨t, rfl, ht⟩
    refine ensures_bind (ensures_elaborateAll es) ?_
    rintro ts ⟨us, rfl, hus⟩
    exact ensures_pure ⟨t :: us, rfl, by rw [List.map_cons, ht, hus, List.map_cons]⟩
end

/-! ### Arguments of proof steps -/

theorem Fills.trees {head : Token.Ref} {wants : List Param} {es : List Expr} {ts : List Term}
    {cs : List Holes.Call} {n : Notes} (h : Fills scope params head wants es [] ts cs n)
    (hlen : es.length = wants.length) (hclean : n.diagnostics = []) : ts.map Term.tree = es.map tree := by
  generalize hnil : ([] : Holes) = hs at h
  induction h with
  | done =>
    rw [List.length_eq_zero_iff.1 hlen]
    rfl
  | missing => exact absurd hlen nofun
  | @leaf _ _ _ e _ _ _ _ _ _ _ _ hleaf _ hfault _ ih =>
    subst hnil
    obtain ⟨hm, hn⟩ := List.append_eq_nil_iff.1 hclean
    obtain ⟨hargs, hcreates⟩ := hfault hm
    obtain ⟨rfl, param, hparam, rfl⟩ := hleaf.exists_param hcreates
    have hname : param.name.text = e.head.text := by simpa using List.find?_some hparam
    obtain ⟨name, args, span⟩ := e
    cases hargs
    rw [List.map_cons, List.map_cons, ih (Nat.succ.inj hlen) hn rfl, Term.tree_var, hname, tree_mk]
    rfl
  | @app _ _ _ e _ _ _ _ _ _ _ _ _ _ hdecl _ hargs _ hfills _ ihargs ih =>
    subst hnil
    obtain ⟨hlm, hn⟩ := List.append_eq_nil_iff.1 hclean
    obtain ⟨-, hm⟩ := List.append_eq_nil_iff.1 hlm
    obtain ⟨rfl, -⟩ := hfills.solid hargs hm
    have hname := (Scope.mem_decls_of_find? hdecl).2
    obtain ⟨name, args, span⟩ := e
    rw [List.map_cons, List.map_cons, ih (Nat.succ.inj hlen) hn rfl, Term.tree_app, ihargs hargs hm rfl, tree_mk]
    exact congrArg (Tree.node · _ :: _) hname

end Expr

theorem Step.Elaborates.trees {scope : Scope} {thm : Rule} {es : List Expr} {steps : List Step}
    {others : List Suggestion} {cs : List Holes.Call} {n : Notes}
    (h : Elaborates scope thm es [] steps others cs n) (hclean : n.diagnostics = []) :
    steps.map tree = es.map Expr.tree := by
  generalize hnil : ([] : Holes) = hs at h
  induction h with
  | nil => rfl
  | unnamed _ _ hfault => exact absurd (List.append_eq_nil_iff.1 hclean).1 hfault
  | @named e _ _ _ _ _ _ _ _ _ _ _ _ _ _ _ hlen hargs _ _ ih =>
    subst hnil
    obtain ⟨hklm, hn⟩ := List.append_eq_nil_iff.1 hclean
    obtain ⟨hkl, -⟩ := List.append_eq_nil_iff.1 hklm
    obtain ⟨hk, hl⟩ := List.append_eq_nil_iff.1 hkl
    obtain ⟨rfl, -⟩ := hargs.solid (hlen hk) hl
    obtain ⟨name, args, span⟩ := e
    rw [List.map_cons, List.map_cons, ih hn rfl, Expr.tree_mk, ← hargs.trees (hlen hk) hl]
    rfl

theorem Thm.ensures_trees_prove (scope : Scope) (rule : Rule) (proof : List Expr) :
    (Thm.prove scope rule proof).Ensures fun thm =>
      thm.rule = rule ∧ thm.proof.map (·.tree) = proof.map Expr.tree := by
  obtain ⟨cs, -, helaborates⟩ := exists_elaborates scope rule proof
  have htrees : ((Step.elaborateAll scope rule proof).run ∅).Ensures fun r =>
      r.1.1.map Step.tree = proof.map Expr.tree := fun hclean => helaborates.trees hclean
  unfold prove
  refine ensures_bind htrees ?_
  rintro r hsteps
  exact ensures_then fun _ => ensures_pure ⟨rfl, hsteps⟩

/-! ### Declarations -/

variable {scope : Scope}

namespace Scope

theorem ensures_checkFresh (name : Token.Ref) : (scope.checkFresh name).Ensures (· = true) := by
  unfold checkFresh
  exact ensures_ite (fun _ => ensures_fault) fun _ => ensures_ite (fun _ => ensures_fault) fun _ =>
    ensures_pure rfl

theorem ensures_checkType (type : Token.Ref) : (scope.checkType type).Ensures (· = true) := by
  unfold checkType
  split
  · exact ensures_pure rfl
  · exact ensures_fault
  · exact ensures_fault

theorem ensures_checkParams (seen : List String) (ps : List Param) :
    (scope.checkParams seen ps).Ensures (· = true) := by
  induction ps generalizing seen with
  | nil => exact ensures_pure rfl
  | cons p ps ih =>
    unfold checkParams
    refine ensures_bind (ensures_checkType p.type) ?_
    rintro ok rfl
    refine ensures_bind (ensures_checkFresh p.name) ?_
    rintro ok rfl
    refine ensures_ite (fun h => absurd h (by simp)) fun _ => ?_
    exact ensures_ite (fun _ => ensures_fault) fun _ => ih _

theorem ensures_decls_declare (d : Decl) :
    (scope.declare d).Ensures fun table => table.decls = scope.table.decls ++ [d] := by
  unfold declare
  split
  · next table ht => exact ensures_pure (Table.insert_eq_ok ht).2
  · exact ensures_fault

end Scope

namespace RuleBlock

/-- A rule says what a block says. -/
structure Makes (b : RuleBlock) (r : Rule) : Prop where
  name : r.name = b.name
  params : r.params = b.params
  targets : r.targets.map Term.tree = b.targets.map Expr.tree
  assumptions : r.assumptions.map Term.tree = b.assumptions.map Expr.tree
  groups : r.groups = b.distinct.map (·.map (·.text))

theorem ensures_statements (params : List Param) (es : List Expr) :
    (statements scope params es).Ensures fun ts? =>
      ∃ ts : List Term, ts? = some ts ∧ ts.map Term.tree = es.map Expr.tree := by
  induction es with
  | nil => exact ensures_pure ⟨[], rfl, rfl⟩
  | cons e es ih =>
    unfold statements
    refine ensures_bind (Expr.ensures_elaborate e) ?_
    rintro t? ⟨t, rfl, ht⟩
    refine ensures_then fun _ => ensures_bind ih ?_
    rintro ts? ⟨ts, rfl, hts⟩
    exact ensures_pure ⟨t :: ts, rfl, by rw [List.map_cons, ht, hts, List.map_cons]⟩

theorem ensures_rule? (b : RuleBlock) :
    (b.rule? scope).Ensures fun r? => ∃ r, r? = some r ∧ b.Makes r := by
  unfold rule?
  refine ensures_bind (Scope.ensures_checkFresh b.name) ?_
  rintro ok rfl
  refine ensures_bind (Scope.ensures_checkParams [] b.params) ?_
  rintro ok rfl
  refine ensures_bind (ensures_statements b.params b.targets) ?_
  rintro ts? ⟨ts, rfl, hts⟩
  refine ensures_bind (ensures_statements b.params b.assumptions) ?_
  rintro us? ⟨us, rfl, hus⟩
  exact ensures_pure ⟨_, rfl, rfl, rfl, hts, hus, rfl⟩

end RuleBlock

namespace Block

/-- A declaration says what a block says. -/
inductive Makes : Block → Decl → Prop
  | type {b : TypeBlock} {d : TypeDecl} (name : b.names = [d.name]) : Makes (.types b) (.type d)
  | term {b : TermBlock} {d : TermDecl} (type : d.type = b.type) (name : d.name = b.name)
      (params : d.params = b.params)
      (template : d.template = Template.ofForm (b.params.map (·.name.text)) (b.content.map (·.text))) :
      Makes (.term b) (.term d)
  | axm {b : RuleBlock} {r : Rule} (rule : b.Makes r) : Makes (.axm b) (.axm r)
  | thm {b : ThmBlock} {t : Thm} (rule : b.toRuleBlock.Makes t.rule)
      (proof : t.proof.map (·.tree) = b.proof.map Expr.tree) : Makes (.thm b) (.thm t)

/-- A block of several types as one block for each. -/
def singles : Block → List Block
  | .types b => b.names.map fun n => .types { b with names := [n] }
  | b => [b]

theorem declareAll_types (scope : Scope) (keyword : Token.Ref) (span : Span) (names : List Token.Ref) :
    declareAll scope (names.map fun n => .types ⟨keyword, [n], span⟩) =
      TypeBlock.declareNames scope span names := by
  induction names generalizing scope with
  | nil => rfl
  | cons n ns ih =>
    simp only [List.map_cons, declareAll, declare, TypeBlock.declare, TypeBlock.declareNames, bind_assoc, ih]
    refine bind_congr fun ok => ?_
    cases ok with
    | true => simp
    | false => simp

theorem declareAll_singles (scope : Scope) (b : Block) : declareAll scope b.singles = b.declare scope := by
  cases b with
  | types b => exact declareAll_types scope b.keyword b.span b.names
  | term | axm | thm => exact bind_pure _

theorem declareAll_flatMap_singles (scope : Scope) (bs : List Block) :
    declareAll scope (bs.flatMap singles) = declareAll scope bs := by
  induction bs generalizing scope with
  | nil => rfl
  | cons b bs ih =>
    rw [List.flatMap_cons, declareAll_append, declareAll_singles, declareAll]
    exact bind_congr fun table => ih _

/-- A block of one type at most. -/
def IsSingle : Block → Prop
  | .types b => ∃ n, b.names = [n]
  | _ => True

theorem isSingle_of_mem_singles {b c : Block} (h : c ∈ b.singles) : c.IsSingle := by
  cases b with
  | types b =>
    obtain ⟨n, -, rfl⟩ := List.mem_map.1 h
    exact ⟨n, rfl⟩
  | term | axm | thm =>
    rw [List.mem_singleton.1 h]
    trivial

/-- Without faults, a block adds one declaration, which says what it says. -/
theorem ensures_makes {b : Block} (hb : b.IsSingle) : (b.declare scope).Ensures fun table =>
    ∃ d, table.decls = scope.table.decls ++ [d] ∧ b.Makes d := by
  cases b with
  | types b =>
    obtain ⟨n, hn⟩ := hb
    show (TypeBlock.declareNames scope b.span b.names).Ensures _
    rw [hn]
    refine ensures_bind (Scope.ensures_checkFresh n) ?_
    rintro ok rfl
    refine ensures_bind (Scope.ensures_decls_declare _) fun table ht => ensures_pure ⟨_, ht, .type hn⟩
  | term b =>
    refine ensures_bind (Scope.ensures_checkType b.type) ?_
    rintro ok rfl
    refine ensures_bind (Scope.ensures_checkFresh b.name) ?_
    rintro ok rfl
    refine ensures_bind (Scope.ensures_checkParams [] b.params) ?_
    rintro ok rfl
    refine ensures_then fun _ hclean => ?_
    exact ⟨_, Scope.ensures_decls_declare _ hclean, .term rfl rfl rfl rfl⟩
  | axm b =>
    refine ensures_bind b.ensures_rule? ?_
    rintro r? ⟨r, rfl, hr⟩ hclean
    exact ⟨_, Scope.ensures_decls_declare _ hclean, .axm hr⟩
  | thm b =>
    refine ensures_bind b.toRuleBlock.ensures_rule? ?_
    rintro r? ⟨r, rfl, hr⟩
    refine ensures_bind (Thm.ensures_trees_prove scope r b.proof) ?_
    rintro thm ⟨rfl, hproof⟩
    refine ensures_ite (fun _ => ensures_fault) fun _ hclean => ?_
    exact ⟨_, Scope.ensures_decls_declare _ hclean, .thm hr hproof⟩

theorem ensures_makesAll {bs : List Block} (hb : ∀ b ∈ bs, b.IsSingle) :
    (declareAll scope bs).Ensures fun table =>
      ∃ ds, table.decls = scope.table.decls ++ ds ∧ List.Forall₂ Makes bs ds := by
  induction bs generalizing scope with
  | nil => exact ensures_pure ⟨[], (List.append_nil _).symm, .nil⟩
  | cons b bs ih =>
    obtain ⟨hb, hbs⟩ := List.forall_mem_cons.1 hb
    refine ensures_bind (ensures_makes hb) ?_
    rintro table ⟨d, hd, hmakes⟩ hclean
    obtain ⟨ds, hds, hall⟩ := ih hbs hclean
    refine ⟨d :: ds, ?_, .cons hmakes hall⟩
    rw [hds, hd, List.append_assoc]
    rfl

end Block

end Sequitur
