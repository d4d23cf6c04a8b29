import Sequitur.Proofs.Derivation

/-!
# Theorems of a table

A theorem stands in the table of a text as checking the proof of a block left it, in the scope of what
is declared before it (`Document.exists_block_of_thm`). So what holds of every checked proof holds of
every theorem of a text, whatever else is wrong with the text.
-/

namespace Sequitur

open Noted

namespace InOrder

variable {P : List Decl → Decl → Prop} {base ds : List Decl} {i : Nat} {d : Decl}

theorem take (h : InOrder P base ds) (i : Nat) : InOrder P base (ds.take i) := by
  rw [← List.take_append_drop i ds] at h
  exact (inOrder_append.1 h).1

theorem getElem? (h : InOrder P base ds) (hd : ds[i]? = some d) : P (base ++ ds.take i) d := by
  obtain ⟨hi, rfl⟩ := List.getElem?_eq_some_iff.1 hd
  rw [← List.take_append_drop i ds, List.drop_eq_getElem_cons hi] at h
  exact (inOrder_append.1 h).2.1

end InOrder

/-- A theorem comes from one of some blocks, checked after the declarations `before`. Of the scope, the
table plays no role. -/
def Decl.FromBlock (scope : Scope) (blocks : List Block) (before : List Decl) : Decl → Prop
  | .thm t => ∃ (table : Table) (b : ThmBlock), { scope with table }.decls = before ∧ .thm b ∈ blocks ∧
      (b.rule? { scope with table }).value = some t.rule ∧
      (Thm.prove { scope with table } t.rule b.proof).value = t
  | _ => True

/-- The theorems of the scope's own table come from blocks. -/
def Scope.FromBlocks (scope : Scope) (blocks : List Block) : Prop :=
  InOrder (Decl.FromBlock scope blocks) (scope.imports.flatMap (·.decls)) scope.table.decls

/-- What a block makes of the table of a scope. -/
def KeepsFromBlocks (scope : Scope) (blocks : List Block) (x : Noted Table) : Prop :=
  x.Yields fun table => { scope with table }.FromBlocks blocks

variable {scope : Scope} {blocks : List Block}

theorem keepsFromBlocks_declare {d : Decl} (h : scope.FromBlocks blocks)
    (hd : d.FromBlock scope blocks scope.decls) : KeepsFromBlocks scope blocks (scope.declare d) := by
  unfold Scope.declare
  split
  · next table ht =>
    refine yields_pure ?_
    rw [Scope.FromBlocks, (Table.insert_eq_ok ht).2]
    exact inOrder_append.2 ⟨h, hd, trivial⟩
  · exact yields_then fun _ => h

theorem TypeBlock.keepsFromBlocks_declareNames (span : Span) (names : List Token.Ref)
    (h : scope.FromBlocks blocks) : KeepsFromBlocks scope blocks (declareNames scope span names) := by
  induction names generalizing scope with
  | nil => exact yields_pure h
  | cons n ns ih =>
    unfold declareNames
    refine yields_then fun ok => yields_ite (fun _ => ?_) fun _ => ih h
    exact yields_bind (keepsFromBlocks_declare h trivial) fun table htable => ih htable

theorem TermBlock.keepsFromBlocks_declare (b : TermBlock) (h : scope.FromBlocks blocks) :
    KeepsFromBlocks scope blocks (b.declare scope) := by
  unfold declare
  refine yields_then fun _ => yields_ite (fun _ => yields_pure h) fun _ => ?_
  refine yields_then fun _ => yields_ite (fun _ => yields_pure h) fun _ => ?_
  refine yields_then fun _ => yields_ite (fun _ => yields_pure h) fun _ => ?_
  exact yields_then fun _ => Sequitur.keepsFromBlocks_declare h trivial

theorem ThmBlock.keepsFromBlocks_declare {b : ThmBlock} (hb : .thm b ∈ blocks) (h : scope.FromBlocks blocks) :
    KeepsFromBlocks scope blocks (b.declare scope) := by
  have hrule : (b.rule? scope).Yields ((b.rule? scope).value = ·) := rfl
  refine yields_bind hrule fun r? hr => ?_
  cases r? with
  | none => exact yields_pure h
  | some r =>
    have hprove : (Thm.prove scope r b.proof).Yields fun t => (Decl.thm t).FromBlock scope blocks scope.decls := by
      have hthm := (Thm.yields_prove scope r b.proof).1
      exact ⟨scope.table, b, rfl, hb, by rw [hthm, hr], by rw [hthm]⟩
    refine yields_bind hprove fun t ht => ?_
    refine yields_ite (fun _ => yields_then fun _ => ?_) fun _ => ?_
    all_goals exact Sequitur.keepsFromBlocks_declare h ht

theorem Block.keepsFromBlocks_declare {b : Block} (hb : b ∈ blocks) (h : scope.FromBlocks blocks) :
    KeepsFromBlocks scope blocks (b.declare scope) := by
  cases b with
  | types b => exact TypeBlock.keepsFromBlocks_declareNames b.span b.names h
  | term b => exact TermBlock.keepsFromBlocks_declare b h
  | axm b =>
    refine yields_then fun r? => ?_
    cases r? with
    | none => exact yields_pure h
    | some r => exact Sequitur.keepsFromBlocks_declare h trivial
  | thm b => exact ThmBlock.keepsFromBlocks_declare hb h

theorem Block.keepsFromBlocks_declareAll {bs : List Block} (hbs : bs ⊆ blocks) (h : scope.FromBlocks blocks) :
    KeepsFromBlocks scope blocks (declareAll scope bs) := by
  induction bs generalizing scope with
  | nil => exact yields_pure h
  | cons b bs ih =>
    obtain ⟨hb, hbs⟩ := List.cons_subset.1 hbs
    exact yields_bind (keepsFromBlocks_declare hb h) fun table htable => ih hbs htable

namespace Document

variable {imports : List Table} {searchLimit i : Nat} {text : String}

/-- What the declaration at a place in the table of a text may refer to. -/
def scopeAt (imports : List Table) (searchLimit : Nat) (text : String) (i : Nat) : Scope :=
  { table := ⟨(check imports searchLimit text).decls.take i⟩, imports, searchLimit }

/-- What is in scope of a declaration is well formed after the imports, and so is the declaration. -/
theorem wellFormed_scopeAt {d : Decl} (h : (check imports searchLimit text).decls[i]? = some d) :
    (scopeAt imports searchLimit text i).WellFormed ∧ d.WellFormed (scopeAt imports searchLimit text i).decls := by
  have hempty : ({ imports, searchLimit } : Scope).WellFormed := trivial
  have hall : InOrder Decl.WellFormed (imports.flatMap (·.decls)) (check imports searchLimit text).decls :=
    Block.keepsWellFormed_declareAll (fun b hb => Block.readFrom_of_mem_readAll hb) (fun _ => WordIn.isWord)
      hempty
  exact ⟨hall.take i, hall.getElem? h⟩

theorem exists_block_of_thm {t : Thm} (h : (check imports searchLimit text).decls[i]? = some (.thm t)) :
    ∃ b : ThmBlock, .thm b ∈ (Block.readAll (Token.scan text)).value ∧
      (b.rule? (scopeAt imports searchLimit text i)).value = some t.rule ∧
      (Thm.prove (scopeAt imports searchLimit text i) t.rule b.proof).value = t := by
  have hempty : ({ imports, searchLimit } : Scope).FromBlocks (Block.readAll (Token.scan text)).value := trivial
  have hall : ({ imports, searchLimit, table := (check imports searchLimit text).table } : Scope).FromBlocks
      (Block.readAll (Token.scan text)).value :=
    Block.keepsFromBlocks_declareAll (List.Subset.refl _) hempty
  obtain ⟨table, b, hdecls, hb, hrule, ht⟩ := InOrder.getElem? hall h
  have htable : table = ⟨(check imports searchLimit text).decls.take i⟩ :=
    congrArg Table.mk (List.append_cancel_left hdecls)
  subst htable
  exact ⟨b, hb, hrule, ht⟩

end Document

end Sequitur
