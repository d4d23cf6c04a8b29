import Sequitur.Proofs.Anchoring
import Sequitur.Proofs.Faithfulness

/-!
# No declaration is lost silently

Each section of a text adds declarations of names that it introduces to the table, and changes nothing else.
Either these are all its names, each with a declaration that says what its block says, or a diagnostic is
at a token of the section (`Document.accounted_check`). Where neither reading the section nor declaring
its block finds a fault, all is declared; where one of them does, the fault is at a token of the section.
-/

namespace Sequitur

open Noted

/-! ### Names of a section -/

/-- The names that a section introduces: words in the place of a name. -/
def Section.introduced (s : Section) : List Token.Ref :=
  match s.keyword with
  | .typeDecl => (s.body.filter (·.isWord)).map (·.ref)
  | .termDecl => ((s.body.drop 1).take 1 |>.filter (·.isWord)).map (·.ref)
  | _ => ((s.body.take 1).filter (·.isWord)).map (·.ref)

theorem Section.startsBlock_of_mem_split {heads : Keyword → Bool} {ls : List Lexeme} {s : Section}
    (h : s ∈ (split heads ls).2) : heads s.keyword = true := by
  induction ls with
  | nil => exact absurd h List.not_mem_nil
  | cons l ls ih =>
    by_cases hl : ∃ k, l.keyword? = some k ∧ heads k = true
    · obtain ⟨k, hk, hh⟩ := hl
      rw [split_head hk hh] at h
      rcases List.mem_cons.1 h with rfl | h
      · exact hh
      · exact ih h
    · have hl : ∀ k, l.keyword? = some k → heads k = false := fun k hk =>
        Bool.eq_false_iff.2 fun hh => hl ⟨k, hk, hh⟩
      rw [split_other hl] at h
      exact ih h

namespace Block

/-- The names that a block introduces. -/
def introduced : Block → List Token.Ref
  | .types b => b.names
  | .term b => [b.name]
  | .axm b => [b.name]
  | .thm b => [b.name]

theorem introduced_readTypes (keyword : Token.Ref) (ls : List Lexeme) :
    (readTypes keyword ls).Yields fun b => b.introduced = (ls.filter (·.isWord)).map (·.ref) := by
  unfold readTypes
  refine yields_then fun _ => yields_ite (fun _ => ?_) fun _ => yields_pure rfl
  exact yields_then fun _ => yields_pure rfl

theorem introduced_readTerm (keyword : Token.Ref) (ls : List Lexeme) : (readTerm keyword ls).Yields fun b? =>
    ∀ b, b? = some b → b.introduced = (((ls.drop 1).take 1).filter (·.isWord)).map (·.ref) := by
  cases ls with
  | nil => exact yields_then fun _ => yields_pure fun b hb => absurd hb nofun
  | cons type ls =>
    unfold readTerm
    refine yields_ite (fun _ => yields_then fun _ => ?_) fun _ => yields_then fun _ => yields_pure fun b hb =>
      absurd hb nofun
    cases ls with
    | nil => exact yields_then fun _ => yields_pure fun b hb => absurd hb nofun
    | cons name ls =>
      refine yields_ite (fun hn => ?_) fun _ => yields_then fun _ => yields_pure fun b hb => absurd hb nofun
      refine yields_then fun head => yields_then fun form => ?_
      have hname : ([name].filter (·.isWord)).map (·.ref) = [name.ref] := by
        rw [List.filter_singleton, hn]
        rfl
      refine yields_ite (fun _ => yields_then fun _ => yields_then fun _ => ?_) fun _ => yields_then fun _ => ?_
      · refine yields_pure ?_
        rintro b ⟨⟩
        exact hname.symm
      · refine yields_pure ?_
        rintro b ⟨⟩
        exact hname.symm

theorem introduced_readRule (keyword : Token.Ref) (kind : Token.Kind) (ls : List Lexeme) :
    (readRule keyword kind ls).Yields fun r? =>
      ∀ r, r? = some r → [r.1.name] = ((ls.take 1).filter (·.isWord)).map (·.ref) := by
  cases ls with
  | nil => exact yields_then fun _ => yields_pure fun b hb => absurd hb nofun
  | cons name ls =>
    unfold readRule
    refine yields_ite (fun hn => yields_then fun _ => ?_) fun _ => yields_then fun _ => yields_pure fun b hb =>
      absurd hb nofun
    refine yields_then fun list => yields_then fun braced => yields_then fun body => ?_
    have hname : ([name].filter (·.isWord)).map (·.ref) = [name.ref] := by
      rw [List.filter_singleton, hn]
      rfl
    refine yields_ite (fun _ => yields_then fun _ => ?_) fun _ => ?_
    · refine yields_pure ?_
      rintro r ⟨⟩
      exact hname.symm
    · refine yields_pure ?_
      rintro r ⟨⟩
      exact hname.symm

/-- A block introduces what its section does. -/
theorem introduced_ofSection (s : Section) :
    (ofSection s).Yields fun b? => ∀ b, b? = some b → b.introduced = s.introduced := by
  obtain ⟨keyword, head, body⟩ := s
  cases keyword with
  | typeDecl =>
    show (some <$> readTypes head body).Yields _
    rw [map_eq_pure_bind]
    refine yields_bind (introduced_readTypes head body) fun b hb => yields_pure ?_
    rintro b' ⟨⟩
    exact hb
  | termDecl => exact introduced_readTerm head body
  | axiomDecl =>
    refine yields_bind (introduced_readRule head .axiomName body) fun r? hr => ?_
    cases r? with
    | none => exact yields_pure fun b hb => absurd hb nofun
    | some r =>
      refine yields_then fun _ => yields_pure ?_
      rintro b ⟨⟩
      exact hr r rfl
  | thmDecl =>
    refine yields_bind (introduced_readRule head .thmName body) fun r? hr => ?_
    cases r? with
    | none => exact yields_pure fun b hb => absurd hb nofun
    | some r =>
      refine yields_then fun _ => yields_then fun _ => yields_then fun _ => yields_pure ?_
      rintro b ⟨⟩
      exact hr r rfl
  | target | assume | distinct => exact yields_pure fun b hb => absurd hb nofun

/-! ### Sections without faults -/

theorem ensures_readTerm (keyword : Token.Ref) (ls : List Lexeme) :
    (readTerm keyword ls).Ensures fun b? => ∃ b, b? = some (.term b) := by
  cases ls with
  | nil => exact ensures_fault
  | cons type ls =>
    unfold readTerm
    refine ensures_ite (fun _ => ensures_then fun _ => ?_) fun _ => ensures_fault
    cases ls with
    | nil => exact ensures_fault
    | cons name ls =>
      refine ensures_ite (fun _ => ensures_then fun head => ensures_then fun form => ?_) fun _ => ensures_fault
      refine ensures_ite (fun _ => ensures_then fun _ => ensures_then fun _ => ?_) fun _ => ensures_then fun _ => ?_
      · exact ensures_pure ⟨_, rfl⟩
      · exact ensures_pure ⟨_, rfl⟩

theorem ensures_readRule (keyword : Token.Ref) (kind : Token.Kind) (ls : List Lexeme) :
    (readRule keyword kind ls).Ensures fun r? => ∃ r, r? = some r := by
  cases ls with
  | nil => exact ensures_fault
  | cons name ls =>
    unfold readRule
    refine ensures_ite (fun _ => ensures_then fun _ => ?_) fun _ => ensures_fault
    refine ensures_then fun list => ensures_then fun braced => ensures_then fun body => ?_
    exact ensures_ite (fun _ => ensures_fault) fun _ => ensures_pure ⟨_, rfl⟩

/-- A section that is read without faults has a block that introduces something. -/
theorem ensures_ofSection {s : Section} (hs : s.keyword.startsBlock = true) :
    (ofSection s).Ensures fun b? => ∃ b, b? = some b ∧ b.introduced ≠ [] := by
  obtain ⟨keyword, head, body⟩ := s
  cases keyword with
  | typeDecl =>
    show (some <$> readTypes head body).Ensures _
    rw [map_eq_pure_bind]
    refine ensures_bind (Q := fun b => b.introduced ≠ []) ?_ fun b hb => ensures_pure ⟨b, rfl, hb⟩
    refine ensures_then fun _ => ensures_ite (fun _ => ensures_fault) fun hne => ensures_pure ?_
    exact fun hnil => hne (List.isEmpty_iff.2 hnil)
  | termDecl =>
    intro hclean
    obtain ⟨b, hb⟩ := ensures_readTerm head body hclean
    exact ⟨_, hb, List.cons_ne_nil _ _⟩
  | axiomDecl =>
    refine ensures_bind (ensures_readRule head .axiomName body) ?_
    rintro r? ⟨r, rfl⟩
    exact ensures_then fun _ => ensures_pure ⟨_, rfl, List.cons_ne_nil _ _⟩
  | thmDecl =>
    refine ensures_bind (ensures_readRule head .thmName body) ?_
    rintro r? ⟨r, rfl⟩
    exact ensures_then fun _ => ensures_then fun _ => ensures_then fun _ =>
      ensures_pure ⟨_, rfl, List.cons_ne_nil _ _⟩
  | target | assume | distinct => exact absurd hs nofun

theorem Makes.introduced {b : Block} {d : Decl} (h : b.Makes d) : b.introduced = [d.name] := by
  cases h with
  | type name => exact name
  | term type name => exact congrArg (fun n => [n]) name.symm
  | axm rule => exact congrArg (fun n => [n]) rule.name.symm
  | thm rule => exact congrArg (fun n => [n]) rule.name.symm

theorem flatMap_introduced_singles (b : Block) : b.singles.flatMap introduced = b.introduced := by
  cases b with
  | types b =>
    show (b.names.map _).flatMap introduced = b.names
    rw [List.flatMap_map]
    exact List.flatMap_singleton' b.names
  | term | axm | thm => rfl

theorem names_of_makesAll {bs : List Block} {ds : List Decl} (h : List.Forall₂ Makes bs ds) :
    ds.map Decl.name = bs.flatMap introduced := by
  induction h with
  | nil => rfl
  | cons hmakes _ ih => rw [List.map_cons, List.flatMap_cons, hmakes.introduced, ih]; rfl

end Block

/-! ### What a block adds -/

/-- A table that has declarations of some of the given names added at its end. -/
def Table.Extends (old : Table) (names : List Token.Ref) (new : Table) : Prop :=
  ∃ ds : List Decl, new.decls = old.decls ++ ds ∧ (ds.map Decl.name).Sublist names

theorem Table.extends_refl (t : Table) (names : List Token.Ref) : t.Extends names t :=
  ⟨[], (List.append_nil _).symm, List.nil_sublist _⟩

theorem Table.Extends.trans {t u v : Table} {names names' : List Token.Ref} (h : t.Extends names u)
    (h' : u.Extends names' v) : t.Extends (names ++ names') v := by
  obtain ⟨ds, hds, hsub⟩ := h
  obtain ⟨ds', hds', hsub'⟩ := h'
  refine ⟨ds ++ ds', by rw [hds', hds, List.append_assoc], ?_⟩
  rw [List.map_append]
  exact hsub.append hsub'

namespace Scope

variable (scope : Scope)

theorem extends_declare (d : Decl) : (scope.declare d).Yields (scope.table.Extends [d.name]) := by
  unfold declare
  split
  · next table ht => exact yields_pure ⟨[d], (Table.insert_eq_ok ht).2, List.Sublist.refl _⟩
  · exact yields_then fun _ => yields_pure (Table.extends_refl ..)

theorem extends_declareNames (span : Span) (names : List Token.Ref) :
    (TypeBlock.declareNames scope span names).Yields (scope.table.Extends names) := by
  induction names generalizing scope with
  | nil => exact yields_pure (Table.extends_refl ..)
  | cons name names ih =>
    unfold TypeBlock.declareNames
    have hrest : ∀ table, scope.table.Extends [name] table →
        (TypeBlock.declareNames { scope with table } span names).Yields
          (scope.table.Extends (name :: names)) :=
      fun table htable => (ih { scope with table }).mono fun _ h => htable.trans h
    refine yields_then fun ok => ?_
    cases ok with
    | true => exact yields_bind (scope.extends_declare _) hrest
    | false => exact hrest _ (Table.extends_refl ..)

end Scope

namespace Block

theorem extends_declare (scope : Scope) (b : Block) :
    (b.declare scope).Yields (scope.table.Extends b.introduced) := by
  have hself : ∀ names, scope.table.Extends names scope.table := Table.extends_refl _
  cases b with
  | types b => exact scope.extends_declareNames b.span b.names
  | term b =>
    refine yields_then fun _ => yields_ite (fun _ => yields_pure (hself _)) fun _ => ?_
    refine yields_then fun _ => yields_ite (fun _ => yields_pure (hself _)) fun _ => ?_
    refine yields_then fun _ => yields_ite (fun _ => yields_pure (hself _)) fun _ => ?_
    exact yields_then fun _ => scope.extends_declare _
  | axm b =>
    refine yields_bind (RuleBlock.yields_name_rule? scope b) fun r? hr => ?_
    cases r? with
    | none => exact yields_pure (hself _)
    | some r =>
      show (scope.declare (.axm r)).Yields (scope.table.Extends [b.name])
      rw [← hr r rfl]
      exact scope.extends_declare (.axm r)
  | thm b =>
    refine yields_bind (RuleBlock.yields_name_rule? scope b.toRuleBlock) fun r? hr => ?_
    cases r? with
    | none => exact yields_pure (hself _)
    | some r =>
      refine yields_bind (Thm.yields_prove scope r b.proof) fun thm hthm => ?_
      have hdeclare : (scope.declare (.thm thm)).Yields (scope.table.Extends (Block.thm b).introduced) := by
        have hname : thm.rule.name = b.name := by rw [hthm.1, hr r rfl]
        show (scope.declare (.thm thm)).Yields (scope.table.Extends [b.name])
        rw [← hname]
        exact scope.extends_declare (.thm thm)
      exact yields_ite (fun _ => yields_then fun _ => hdeclare) fun _ => hdeclare

theorem extends_declareAll (scope : Scope) (bs : List Block) :
    (declareAll scope bs).Yields (scope.table.Extends (bs.flatMap introduced)) := by
  induction bs generalizing scope with
  | nil => exact yields_pure (Table.extends_refl ..)
  | cons b bs ih =>
    refine yields_bind (extends_declare scope b) fun table htable => ?_
    exact (ih { scope with table }).mono fun _ h => htable.trans h

end Block

/-! ### Sections of a document -/

/-- The table after the blocks of some sections. -/
def Scope.after (scope : Scope) (sections : List Section) : Table :=
  (Block.declareAll scope (Block.ofSections sections).value).value

theorem Scope.after_append (scope : Scope) (ss ss' : List Section) :
    scope.after (ss ++ ss') = { scope with table := scope.after ss }.after ss' := by
  unfold after
  rw [Block.ofSections_append]
  show (Block.declareAll scope ((Block.ofSections ss).value ++ (Block.ofSections ss').value)).value = _
  rw [Block.declareAll_append]
  rfl

/-- A section that cannot be read adds nothing. -/
theorem Scope.after_none {scope : Scope} {s : Section} (hs : (Block.ofSection s).value = none) :
    scope.after [s] = scope.table := by
  show (Block.declareAll scope ((Block.ofSection s).value.toList ++ [])).value = _
  rw [hs]
  rfl

theorem Scope.after_some {scope : Scope} {s : Section} {b : Block} (hs : (Block.ofSection s).value = some b) :
    scope.after [s] = (b.declare scope).value := by
  show (Block.declareAll scope ((Block.ofSection s).value.toList ++ [])).value = _
  rw [hs]
  rfl

namespace Block

/-- Without faults, what a block adds is all that it says. -/
theorem makes_of_clean {scope : Scope} {b : Block} {ds : List Decl}
    (hclean : (b.declare scope).notes.diagnostics = [])
    (hds : (b.declare scope).value.decls = scope.table.decls ++ ds) : List.Forall₂ Makes b.singles ds := by
  have hmakes : (declareAll scope b.singles).Ensures fun table =>
      ∃ ds, table.decls = scope.table.decls ++ ds ∧ List.Forall₂ Makes b.singles ds :=
    ensures_makesAll fun c hc => isSingle_of_mem_singles hc
  rw [declareAll_singles] at hmakes
  obtain ⟨ds', hds', hmakes⟩ := hmakes hclean
  cases List.append_cancel_left (hds.symm.trans hds')
  exact hmakes

variable {d : Diagnostic}

theorem mem_diagnostics_ofSections {sections : List Section} {s : Section} (hs : s ∈ sections)
    (hd : d ∈ (ofSection s).notes.diagnostics) : d ∈ (ofSections sections).notes.diagnostics := by
  induction sections with
  | nil => exact absurd hs List.not_mem_nil
  | cons s' sections ih =>
    show d ∈ (ofSection s').notes.diagnostics ++ ((ofSections sections).notes.diagnostics ++ [])
    rw [List.append_nil]
    rcases List.mem_cons.1 hs with rfl | hs
    · exact List.mem_append_left _ hd
    · exact List.mem_append_right _ (ih hs)

theorem mem_diagnostics_declareAll (scope : Scope) {bs bs' : List Block} {b : Block}
    (hd : d ∈ (b.declare { scope with table := (declareAll scope bs).value }).notes.diagnostics) :
    d ∈ (declareAll scope (bs ++ b :: bs')).notes.diagnostics := by
  rw [declareAll_append, notes_bind, Notes.diagnostics_append]
  refine List.mem_append_right _ ?_
  rw [declareAll, notes_bind, Notes.diagnostics_append]
  exact List.mem_append_left _ hd

end Block

/-- Faults may be at all lexemes of a section. -/
def Section.sites (s : Section) : Sites := ⟨fun r => ∃ l ∈ s.lexemes, l.ref = r, fun _ _ => True⟩

theorem Section.cover_sites (s : Section) : s.sites.Cover s.lexemes where
  fault l hl := ⟨l, hl, rfl⟩
  refine _ _ _ _ _ := trivial

theorem find?_of_inOrder {before ds : List Decl} (h : InOrder Decl.WellFormed before ds) {d : Decl}
    (hd : d ∈ ds) :
    ds.find? (·.name.text == d.name.text) = some d := by
  have hname : ∀ {before : List Decl} {d : Decl}, d.WellFormed before → NewName before d.name.text := by
    intro before d h
    cases d with
    | type d => exact h
    | term d => exact TermDecl.WellFormed.name h
    | axm r => exact Rule.WellFormed.name h
    | thm t => exact h.1.name
  induction ds generalizing before with
  | nil => exact absurd hd List.not_mem_nil
  | cons e ds ih =>
    rcases List.mem_cons.1 hd with rfl | hd
    · rw [List.find?_cons_of_pos (by simp)]
    · obtain ⟨ds₁, ds₂, hsplit⟩ := List.append_of_mem hd
      have hfresh : NewName (before ++ [e] ++ ds₁) d.name.text := by
        have hrest := h.2
        rw [hsplit] at hrest
        exact hname (inOrder_append.1 hrest).2.1
      have hne : e.name.text ≠ d.name.text := hfresh.fresh e (by simp)
      rw [List.find?_cons_of_neg (by simpa using hne)]
      exact ih h.2 hd

namespace Document

/-- A diagnostic is at one of the tokens of a section. -/
def Reports (doc : Document) (s : Section) : Prop := ∃ d ∈ doc.diagnostics, ∃ l ∈ s.lexemes, d.At l.ref

/-- Every name that a section introduces is in the table, with a declaration that says what the block of
the section says. -/
structure Declares (doc : Document) (s : Section) (ds : List Decl) : Prop where
  block : ∃ b, (Block.ofSection s).value = some b ∧ List.Forall₂ Block.Makes b.singles ds
  names : ds.map Decl.name = s.introduced
  ne_nil : ds ≠ []
  found : ∀ d ∈ ds, doc.table.find? d.name.text = some d

/-- What a section does to a table in the course of checking: it adds declarations of its names and keeps what
is there, and later sections keep what it adds. -/
structure Accounted (doc : Document) (s : Section) (old new : Table) (ds : List Decl) : Prop where
  appended : new.decls = old.decls ++ ds
  kept : new.decls <+: doc.decls
  names : (ds.map Decl.name).Sublist s.introduced
  declared_or_reported : doc.Declares s ds ∨ doc.Reports s

variable {imports : List Table} {searchLimit : Nat} {text : String}

/-- The sections of a text. -/
def sections (text : String) : List Section :=
  (Section.split Keyword.startsBlock (Lexeme.ofTokens (Token.scan text))).2

theorem find?_check {d : Decl} (hd : d ∈ (check imports searchLimit text).decls) :
    (check imports searchLimit text).table.find? d.name.text = some d := by
  have hempty : ({ imports, searchLimit } : Scope).WellFormed := trivial
  exact find?_of_inOrder
    (Block.keepsWellFormed_declareAll (fun b hb => Block.readFrom_of_mem_readAll hb) (fun _ => WordIn.isWord)
      hempty) hd

/-- Faults of reading a section are reported there. -/
theorem reports_of_ofSection {s : Section} (hs : s ∈ sections text)
    (h : (Block.ofSection s).notes.diagnostics ≠ []) : (check imports searchLimit text).Reports s := by
  obtain ⟨d, hd⟩ := List.exists_mem_of_ne_nil _ h
  have hwithin := Block.within_ofSection s.cover_sites fun _ _ _ _ => trivial
  obtain ⟨r, ⟨l, hl, rfl⟩, hr⟩ := hwithin.diagnostics d hd
  refine ⟨d, Diagnostic.mem_sort.2 ?_, l, hl, hr⟩
  rw [notes_bind, Notes.diagnostics_append]
  exact List.mem_append_left _ (List.mem_append_right _ (Block.mem_diagnostics_ofSections hs hd))

/-- Faults of declaring its block are reported there as well. -/
theorem reports_of_declare {s : Section} {before after : List Section}
    (hsections : sections text = before ++ s :: after) {b : Block} (hb : (Block.ofSection s).value = some b)
    (h : (b.declare { table := ({ imports, searchLimit } : Scope).after before, imports, searchLimit }
      ).notes.diagnostics ≠ []) : (check imports searchLimit text).Reports s := by
  obtain ⟨d, hd⟩ := List.exists_mem_of_ne_nil _ h
  have hread : b.ReadFrom s.body := (Block.standsIn_ofSection s b hb).readFrom
  have hwithin := Block.within_declare
    { table := ({ imports, searchLimit } : Scope).after before, imports, searchLimit } s.cover_sites.tail hread
    fun _ _ _ _ _ _ _ => trivial
  obtain ⟨r, ⟨l, hl, rfl⟩, hr⟩ := hwithin.diagnostics d hd
  refine ⟨d, Diagnostic.mem_sort.2 ?_, l, hl, hr⟩
  have hblocks : (Block.readAll (Token.scan text)).value =
      (Block.ofSections before).value ++ b :: (Block.ofSections after).value := by
    show (Block.ofSections (sections text)).value = _
    rw [hsections, Block.ofSections_append]
    show (Block.ofSections before).value ++
      ((Block.ofSection s).value.toList ++ (Block.ofSections after).value) = _
    rw [hb]
    rfl
  rw [notes_bind, Notes.diagnostics_append, hblocks]
  exact List.mem_append_right _ (Block.mem_diagnostics_declareAll _ hd)

/-- The sections from some point on keep what is declared up to there. -/
theorem isPrefix_after (imports : List Table) (searchLimit : Nat) (text : String) (k : Nat) :
    (({ imports, searchLimit } : Scope).after ((sections text).take k)).decls <+:
      (check imports searchLimit text).decls := by
  have hdoc : (check imports searchLimit text).table =
      { ({ imports, searchLimit } : Scope) with
        table := ({ imports, searchLimit } : Scope).after ((sections text).take k) }.after
          ((sections text).drop k) := by
    rw [← Scope.after_append, List.take_append_drop]
    rfl
  obtain ⟨rest, hrest, -⟩ := Block.extends_declareAll
    { ({ imports, searchLimit } : Scope) with
      table := ({ imports, searchLimit } : Scope).after ((sections text).take k) }
    (Block.ofSections ((sections text).drop k)).value
  exact ⟨rest, by rw [decls, hdoc]; exact hrest.symm⟩

/-- A section without faults declares all its names. -/
theorem declares_of_clean {s : Section} (hs : s ∈ sections text) {b : Block}
    (hb : (Block.ofSection s).value = some b) (hread : (Block.ofSection s).notes.diagnostics = [])
    {ds : List Decl} (hmakes : List.Forall₂ Block.Makes b.singles ds)
    (hds : ∀ d ∈ ds, d ∈ (check imports searchLimit text).decls) :
    (check imports searchLimit text).Declares s ds := by
  have hnames : ds.map Decl.name = b.introduced := by
    rw [Block.names_of_makesAll hmakes, Block.flatMap_introduced_singles]
  obtain ⟨b', hb', hne⟩ := Block.ensures_ofSection (Section.startsBlock_of_mem_split hs) hread
  cases hb.symm.trans hb'
  refine ⟨⟨b, hb, hmakes⟩, ?_, fun hnil => hne ?_, fun d hd => ?_⟩
  · exact hnames.trans (Block.introduced_ofSection s b hb)
  · rw [← hnames, hnil, List.map_nil]
  · exact find?_check (hds d hd)

/-- Every section of a text is declared or reported, and adds nothing but its own declarations. -/
theorem accounted_check (imports : List Table) (searchLimit : Nat) (text : String) {i : Nat} {s : Section}
    (hi : (sections text)[i]? = some s) :
    let scope : Scope := { imports, searchLimit }
    ∃ ds, (check imports searchLimit text).Accounted s (scope.after ((sections text).take i))
      (scope.after ((sections text).take (i + 1))) ds := by
  intro scope
  obtain ⟨hlt, hget⟩ := List.getElem?_eq_some_iff.1 hi
  have hsplit : sections text = (sections text).take i ++ s :: (sections text).drop (i + 1) := by
    rw [← hget, ← List.drop_eq_getElem_cons, List.take_append_drop]
  have hmem : s ∈ sections text := List.mem_of_getElem? hi
  have hkept := isPrefix_after imports searchLimit text (i + 1)
  have hnew : scope.after ((sections text).take (i + 1)) =
      { scope with table := scope.after ((sections text).take i) }.after [s] := by
    rw [← Scope.after_append, ← hget, List.take_append_getElem]
  rw [hnew] at hkept ⊢
  cases hb : (Block.ofSection s).value with
  | none =>
    rw [Scope.after_none hb] at hkept ⊢
    refine ⟨[], (List.append_nil _).symm, hkept, List.nil_sublist _, .inr ?_⟩
    refine reports_of_ofSection hmem fun hclean => ?_
    obtain ⟨b, hsome, -⟩ := Block.ensures_ofSection (Section.startsBlock_of_mem_split hmem) hclean
    rw [hb] at hsome
    cases hsome
  | some b =>
    rw [Scope.after_some hb] at hkept ⊢
    obtain ⟨ds, hds, hsub⟩ :=
      Block.extends_declare { scope with table := scope.after ((sections text).take i) } b
    rw [Block.introduced_ofSection s b hb] at hsub
    refine ⟨ds, hds, hkept, hsub, ?_⟩
    by_cases hread : (Block.ofSection s).notes.diagnostics = []
    · by_cases hclean :
          (b.declare { scope with table := scope.after ((sections text).take i) }).notes.diagnostics = []
      · refine .inl (declares_of_clean hmem hb hread (Block.makes_of_clean hclean hds) fun d hd => ?_)
        exact hkept.subset (hds ▸ List.mem_append_right _ hd)
      · exact .inr (reports_of_declare hsplit hb hclean)
    · exact .inr (reports_of_ofSection hmem hread)

/-- A text with a type that is declared twice, a term of an unknown type, and a theorem that is not proved. -/
def mishaps : String :=
  "type W V W term U a {x} term W b axiom c(W x) { |- x } thm d() { |- b } = { }"

/-- The term of an unknown type is dropped, and its type is reported. -/
theorem accounted_check_mishaps :
    ∃ s, (sections mishaps)[1]? = some s ∧ s.lexemes.map (·.ref.text) = ["term", "U", "a", "\x7b", "x", "\x7d"] ∧
      (check [] 5 mishaps).Accounted s (({ searchLimit := 5 } : Scope).after ((sections mishaps).take 1))
        (({ searchLimit := 5 } : Scope).after ((sections mishaps).take 2)) [] ∧
      ∃ d ∈ (check [] 5 mishaps).diagnostics, d.fault = .typeUndefined ∧
        ∃ l ∈ s.lexemes, l.ref.text = "U" ∧ d.At l.ref := by
  have hsome : ((sections mishaps)[1]?).isSome = true := by decide +kernel
  have htexts : ∀ s ∈ (sections mishaps)[1]?,
      s.lexemes.map (·.ref.text) = ["term", "U", "a", "\x7b", "x", "\x7d"] := by decide +kernel
  have hfault : ∀ s ∈ (sections mishaps)[1]?,
      ∃ d ∈ (checked { searchLimit := 5 } (Token.scan mishaps)).notes.diagnostics, d.fault = .typeUndefined ∧
        ∃ l ∈ s.lexemes, l.ref.text = "U" ∧ d.token = l.ref.index ∧ d.span = l.ref.span := by decide +kernel
  have hlength : (({ searchLimit := 5 } : Scope).after ((sections mishaps).take 2)).decls.length =
      (({ searchLimit := 5 } : Scope).after ((sections mishaps).take 1)).decls.length := by decide +kernel
  obtain ⟨s, hs⟩ := Option.isSome_iff_exists.1 hsome
  obtain ⟨ds, hds⟩ := accounted_check [] 5 mishaps hs
  rw [hds.appended, List.length_append, Nat.add_eq_left, List.length_eq_zero_iff] at hlength
  obtain ⟨d, hd, hfault⟩ := hfault s hs
  exact ⟨s, hs, htexts s hs, hlength ▸ hds, d, Diagnostic.mem_sort.2 hd, hfault⟩

end Document

end Sequitur
