import Sequitur.Decl

/-!
Tables of declarations, one for each file, in order of introduction. A name is looked up in the table
of the file itself and then in the tables it may refer to, the first one that has it winning.
-/

namespace Sequitur

structure Table where
  decls : List Decl := []

inductive TableError where
  | reinsertion (name : String)
deriving DecidableEq, Repr

def TableError.message : TableError → String
  | .reinsertion name => "symbol " ++ name ++ " introduced twice"

namespace Table

instance : EmptyCollection Table := ⟨⟨[]⟩⟩

def find? (t : Table) (name : String) : Option Decl :=
  t.decls.find? (·.name.text == name)

/-- Introduces a declaration, unless its name is taken. -/
def insert (t : Table) (d : Decl) : Except TableError Table :=
  if (t.find? d.name.text).isSome then .error (.reinsertion d.name.text)
  else .ok ⟨t.decls ++ [d]⟩

theorem insert_eq_ok {t t' : Table} {d : Decl} (h : t.insert d = .ok t') :
    t.find? d.name.text = none ∧ t'.decls = t.decls ++ [d] := by
  unfold insert at h
  split at h
  · exact absurd h nofun
  · next hn =>
    cases h
    exact ⟨Option.not_isSome_iff_eq_none.1 hn, rfl⟩

/-- The axioms and theorems whose names start with a text. -/
def search (t : Table) (start : String) : List Decl :=
  t.decls.filter fun d => d.rule?.isSome && start.isPrefixOf d.name.text

end Table

namespace Imports

/-- The declaration of a name in the first table that has it. -/
def find? (tables : List Table) (name : String) : Option Decl :=
  tables.findSome? (·.find? name)

def search (tables : List Table) (start : String) : List Decl :=
  tables.flatMap (·.search start)

end Imports

/-- What a block can refer to. -/
structure Scope where
  table : Table := ∅
  imports : List Table := []
  /-- How many rules to suggest in place of an unknown one. -/
  searchLimit : Nat := 5

namespace Scope

def find? (s : Scope) (name : String) : Option Decl :=
  (s.table.find? name).or (Imports.find? s.imports name)

def term? (s : Scope) (name : String) : Option TermDecl :=
  (s.find? name).bind Decl.term?

/-- The first rules whose names start with a text. -/
def search (s : Scope) (start : String) : List Decl :=
  (s.table.search start ++ Imports.search s.imports start).take s.searchLimit

end Scope

end Sequitur
