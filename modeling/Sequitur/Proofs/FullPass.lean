import Mathlib.Data.List.Nodup
import Sequitur.CommandLine
import Sequitur.Project

/-!
# A pass over all files of a project

A project keeps what it learned about each file, however old that is. Checking a file looks at the files
before it only, so a pass over all files in order replaces every table before it is looked at: whatever
was checked before, and in whatever order, the pass gives what checking the same texts from scratch gives
(`Project.run_pass`).
-/

namespace Sequitur

namespace Project

/-- A file and its text. -/
abbrev Request := String × String

/-- Checks a file. The project stays as it is if the file is not part of it. -/
def attempt (p : Project) (r : Request) : Except ProjectError Document × Project :=
  match p.check r.1 r.2 with
  | .ok (doc, p) => (.ok doc, p)
  | .error e => (.error e, p)

/-- Works off requests in order, going on after those that fail. -/
def run (p : Project) : List Request → List (Except ProjectError Document) × Project
  | [] => ([], p)
  | r :: requests =>
    let (answer, p) := p.attempt r
    let (answers, p) := p.run requests
    (answer :: answers, p)

/-- The names of the files, in order. -/
def names (p : Project) : List String := p.files.map (·.name)

/-! ### One request -/

variable {p : Project} {before after : List ProjectFile} {f : ProjectFile}

theorem file?_isSome {name : String} : (p.file? name).isSome = true ↔ name ∈ p.names := by
  simp [file?, names]

theorem imports_of_not_mem {name : String} (h : name ∉ p.names) : p.imports name = .error (.unknownFile name) :=
  if_neg fun hs => h (file?_isSome.1 hs)

theorem attempt_of_not_mem {r : Request} (h : r.1 ∉ p.names) : p.attempt r = (.error (.unknownFile r.1), p) := by
  rw [attempt, check, imports_of_not_mem h]
  rfl

theorem attempt_of_imports {r : Request} {tables : List Table} (h : p.imports r.1 = .ok tables) :
    p.attempt r = (.ok (Document.check tables p.searchLimit r.2),
      { p with files := setTable r.1 (Document.check tables p.searchLimit r.2).table p.files }) := by
  rw [attempt, check, h]
  rfl

theorem ne_name_of_nodup (hf : p.files = before ++ f :: after) (hp : p.names.Nodup) :
    ∀ g ∈ before, g.name ≠ f.name := by
  rw [names, hf, List.map_append, List.map_cons, List.nodup_append] at hp
  intro g hg
  exact hp.2.2 g.name (List.mem_map_of_mem hg) f.name (List.mem_cons_self ..)

theorem imports_eq (hf : p.files = before ++ f :: after) (hp : p.names.Nodup) :
    p.imports f.name = .ok (before.filterMap (·.table)) := by
  have hmem : f.name ∈ p.names := by simp [names, hf]
  have hbefore : ∀ g ∈ before, (g.name != f.name) = true := fun g hg =>
    bne_iff_ne.2 (ne_name_of_nodup hf hp g hg)
  rw [imports, if_pos (file?_isSome.2 hmem), hf, List.takeWhile_append_of_pos hbefore,
    List.takeWhile_cons_of_neg (by simp), List.append_nil]

theorem table?_eq (hf : p.files = before ++ f :: after) (hp : p.names.Nodup) : p.table? f.name = f.table := by
  have hbefore : before.find? (·.name == f.name) = none :=
    List.find?_eq_none.2 fun g hg he => ne_name_of_nodup hf hp g hg (beq_iff_eq.1 he)
  rw [table?, file?, hf, List.find?_append, hbefore, List.find?_cons_of_pos (by simp)]
  rfl

theorem setTable_append (h : ∀ g ∈ before, g.name ≠ f.name) (table : Table) :
    setTable f.name table (before ++ f :: after) = before ++ { f with table := some table } :: after := by
  induction before with
  | nil => simp [setTable]
  | cons g before ih =>
    obtain ⟨hg, hbefore⟩ := List.forall_mem_cons.1 h
    rw [List.cons_append, setTable, if_neg (by simpa using hg), ih hbefore, List.cons_append]

/-! ### What requests leave alone -/

theorem names_setTable (name : String) (table : Table) (files : List ProjectFile) :
    (setTable name table files).map (·.name) = files.map (·.name) := by
  induction files with
  | nil => rfl
  | cons f files ih =>
    unfold setTable
    split
    · rfl
    · rw [List.map_cons, ih, List.map_cons]

theorem attempt_keeps (p : Project) (r : Request) :
    (p.attempt r).2.names = p.names ∧ (p.attempt r).2.searchLimit = p.searchLimit := by
  cases h : p.imports r.1 with
  | error e =>
    rw [attempt, check, h]
    exact ⟨rfl, rfl⟩
  | ok tables =>
    rw [attempt_of_imports h]
    exact ⟨names_setTable .., rfl⟩

theorem run_keeps (p : Project) (requests : List Request) :
    (p.run requests).2.names = p.names ∧ (p.run requests).2.searchLimit = p.searchLimit := by
  induction requests generalizing p with
  | nil => exact ⟨rfl, rfl⟩
  | cons r requests ih =>
    obtain ⟨hnames, hlimit⟩ := attempt_keeps p r
    obtain ⟨hnames', hlimit'⟩ := ih (p.attempt r).2
    exact ⟨hnames'.trans hnames, hlimit'.trans hlimit⟩

end Project

open CommandLine

/-- The documents of sources that are checked in order. -/
def CommandLine.documents (imports : List Table) (sources : List Source) : List Document :=
  (checkSources imports sources).map Prod.snd

theorem CommandLine.documents_cons (imports : List Table) (s : Source) (sources : List Source) :
    documents imports (s :: sources) = Document.check imports 5 s.text ::
      documents (imports ++ [(Document.check imports 5 s.text).table]) sources := rfl

theorem CommandLine.length_documents (imports : List Table) (sources : List Source) :
    (documents imports sources).length = sources.length := by
  induction sources generalizing imports with
  | nil => rfl
  | cons s sources ih => rw [documents_cons, List.length_cons, ih, List.length_cons]

namespace Project

/-- Files with the tables of their documents. -/
def fill : List ProjectFile → List Document → List ProjectFile :=
  List.zipWith fun f doc => { f with table := some doc.table }

theorem filterMap_fill {files : List ProjectFile} {docs : List Document} (h : docs.length = files.length) :
    (fill files docs).filterMap (·.table) = docs.map (·.table) := by
  induction docs generalizing files with
  | nil => rw [List.length_eq_zero_iff.1 h.symm]; rfl
  | cons doc docs ih =>
    cases files with
    | nil => cases h
    | cons f files => simpa [fill] using ih (Nat.succ.inj h)

/-- The rest of a pass. Each file sees the tables that the files before it have by then. -/
theorem run_rest {p : Project} {before after : List ProjectFile} {sources : List Source}
    (hf : p.files = before ++ after) (hp : p.names.Nodup) (hlimit : p.searchLimit = 5)
    (hlen : sources.length = after.length) :
    let docs := documents (before.filterMap (·.table)) sources
    p.run ((after.map (·.name)).zip (sources.map (·.text))) =
      (docs.map .ok, { p with files := before ++ fill after docs }) := by
  induction after generalizing p before sources with
  | nil =>
    rw [List.append_nil] at hf
    simp [List.length_eq_zero_iff.1 hlen, run, documents, checkSources, fill, ← hf]
  | cons f after ih =>
    cases sources with
    | nil => cases hlen
    | cons s sources =>
      let doc := Document.check (before.filterMap (·.table)) 5 s.text
      let f' : ProjectFile := { f with table := some doc.table }
      let p' : Project := { p with files := (before ++ [f']) ++ after }
      have hstep : p.attempt (f.name, s.text) = (.ok doc, p') := by
        rw [attempt_of_imports (imports_eq hf hp), hlimit, hf, setTable_append (ne_name_of_nodup hf hp)]
        simp [p', f', doc, hlimit]
      have hnames : p'.names = p.names := by simp [names, p', f', hf]
      have htables : (before ++ [f']).filterMap (·.table) = before.filterMap (·.table) ++ [doc.table] := by
        simp [f']
      have hrest := @ih p' (before ++ [f']) sources rfl (hnames ▸ hp) hlimit (Nat.succ.inj hlen)
      simp only [htables] at hrest
      simp only [List.map_cons, List.zip_cons_cons, run, hstep, hrest, documents_cons, fill]
      simp [p', f', doc]

/-- What a file declares and sees after a pass. -/
theorem lookup_fill {p : Project} {files : List ProjectFile} {docs : List Document} (hp : p.names.Nodup)
    (hf : p.files = fill files docs) (hlen : docs.length = files.length) {i : Nat} {f : ProjectFile}
    {doc : Document} (hfile : files[i]? = some f) (hdoc : docs[i]? = some doc) :
    p.table? f.name = some doc.table ∧ p.imports f.name = .ok ((docs.take i).map (·.table)) := by
  have hat : (fill files docs)[i]? = some { f with table := some doc.table } := by
    simp [fill, List.getElem?_zipWith, hfile, hdoc]
  obtain ⟨hi, hget⟩ := List.getElem?_eq_some_iff.1 hat
  have hsplit : p.files = (fill files docs).take i ++
      { f with table := some doc.table } :: (fill files docs).drop (i + 1) := by
    rw [hf, ← hget, List.getElem_cons_drop hi, List.take_append_drop]
  have htables : ((fill files docs).take i).filterMap (·.table) = (docs.take i).map (·.table) := by
    rw [fill, List.take_zipWith]
    exact filterMap_fill (by rw [List.length_take, List.length_take, hlen])
  exact ⟨table?_eq hsplit hp, (imports_eq hsplit hp).trans (by rw [htables])⟩

/-- After any requests, a pass over all files gives what checking the sources gives, and the project
then holds just that. -/
theorem run_pass {p : Project} (hp : p.names.Nodup) (hlimit : p.searchLimit = 5) (history : List Request)
    {sources : List Source} (hlen : sources.length = p.names.length) :
    let start := (p.run history).2
    let pass := start.run (p.names.zip (sources.map (·.text)))
    let docs := (checkSources [] sources).map Prod.snd
    (∀ r : Request, r.1 ∉ p.names → start.attempt r = (.error (.unknownFile r.1), start)) ∧
      pass.1 = docs.map .ok ∧
      ∀ i name, p.names[i]? = some name → ∃ doc, docs[i]? = some doc ∧
        pass.2.table? name = some doc.table ∧
          pass.2.imports name = .ok ((docs.take i).map (·.table)) := by
  intro start pass docs
  obtain ⟨hnames, hkept⟩ := run_keeps p history
  have hfiles : start.files.length = sources.length := by
    rw [hlen, ← hnames]
    exact (List.length_map ..).symm
  have hdocs : docs.length = sources.length := length_documents [] sources
  have hpass : pass = (docs.map .ok, { start with files := fill start.files docs }) := by
    show start.run (p.names.zip _) = _
    rw [← hnames]
    exact @run_rest start [] start.files sources rfl (hnames ▸ hp) (hkept.trans hlimit) hfiles.symm
  refine ⟨fun r hr => attempt_of_not_mem (hnames ▸ hr), by rw [hpass], fun i name hname => ?_⟩
  obtain ⟨f, hfile, rfl⟩ : ∃ f, start.files[i]? = some f ∧ f.name = name := by
    rw [← hnames, names, List.getElem?_map] at hname
    exact Option.map_eq_some_iff.1 hname
  have hi : i < docs.length := by
    rw [hdocs, ← hfiles]
    exact (List.getElem?_eq_some_iff.1 hfile).1
  have hdoc : docs[i]? = some docs[i] := List.getElem?_eq_getElem hi
  have hnodup : pass.2.names.Nodup := by
    rw [(run_keeps start _).1, hnames]
    exact hp
  have hleft : pass.2.files = fill start.files docs := by rw [hpass]
  exact ⟨docs[i], hdoc, lookup_fill hnodup hleft (hdocs.trans hfiles.symm) hfile hdoc⟩

/-- A file before the one it needs, a file of no project, and a text that was replaced since. -/
def outOfOrder : List Request :=
  [("thms", "thm t() { |- top } = { triv }"), ("other", "type Wff"), ("logic", "type Wff type Set")]

theorem run_pass_outOfOrder :
    let p := ofNames ["logic", "thms"]
    let sources : List Source := [⟨"a", "type Wff\nterm Wff top\naxiom triv() { |- top }"⟩,
      ⟨"b", "thm t() { |- top } = { triv }"⟩]
    let start := (p.run outOfOrder).2
    let pass := start.run (p.names.zip (sources.map (·.text)))
    let docs := (checkSources [] sources).map Prod.snd
    p.names.Nodup ∧ p.searchLimit = 5 ∧ sources.length = p.names.length ∧
      start.attempt ("other", "type Wff") = (.error (.unknownFile "other"), start) ∧
      pass.1 = docs.map .ok ∧ pass.2.imports "thms" = .ok ((docs.take 1).map (·.table)) ∧
      docs.map (·.diagnostics) = [[], []] := by
  intro p sources start pass docs
  have hnodup : p.names.Nodup := by decide
  obtain ⟨hother, hpass, hfiles⟩ := @run_pass p hnodup rfl outOfOrder sources rfl
  obtain ⟨-, -, -, himports⟩ := hfiles 1 "thms" rfl
  exact ⟨hnodup, rfl, rfl, hother _ (by decide), hpass, himports, by decide +kernel⟩

end Project

end Sequitur
