import Mathlib.Data.List.Nodup
import Mathlib.Data.List.Perm.Subperm
import Mathlib.Order.Bounds.Defs
import Sequitur.Hole.Table
import Sequitur.Proofs.Names

/-!
# The table of holes

Holes are created under made-up names and under names as written, and are referred to. However such calls
follow on each other, as long as a name is given to a hole only while no hole has it, the parts of the table
stay in step (`HoleTable.Lockstep`): the index is the number of holes, no two holes have one name, and the
map finds the place of each by its name, and no other place. A name is made up by trying one number after
the other from the index on. This comes to an end at the least number that is free, after at most one try
more than there are names, though names of one type can look like those of another (`HoleTable.Probes`).

What is said about proofs is said about the plain list of their holes. The table does the same as the list,
call by call (`HoleTable.Mirrors.run`).
-/

namespace Sequitur

/-! ### Trying names -/

namespace Holes

theorem nameAt_inj {type : String} {m n : Nat} (h : nameAt type m = nameAt type n) : m = n := by
  rw [nameAt, nameAt, String.append_right_inj] at h
  have hdigits : Nat.toDigits 10 m = Nat.toDigits 10 n := by
    simpa only [Nat.toString_eq_repr, Nat.toList_repr] using congrArg String.toList h
  simpa using congrArg (fun ds => Nat.ofDigitChars 10 ds 0) hdigits

section Probing

variable {taken : String → Bool} {names : List String}

/-- Probing passes over names that are taken only, and stops at a free one if there are tries left. -/
theorem exists_probe (htaken : ∀ x, taken x = true ↔ x ∈ names) (type : String) (tries i : Nat) :
    ∃ n, i ≤ n ∧ probe taken type tries i = nameAt type n ∧
      (∀ m, i ≤ m → m < n → nameAt type m ∈ names) ∧ (nameAt type n ∉ names ∨ n = i + tries) := by
  induction tries generalizing i with
  | zero => exact ⟨i, Nat.le_refl i, rfl, fun m hm hlt => absurd hm (Nat.not_le.2 hlt), .inr rfl⟩
  | succ tries ih =>
    rw [probe]
    split
    · next hi =>
      obtain ⟨n, hn, hprobe, hbelow, hstop⟩ := ih (i + 1)
      refine ⟨n, by omega, hprobe, fun m hm hlt => ?_, hstop.imp_right fun he => by omega⟩
      rcases Nat.eq_or_lt_of_le hm with rfl | hm
      · exact (htaken _).1 hi
      · exact hbelow m hm hlt
    · next hi =>
      refine ⟨i, Nat.le_refl i, rfl, fun m hm hlt => absurd hm (Nat.not_le.2 hlt), .inl ?_⟩
      exact mt (htaken _).2 hi

/-- Names in a row that are all taken are no more than there are names. -/
theorem le_length_of_taken {type : String} {i k : Nat} (h : ∀ m, i ≤ m → m < i + k → nameAt type m ∈ names) :
    k ≤ names.length := by
  have hnodup : ((List.range' i k).map (nameAt type)).Nodup :=
    (List.nodup_range' 1).map fun _ _ => nameAt_inj
  have hsub : (List.range' i k).map (nameAt type) ⊆ names := by
    intro x hx
    obtain ⟨m, hm, rfl⟩ := List.mem_map.1 hx
    rw [List.mem_range'_1] at hm
    exact h m hm.1 hm.2
  have hlen := (hnodup.subperm hsub).length_le
  rwa [List.length_map, List.length_range'] at hlen

/-- With as many tries as there are names, probing ends at the least number that is free. -/
theorem exists_probe_free (htaken : ∀ x, taken x = true ↔ x ∈ names) (type : String) (i : Nat) :
    ∃ n, i ≤ n ∧ probe taken type names.length i = nameAt type n ∧ nameAt type n ∉ names ∧
      ∀ m, i ≤ m → m < n → nameAt type m ∈ names := by
  obtain ⟨n, hn, hprobe, hbelow, hstop⟩ := exists_probe htaken type names.length i
  refine ⟨n, hn, hprobe, fun hmem => ?_, hbelow⟩
  -- otherwise there are more numbers than names
  have he := hstop.resolve_left (not_not_intro hmem)
  have hle : names.length + 1 ≤ names.length := le_length_of_taken fun m hm hlt => by
    by_cases hmn : m = n
    · exact hmn ▸ hmem
    · exact hbelow m hm (by omega)
  omega

/-- Trying one name after the other from number `i` on, with no limit, ends with the try number `k` at the
name `x`. -/
inductive Tries (taken : String → Bool) (type : String) : Nat → Nat → String → Prop where
  | free {i : Nat} : taken (nameAt type i) = false → Tries taken type i 1 (nameAt type i)
  | taken {i k : Nat} {x : String} : taken (nameAt type i) = true → Tries taken type (i + 1) k x →
    Tries taken type i (k + 1) x

variable {type : String}

theorem Tries.unique {i k l : Nat} {x y : String} (hx : Tries taken type i k x) (hy : Tries taken type i l y) :
    k = l ∧ x = y := by
  induction hx generalizing l with
  | free hfree =>
    cases hy with
    | free _ => exact ⟨rfl, rfl⟩
    | taken htaken _ => exact absurd (htaken.symm.trans hfree) nofun
  | taken htaken _ ih =>
    cases hy with
    | free hfree => exact absurd (htaken.symm.trans hfree) nofun
    | taken _ hy =>
      obtain ⟨rfl, rfl⟩ := ih hy
      exact ⟨rfl, rfl⟩

/-- Trying passes over names that are taken, up to one that is free. -/
theorem tries_of_taken {i d : Nat} (hfree : taken (nameAt type (i + d)) = false)
    (hbelow : ∀ m, i ≤ m → m < i + d → taken (nameAt type m) = true) :
    Tries taken type i (d + 1) (nameAt type (i + d)) := by
  induction d generalizing i with
  | zero => exact .free hfree
  | succ d ih =>
    have he : i + (d + 1) = i + 1 + d := by omega
    rw [he] at hfree hbelow ⊢
    refine .taken (hbelow i (Nat.le_refl i) (by omega)) (ih hfree fun m hm hlt => ?_)
    exact hbelow m (by omega) hlt

end Probing

/-! ### Calls -/

/-- What is done to the holes of a proof. -/
inductive Call where
  | fresh (token : Token.Ref) (span : Span) (want : Param)
  | named (head : Token.Ref) (span : Span) (want : Param)
  | useAt (name : String) (span : Span)

def Call.creates : Call → Bool
  | fresh .. | named .. => true
  | useAt .. => false

end Holes

namespace HoleTable

open Holes

variable {v : HoleTable} {c : Call} {calls : List Call} {t : Term}

def after (v : HoleTable) : Call → HoleTable
  | .fresh token span want => v.add (v.freshTerm token span want)
  | .named head span want => v.add (.hole head span want)
  | .useAt name span => v.useAt name span

/-- The term of the hole that a call creates. -/
def made (v : HoleTable) : Call → List Term
  | .fresh token span want => [v.freshTerm token span want]
  | .named head span want => [.hole head span want]
  | .useAt .. => []

def run : HoleTable → List Call → HoleTable := List.foldl after

def madeAll : HoleTable → List Call → List Term
  | _, [] => []
  | v, c :: calls => v.made c ++ madeAll (v.after c) calls

/-- A name is given to a hole only while no hole has it. -/
def Allows (v : HoleTable) : Call → Prop
  | .named head _ _ => v.get? head.text = none
  | _ => True

/-- What is referred to is there. -/
def Resolves (v : HoleTable) : Call → Prop
  | .useAt name _ => (v.get? name).isSome
  | _ => True

/-- The table is as a call asks for whenever one is made. -/
def Always (P : HoleTable → Call → Prop) : HoleTable → List Call → Prop
  | _, [] => True
  | v, c :: calls => P v c ∧ Always P (v.after c) calls

instance (v : HoleTable) : (c : Call) → Decidable (v.Allows c)
  | .named head _ _ => inferInstanceAs (Decidable (v.get? head.text = none))
  | .fresh .. | .useAt .. => .isTrue trivial

instance (v : HoleTable) : (c : Call) → Decidable (v.Resolves c)
  | .useAt name _ => inferInstanceAs (Decidable ((v.get? name).isSome = true))
  | .fresh .. | .named .. => .isTrue trivial

instance decidableAlways {P : HoleTable → Call → Prop} [∀ v c, Decidable (P v c)] :
    (v : HoleTable) → (calls : List Call) → Decidable (v.Always P calls)
  | _, [] => .isTrue trivial
  | v, c :: calls => @instDecidableAnd _ _ _ (decidableAlways (v.after c) calls)

theorem run_append (v : HoleTable) (calls calls' : List Call) :
    v.run (calls ++ calls') = (v.run calls).run calls' :=
  List.foldl_append

theorem always_append {P : HoleTable → Call → Prop} {calls' : List Call} (h : v.Always P calls)
    (h' : (v.run calls).Always P calls') : v.Always P (calls ++ calls') := by
  induction calls generalizing v with
  | nil => exact h'
  | cons c calls ih => exact ⟨h.1, ih h.2 h'⟩

/-! ### Making up names -/

theorem mem_keys_byName {x : String} : x ∈ v.byName.keys ↔ ∃ i, v.byName.get? x = some i := by
  rw [NameMap.keys, List.mem_map]
  constructor
  · rintro ⟨⟨y, i⟩, hi, rfl⟩
    exact ⟨i, NameMap.mem_toList.1 hi⟩
  · rintro ⟨i, hi⟩
    exact ⟨(x, i), NameMap.mem_toList.2 hi, rfl⟩

theorem contains_byName {x : String} : v.byName.contains x = true ↔ x ∈ v.byName.keys := by
  rw [mem_keys_byName, NameMap.contains, Option.isSome_iff_exists]

theorem length_keys_byName (v : HoleTable) : v.byName.keys.length = v.byName.size := List.length_map ..

/-- The name that is made up for a type has the least number that is free, from the index on. Trying names
ends there and nowhere else, after at most one try more than there are names. -/
structure Probes (v : HoleTable) (type : String) (n : Nat) : Prop where
  least : IsLeast {m | v.index ≤ m ∧ v.byName.get? (nameAt type m) = none} n
  name : v.nextName type = nameAt type n
  tries : ∀ k x, Holes.Tries v.byName.contains type v.index k x ↔ k = n - v.index + 1 ∧ x = nameAt type n
  bound : n - v.index + 1 ≤ v.byName.size + 1

/-- Names are made up as they should be whatever is in the table. -/
theorem exists_probes (v : HoleTable) (type : String) : ∃ n, v.Probes type n := by
  obtain ⟨n, hn, hname, hfree, hbelow⟩ :=
    Holes.exists_probe_free (fun x => contains_byName (v := v) (x := x)) type v.index
  rw [length_keys_byName] at hname
  obtain ⟨d, rfl⟩ := Nat.exists_eq_add_of_le hn
  have htries : Holes.Tries v.byName.contains type v.index (d + 1) (nameAt type (v.index + d)) := by
    refine Holes.tries_of_taken (Bool.eq_false_iff.2 fun htaken => hfree (contains_byName.1 htaken)) ?_
    exact fun m hm hlt => contains_byName.2 (hbelow m hm hlt)
  have hbound : d ≤ v.byName.size := by
    rw [← length_keys_byName]
    exact Holes.le_length_of_taken hbelow
  have hd : v.index + d - v.index = d := Nat.add_sub_cancel_left ..
  refine ⟨v.index + d, ⟨⟨hn, ?_⟩, fun m hm => ?_⟩, hname, fun k x => ?_, by omega⟩
  · exact Option.eq_none_iff_forall_ne_some.2 fun i hi => hfree (mem_keys_byName.2 ⟨i, hi⟩)
  · refine Nat.le_of_not_lt fun hlt => ?_
    obtain ⟨i, hi⟩ := mem_keys_byName.1 (hbelow m hm.1 hlt)
    exact absurd (hi.symm.trans hm.2) nofun
  · rw [hd]
    refine ⟨fun h => h.unique htries, ?_⟩
    rintro ⟨rfl, rfl⟩
    exact htries

/-! ### In step -/

/-- The parts of the table say the same. -/
structure Lockstep (v : HoleTable) : Prop where
  index : v.index = v.terms.length
  nodup : (Term.keys v.terms).Nodup
  /-- The map leads to the hole of the name, so that no lookup is out of bounds. -/
  byName : ∀ x i, v.byName.get? x = some i ↔ v.terms[i]?.map Term.key = some x

theorem lockstep_empty : Lockstep ∅ := by
  refine ⟨rfl, List.nodup_nil, fun x i => ?_⟩
  rw [show (∅ : HoleTable).byName = ∅ from rfl, show (∅ : HoleTable).terms = [] from rfl]
  simp

theorem mem_keys_terms {x : String} : x ∈ Term.keys v.terms ↔ ∃ i : Nat, v.terms[i]?.map Term.key = some x := by
  rw [Term.keys_eq_map, List.mem_iff_getElem?]
  simp only [List.getElem?_map]

namespace Lockstep

theorem mem_keys (h : v.Lockstep) {x : String} : x ∈ v.byName.keys ↔ x ∈ Term.keys v.terms := by
  rw [mem_keys_byName, mem_keys_terms]
  exact exists_congr (h.byName x)

/-- There are as many names as holes. -/
theorem size_byName (h : v.Lockstep) : v.byName.size = v.terms.length := by
  have hperm : v.byName.keys.Perm (Term.keys v.terms) :=
    (List.perm_ext_iff_of_nodup v.byName.nodup_names h.nodup).2 fun x => h.mem_keys
  rw [← length_keys_byName, hperm.length_eq, Term.keys_eq_map, List.length_map]

theorem get?_iff (h : v.Lockstep) {x : String} : v.get? x = some t ↔ t ∈ v.terms ∧ t.key = x := by
  rw [get?, Option.bind_eq_some_iff]
  constructor
  · rintro ⟨i, hi, ht⟩
    have hkey := (h.byName x i).1 hi
    rw [ht, Option.map_some] at hkey
    exact ⟨List.mem_of_getElem? ht, Option.some.inj hkey⟩
  · rintro ⟨ht, rfl⟩
    obtain ⟨i, hi⟩ := List.getElem?_of_mem ht
    exact ⟨i, (h.byName t.key i).2 (by rw [hi, Option.map_some]), hi⟩

theorem get?_eq_none (h : v.Lockstep) {x : String} : v.get? x = none ↔ x ∉ Term.keys v.terms := by
  rw [Term.keys_eq_map, List.mem_map, Option.eq_none_iff_forall_ne_some]
  constructor
  · rintro hnone ⟨t, ht, rfl⟩
    exact hnone t (h.get?_iff.2 ⟨ht, rfl⟩)
  · intro hx t ht
    obtain ⟨ht, hkey⟩ := h.get?_iff.1 ht
    exact hx ⟨t, ht, hkey⟩

/-- A hole whose name no other has goes to the end. -/
theorem add (h : v.Lockstep) (hnew : t.key ∉ Term.keys v.terms) : (v.add t).Lockstep where
  index := by
    rw [HoleTable.add, List.length_append, h.index]
    rfl
  nodup := by
    have hkeys : Term.keys (v.terms ++ [t]) = (Term.keys v.terms).concat t.key := by
      simp [Term.keys_eq_map]
    rw [HoleTable.add, hkeys]
    exact h.nodup.concat hnew
  byName x i := by
    rw [HoleTable.add, NameMap.get?_insert]
    dsimp only
    by_cases hi : i < v.terms.length
    · -- an old place: its name is not the new one
      rw [List.getElem?_append_left hi, ← h.byName x i]
      split
      · next hx =>
        subst hx
        refine iff_of_false (fun he => ?_) fun hold => ?_
        · have := Option.some.inj he
          omega
        · exact hnew (h.mem_keys.1 (mem_keys_byName.2 ⟨i, hold⟩))
      · rfl
    · -- no old name has a place from here on
      have hold : v.byName.get? x ≠ some i := by
        rw [Ne, h.byName, List.getElem?_eq_none (Nat.le_of_not_lt hi)]
        exact nofun
      rw [List.getElem?_append_right (Nat.le_of_not_lt hi)]
      split
      · next hx =>
        subst hx
        by_cases he : i = v.terms.length
        · simp [he]
        · have hsub : i - v.terms.length ≠ 0 := by omega
          have hne : ¬v.terms.length = i := fun h => he h.symm
          simp [hsub, hne]
      · next hx =>
        refine iff_of_false hold fun hsome => ?_
        obtain ⟨u, hu, hkey⟩ := Option.map_eq_some_iff.1 hsome
        obtain rfl : u = t := by simpa using List.mem_of_getElem? hu
        exact hx hkey.symm

theorem freshTerm_notMem (h : v.Lockstep) (token : Token.Ref) (span : Span) (want : Param) :
    (v.freshTerm token span want).key ∉ Term.keys v.terms := by
  obtain ⟨n, hprobes⟩ := v.exists_probes want.type.text
  have hkey : (v.freshTerm token span want).key = nameAt want.type.text n := hprobes.name
  rw [hkey, ← h.mem_keys, mem_keys_byName, hprobes.least.1.2]
  rintro ⟨i, hi⟩
  exact absurd hi nofun

end Lockstep

theorem Lockstep.after (h : v.Lockstep) (hc : v.Allows c) : (v.after c).Lockstep := by
  cases c with
  | fresh token span want => exact h.add (h.freshTerm_notMem token span want)
  | named head span want => exact h.add (h.get?_eq_none.1 hc)
  | useAt name span => exact ⟨h.index, h.nodup, h.byName⟩

theorem Lockstep.run (h : v.Lockstep) (hcalls : v.Always Allows calls) : (v.run calls).Lockstep := by
  induction calls generalizing v with
  | nil => exact h
  | cons c calls ih => exact ih (h.after hcalls.1) hcalls.2

theorem terms_after (v : HoleTable) (c : Call) : (v.after c).terms = v.terms ++ v.made c := by
  cases c with
  | fresh => rfl
  | named => rfl
  | useAt => exact (List.append_nil _).symm

theorem terms_run (v : HoleTable) (calls : List Call) : (v.run calls).terms = v.terms ++ v.madeAll calls := by
  induction calls generalizing v with
  | nil => exact (List.append_nil _).symm
  | cons c calls ih =>
    have hrest : (v.run (c :: calls)).terms = _ := ih (v.after c)
    rw [hrest, terms_after, madeAll, List.append_assoc]

/-- The table has the holes of the terms, and finds each by its name. -/
structure Tabled (v : HoleTable) (made : List Term) : Prop extends v.Lockstep where
  terms : v.terms = made
  get?_iff : ∀ x t, v.get? x = some t ↔ t ∈ made ∧ t.key = x
  probes : ∀ type, ∃ n, v.Probes type n

theorem tabled_madeAll (hcalls : Always Allows ∅ calls) : (run ∅ calls).Tabled (madeAll ∅ calls) := by
  have hlockstep := lockstep_empty.run hcalls
  have hterms : (run ∅ calls).terms = madeAll ∅ calls := terms_run ∅ calls
  exact ⟨hlockstep, hterms, fun x t => hterms ▸ hlockstep.get?_iff, exists_probes _⟩

theorem length_madeAll (v : HoleTable) (calls : List Call) :
    (v.madeAll calls).length = calls.countP (·.creates) := by
  induction calls generalizing v with
  | nil => rfl
  | cons c calls ih =>
    rw [madeAll, List.length_append, ih, List.countP_cons, Nat.add_comm]
    cases c <;> rfl

end HoleTable

/-! ### The list of holes -/

theorem Hole.key_term (h : Hole) : h.term.key = h.name := rfl

namespace Holes

def find? (hs : Holes) (name : String) : Option Hole := List.find? (·.name == name) hs

def isTaken (hs : Holes) (name : String) : Bool := (hs.find? name).isSome

def freshName (hs : Holes) (type : String) : String := probe hs.isTaken type hs.length hs.length

def fresh (hs : Holes) (token : Token.Ref) (span : Span) (param : Param) : Hole :=
  { head := ⟨token.index, hs.freshName param.type.text, span⟩, span, param }

def useAt (hs : Holes) (name : String) (span : Span) : Holes :=
  hs.map fun h => if h.name == name then { h with uses := h.uses ++ [span] } else h

def after (hs : Holes) : Call → Holes
  | .fresh token span want => hs ++ [hs.fresh token span want]
  | .named head span want => hs ++ [{ head, span, param := want }]
  | .useAt name span => hs.useAt name span

def run : Holes → List Call → Holes := List.foldl after

@[simp] theorem run_nil (hs : Holes) : hs.run [] = hs := rfl

theorem run_append (hs : Holes) (c d : List Call) : hs.run (c ++ d) = (hs.run c).run d := List.foldl_append

theorem find?_eq_none {hs : Holes} {name : String} : hs.find? name = none ↔ name ∉ hs.map Hole.name := by
  simp [find?, List.find?_eq_none]

theorem isSome_find? {hs : Holes} {name : String} : (hs.find? name).isSome ↔ name ∈ hs.map Hole.name := by
  simp [find?, List.find?_isSome]

theorem isTaken_iff (hs : Holes) (x : String) : hs.isTaken x = true ↔ x ∈ hs.map Hole.name := isSome_find?

/-- A made-up name is the least free one from the number of holes on. -/
theorem exists_freshName (hs : Holes) (type : String) :
    ∃ n, hs.length ≤ n ∧ hs.freshName type = nameAt type n ∧ nameAt type n ∉ hs.map Hole.name ∧
      ∀ m, hs.length ≤ m → m < n → nameAt type m ∈ hs.map Hole.name := by
  have hfree := exists_probe_free hs.isTaken_iff type hs.length
  rwa [List.length_map] at hfree

theorem map_useAt {α : Type} {f : Hole → α} (hf : ∀ h uses, f { h with uses } = f h) (hs : Holes)
    (name : String) (span : Span) : (hs.useAt name span).map f = hs.map f := by
  rw [useAt, List.map_map]
  refine List.map_congr_left fun h _ => ?_
  dsimp only [Function.comp]
  split
  · exact hf h _
  · rfl

theorem map_name_useAt (hs : Holes) (name : String) (span : Span) :
    (hs.useAt name span).map Hole.name = hs.map Hole.name :=
  map_useAt (fun _ _ => rfl) hs name span

theorem name_fresh_notMem (hs : Holes) (token : Token.Ref) (span : Span) (param : Param) :
    (hs.fresh token span param).name ∉ hs.map Hole.name := by
  obtain ⟨n, -, hname, hfree, -⟩ := hs.exists_freshName param.type.text
  exact fun hm => hfree (hname ▸ hm)

theorem nodup_concat {hs : Holes} {hole : Hole} (h : (hs.map Hole.name).Nodup)
    (hnew : hole.name ∉ hs.map Hole.name) : ((hs ++ [hole]).map Hole.name).Nodup := by
  rw [List.map_append, List.map_singleton, ← List.concat_eq_append]
  exact h.concat hnew

theorem keys_map_term (hs : Holes) : Term.keys (hs.map Hole.term) = hs.map Hole.name := by
  rw [Term.keys_eq_map, List.map_map]
  exact List.map_congr_left fun h _ => h.key_term

theorem name_of_find? {hs : Holes} {hole : Hole} {x : String} (h : hs.find? x = some hole) : hole.name = x := by
  simpa using List.find?_some h

theorem map_term_find? {hs : Holes} (h : (hs.map Hole.name).Nodup) {x : String} {t : Term} :
    (hs.find? x).map Hole.term = some t ↔ t ∈ hs.map Hole.term ∧ t.key = x := by
  rw [Option.map_eq_some_iff, List.mem_map]
  constructor
  · rintro ⟨hole, hfind, rfl⟩
    exact ⟨⟨hole, List.mem_of_find?_eq_some hfind, rfl⟩, name_of_find? hfind⟩
  · rintro ⟨⟨hole, hmem, rfl⟩, rfl⟩
    obtain ⟨other, hfind⟩ := Option.isSome_iff_exists.1 (isSome_find?.2 (List.mem_map_of_mem hmem))
    obtain rfl := List.inj_on_of_nodup_map h (List.mem_of_find?_eq_some hfind) hmem (name_of_find? hfind)
    exact ⟨other, hfind, rfl⟩

end Holes

namespace HoleTable

open Holes

variable {v : HoleTable} {hs : Holes} {c : Call} {calls : List Call}

/-- The holes of the list are those of the table. -/
structure Lists (v : HoleTable) (hs : Holes) : Prop extends v.Lockstep where
  terms : v.terms = hs.map Hole.term

namespace Lists

theorem empty : Lists ∅ [] := ⟨lockstep_empty, rfl⟩

theorem keys_terms (h : v.Lists hs) : Term.keys v.terms = hs.map Hole.name := by
  rw [h.terms, keys_map_term]

theorem get?_eq (h : v.Lists hs) (x : String) : v.get? x = (hs.find? x).map Hole.term := by
  have hnodup : (hs.map Hole.name).Nodup := h.keys_terms ▸ h.nodup
  ext t
  rw [h.get?_iff, map_term_find? hnodup, h.terms]

theorem nextName_eq (h : v.Lists hs) (type : String) : v.nextName type = hs.freshName type := by
  have htaken : v.byName.contains = hs.isTaken := by
    funext x
    rw [Bool.eq_iff_iff, contains_byName, h.mem_keys, h.keys_terms, isTaken_iff]
  have hlen : v.terms.length = hs.length := by rw [h.terms, List.length_map]
  rw [nextName, freshName, htaken, h.size_byName, h.index, hlen]

theorem freshTerm_eq (h : v.Lists hs) (token : Token.Ref) (span : Span) (want : Param) :
    v.freshTerm token span want = (hs.fresh token span want).term := by
  rw [freshTerm, h.nextName_eq]
  rfl

theorem after (h : v.Lists hs) (hc : v.Allows c) : (v.after c).Lists (hs.after c) where
  toLockstep := h.toLockstep.after hc
  terms := by
    rw [terms_after, h.terms]
    cases c with
    | fresh token span want =>
      rw [made, h.freshTerm_eq, Holes.after, List.map_append]
      rfl
    | named head span want =>
      rw [Holes.after, List.map_append]
      rfl
    | useAt name span => exact (List.append_nil _).trans (map_useAt (fun _ _ => rfl) hs name span).symm

theorem run (h : v.Lists hs) (hcalls : v.Always Allows calls) : (v.run calls).Lists (hs.run calls) := by
  induction calls generalizing v hs with
  | nil => exact h
  | cons c calls ih => exact ih (h.after hcalls.1) hcalls.2

end Lists

theorem usesOf_useAt (v : HoleTable) (name x : String) (span : Span) :
    (v.useAt name span).usesOf x = if x = name then v.usesOf x ++ [span] else v.usesOf x := by
  rw [usesOf, useAt, NameMap.get?_insert]
  split
  · next hx => rw [hx, Option.getD_some]
  · rfl

/-- The table says the same as the list, and nothing about names that no hole has. -/
structure Mirrors (v : HoleTable) (hs : Holes) : Prop extends v.Lists hs where
  uses : ∀ hole ∈ hs, v.usesOf hole.name = hole.uses
  unused : ∀ x ∉ hs.map Hole.name, v.usesOf x = []

namespace Mirrors

theorem empty : Mirrors ∅ [] := ⟨.empty, List.forall_mem_nil _, fun _ _ => rfl⟩

theorem holes_eq (h : v.Mirrors hs) : v.holes = hs := by
  have hhole : ∀ hole ∈ hs, v.hole? hole.term = some hole := fun hole hmem => by
    have huses : v.usesOf hole.head.text = hole.uses := h.uses hole hmem
    rw [Hole.term, hole?, huses]
  rw [holes, h.terms, List.filterMap_map]
  exact (List.filterMap_congr hhole).trans List.filterMap_some

theorem concat {v' : HoleTable} {hole : Hole} (h : v.Mirrors hs) (hlists : v'.Lists (hs ++ [hole]))
    (hnew : hole.name ∉ hs.map Hole.name) (huses : hole.uses = []) (hsame : v'.uses = v.uses) :
    v'.Mirrors (hs ++ [hole]) := by
  have husesOf : ∀ x, v'.usesOf x = v.usesOf x := fun x => by rw [usesOf, usesOf, hsame]
  refine ⟨hlists, List.forall_mem_append.2 ⟨fun old hold => ?_, ?_⟩, fun x hx => ?_⟩
  · rw [husesOf, h.uses old hold]
  · rw [List.forall_mem_singleton, husesOf, h.unused _ hnew, huses]
  · rw [List.map_append, List.mem_append, not_or] at hx
    rw [husesOf, h.unused x hx.1]

/-- A call that is allowed, and refers to a hole that is there if it refers to one, does the same to both. -/
theorem after (h : v.Mirrors hs) (hc : v.Allows c) (hr : v.Resolves c) : (v.after c).Mirrors (hs.after c) := by
  have hlists := h.toLists.after hc
  cases c with
  | fresh token span want => exact h.concat hlists (hs.name_fresh_notMem token span want) rfl rfl
  | named head span want =>
    have hnew : head.text ∉ hs.map Hole.name := h.keys_terms ▸ h.get?_eq_none.1 hc
    exact h.concat hlists hnew rfl rfl
  | useAt name span =>
    have husesOf := fun x => v.usesOf_useAt name x span
    refine ⟨hlists, fun hole hhole => ?_, fun x hx => ?_⟩
    · obtain ⟨old, hold, rfl⟩ := List.mem_map.1 hhole
      split
      · next hname => exact (husesOf old.name).trans (by rw [if_pos (beq_iff_eq.1 hname), h.uses old hold])
      · next hname =>
        exact (husesOf old.name).trans (by rw [if_neg (mt beq_iff_eq.2 hname), h.uses old hold])
    · rw [Holes.after, map_name_useAt] at hx
      have hne : x ≠ name := by
        rintro rfl
        obtain ⟨t, ht⟩ := Option.isSome_iff_exists.1 hr
        obtain ⟨hmem, rfl⟩ := h.get?_iff.1 ht
        rw [← h.keys_terms, Term.keys_eq_map] at hx
        exact hx (List.mem_map_of_mem hmem)
      rw [HoleTable.after, husesOf, if_neg hne, h.unused x hx]

theorem run (h : v.Mirrors hs) (hcalls : v.Always Allows calls) (hrefs : v.Always Resolves calls) :
    (v.run calls).Mirrors (hs.run calls) := by
  induction calls generalizing v hs with
  | nil => exact h
  | cons c calls ih => exact ih (h.after hcalls.1 hrefs.1) hcalls.2 hrefs.2

end Mirrors

end HoleTable

end Sequitur
