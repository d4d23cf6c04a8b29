/-!
Finite sets of names, kept as strictly ascending lists. The order is by code point. Two sets with the
same members are equal (`NameSet.ext`).
-/

namespace Sequitur

theorem eq_of_not_lt {a b : String} (h₁ : ¬a < b) (h₂ : ¬b < a) : a = b :=
  String.le_antisymm (String.not_lt.1 h₂) (String.not_lt.1 h₁)

/-- Puts a name in its place in an ascending list, unless it is there. -/
def insertName (x : String) : List String → List String
  | [] => [x]
  | y :: ys => if x < y then x :: y :: ys else if y < x then y :: insertName x ys else y :: ys

theorem mem_insertName {x z : String} {ys : List String} :
    z ∈ insertName x ys ↔ z = x ∨ z ∈ ys := by
  induction ys with
  | nil => simp [insertName]
  | cons y ys ih =>
    simp only [insertName]
    split
    · simp
    split
    · simp only [List.mem_cons, ih]; exact or_left_comm
    · next h₁ h₂ => simp [eq_of_not_lt h₁ h₂]

theorem pairwise_insertName {x : String} {ys : List String} (h : ys.Pairwise (· < ·)) :
    (insertName x ys).Pairwise (· < ·) := by
  induction ys with
  | nil => simp [insertName]
  | cons y ys ih =>
    obtain ⟨hy, hys⟩ := List.pairwise_cons.1 h
    simp only [insertName]
    split
    · next hx =>
      refine List.pairwise_cons.2 ⟨fun z hz => ?_, h⟩
      rcases List.mem_cons.1 hz with rfl | hz
      · exact hx
      · exact String.lt_trans hx (hy z hz)
    split
    · next hx =>
      refine List.pairwise_cons.2 ⟨fun z hz => ?_, ih hys⟩
      rcases mem_insertName.1 hz with rfl | hz
      · exact hx
      · exact hy z hz
    · exact h

/-- Merges `x :: xs` into an ascending list, where `rest` merges `xs`. -/
def mergeFrom (x : String) (rest : List String → List String) : List String → List String
  | [] => x :: rest []
  | y :: ys =>
    if x < y then x :: rest (y :: ys)
    else if y < x then y :: mergeFrom x rest ys
    else x :: rest ys

/-- Merges ascending lists, keeping common names once. -/
def mergeNames : List String → List String → List String
  | [], ys => ys
  | x :: xs, ys => mergeFrom x (mergeNames xs) ys

theorem mem_mergeFrom {x z : String} {xs ys : List String} {rest : List String → List String}
    (h : ∀ ys, z ∈ rest ys ↔ z ∈ xs ∨ z ∈ ys) :
    z ∈ mergeFrom x rest ys ↔ z ∈ x :: xs ∨ z ∈ ys := by
  induction ys with
  | nil => simp [mergeFrom, h]
  | cons y ys ih =>
    simp only [mergeFrom]
    split
    · simp [h, or_assoc]
    split
    · simp only [List.mem_cons, ih, or_assoc, or_left_comm]
    · next h₁ h₂ =>
      simp only [List.mem_cons, h, eq_of_not_lt h₁ h₂]
      grind

theorem mem_mergeNames {z : String} {xs ys : List String} :
    z ∈ mergeNames xs ys ↔ z ∈ xs ∨ z ∈ ys := by
  induction xs generalizing ys with
  | nil => simp [mergeNames]
  | cons x xs ih => exact mem_mergeFrom fun _ => ih

theorem pairwise_mergeNames {xs ys : List String} (hx : xs.Pairwise (· < ·))
    (hy : ys.Pairwise (· < ·)) : (mergeNames xs ys).Pairwise (· < ·) := by
  induction xs generalizing ys with
  | nil => exact hy
  | cons x xs ih =>
    obtain ⟨hx, hxs⟩ := List.pairwise_cons.1 hx
    rw [mergeNames]
    induction ys with
    | nil =>
      refine List.pairwise_cons.2 ⟨fun z hz => ?_, ih hxs hy⟩
      exact hx z ((mem_mergeNames.1 hz).resolve_right List.not_mem_nil)
    | cons y ys ihy =>
      obtain ⟨hy', hys⟩ := List.pairwise_cons.1 hy
      simp only [mergeFrom]
      split
      · next h =>
        refine List.pairwise_cons.2 ⟨fun z hz => ?_, ih hxs hy⟩
        rcases mem_mergeNames.1 hz with hz | hz
        · exact hx z hz
        rcases List.mem_cons.1 hz with rfl | hz
        · exact h
        · exact String.lt_trans h (hy' z hz)
      split
      · next h =>
        refine List.pairwise_cons.2 ⟨fun z hz => ?_, ihy hys⟩
        rcases (mem_mergeFrom fun _ => mem_mergeNames).1 hz with hz | hz
        · rcases List.mem_cons.1 hz with rfl | hz
          · exact h
          · exact String.lt_trans h (hx z hz)
        · exact hy' z hz
      · next h₁ h₂ =>
        refine List.pairwise_cons.2 ⟨fun z hz => ?_, ih hxs hys⟩
        rcases mem_mergeNames.1 hz with hz | hz
        · exact hx z hz
        · exact eq_of_not_lt h₁ h₂ ▸ hy' z hz

/-- Ascending lists with the same members are equal. -/
theorem eq_of_pairwise_lt_of_mem {xs ys : List String} (hx : xs.Pairwise (· < ·))
    (hy : ys.Pairwise (· < ·)) (h : ∀ z, z ∈ xs ↔ z ∈ ys) : xs = ys := by
  induction xs generalizing ys with
  | nil =>
    cases ys with
    | nil => rfl
    | cons y ys => simpa using h y
  | cons x xs ih =>
    cases ys with
    | nil => simpa using h x
    | cons y ys =>
      obtain ⟨hx, hxs⟩ := List.pairwise_cons.1 hx
      obtain ⟨hy, hys⟩ := List.pairwise_cons.1 hy
      have hxy : x = y := by
        rcases List.mem_cons.1 ((h x).1 (List.mem_cons_self ..)) with e | hm
        · exact e
        rcases List.mem_cons.1 ((h y).2 (List.mem_cons_self ..)) with e | hn
        · exact e.symm
        exact absurd (hx y hn) (String.lt_asymm (hy x hm))
      subst hxy
      rw [ih hxs hys fun z => ?_]
      constructor
      · intro hz
        refine (List.mem_cons.1 ((h z).1 (List.mem_cons_of_mem _ hz))).resolve_left ?_
        rintro rfl
        exact String.lt_irrefl _ (hx _ hz)
      · intro hz
        refine (List.mem_cons.1 ((h z).2 (List.mem_cons_of_mem _ hz))).resolve_left ?_
        rintro rfl
        exact String.lt_irrefl _ (hy _ hz)

structure NameSet where
  toList : List String
  ascending : toList.Pairwise (· < ·)
deriving DecidableEq

namespace NameSet

instance : EmptyCollection NameSet := ⟨⟨[], .nil⟩⟩

instance : Inhabited NameSet := ⟨∅⟩

instance : Membership String NameSet := ⟨fun s x => x ∈ s.toList⟩

instance (x : String) (s : NameSet) : Decidable (x ∈ s) := inferInstanceAs (Decidable (x ∈ s.toList))

def contains (s : NameSet) (x : String) : Bool := s.toList.contains x

def insert (s : NameSet) (x : String) : NameSet :=
  ⟨insertName x s.toList, pairwise_insertName s.ascending⟩

def insertAll (s : NameSet) (xs : List String) : NameSet :=
  xs.foldl insert s

def ofList (xs : List String) : NameSet := insertAll ∅ xs

def union (s t : NameSet) : NameSet :=
  ⟨mergeNames s.toList t.toList, pairwise_mergeNames s.ascending t.ascending⟩

instance : Union NameSet := ⟨union⟩

def filter (p : String → Bool) (s : NameSet) : NameSet := ⟨s.toList.filter p, s.ascending.filter p⟩

def isEmpty (s : NameSet) : Bool := s.toList.isEmpty

@[simp] theorem mem_toList {x : String} {s : NameSet} : x ∈ s.toList ↔ x ∈ s := Iff.rfl

@[simp] theorem contains_iff {x : String} {s : NameSet} : s.contains x = true ↔ x ∈ s := by
  simp [contains]

@[simp] theorem not_mem_empty (x : String) : x ∉ (∅ : NameSet) := List.not_mem_nil

@[simp] theorem mem_insert {x y : String} {s : NameSet} : x ∈ s.insert y ↔ x = y ∨ x ∈ s :=
  mem_insertName

@[simp] theorem mem_insertAll {x : String} {s : NameSet} {ys : List String} :
    x ∈ s.insertAll ys ↔ x ∈ s ∨ x ∈ ys := by
  induction ys generalizing s with
  | nil => simp [insertAll]
  | cons y ys ih =>
    rw [insertAll, List.foldl_cons, ← insertAll, ih, mem_insert, List.mem_cons, or_assoc,
      or_left_comm]

@[simp] theorem mem_ofList {x : String} {ys : List String} : x ∈ ofList ys ↔ x ∈ ys := by
  simp [ofList]

@[simp] theorem mem_union {x : String} {s t : NameSet} : x ∈ s ∪ t ↔ x ∈ s ∨ x ∈ t :=
  mem_mergeNames

@[simp] theorem mem_filter {x : String} {p : String → Bool} {s : NameSet} :
    x ∈ s.filter p ↔ x ∈ s ∧ p x = true :=
  List.mem_filter

@[ext] theorem ext {s t : NameSet} (h : ∀ x, x ∈ s ↔ x ∈ t) : s = t := by
  obtain ⟨xs, hx⟩ := s
  obtain ⟨ys, hy⟩ := t
  congr
  exact eq_of_pairwise_lt_of_mem hx hy h

end NameSet

end Sequitur
