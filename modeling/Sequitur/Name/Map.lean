import Sequitur.Name.Set

/-!
Finite maps from names, kept as lists of entries with strictly ascending names. Main statements: a
lookup after an insertion sees the new entry at its name and the old ones elsewhere
(`NameMap.get?_insert`), and maps with the same lookups are equal (`NameMap.ext`).
-/

namespace Sequitur

universe u v

variable {α : Type u} {β : Type v}

def lookupName (x : String) : List (String × α) → Option α
  | [] => none
  | (y, a) :: entries => if x = y then some a else lookupName x entries

/-- Puts an entry in its place, replacing one with the same name. -/
def insertEntry (x : String) (a : α) : List (String × α) → List (String × α)
  | [] => [(x, a)]
  | (y, b) :: entries =>
    if x < y then (x, a) :: (y, b) :: entries
    else if y < x then (y, b) :: insertEntry x a entries
    else (x, a) :: entries

theorem mem_insertEntry {x z : String} {a c : α} {entries : List (String × α)}
    (h : (z, c) ∈ insertEntry x a entries) : z = x ∨ (z, c) ∈ entries := by
  induction entries with
  | nil => simp_all [insertEntry]
  | cons e entries ih =>
    simp only [insertEntry] at h
    split at h
    · rcases List.mem_cons.1 h with h | h
      · simp_all
      · exact .inr h
    split at h
    · rcases List.mem_cons.1 h with h | h
      · simp_all
      · exact (ih h).imp_right (List.mem_cons_of_mem _)
    · rcases List.mem_cons.1 h with h | h
      · simp_all
      · exact .inr (List.mem_cons_of_mem _ h)

theorem pairwise_insertEntry {x : String} {a : α} {entries : List (String × α)}
    (h : entries.Pairwise (·.1 < ·.1)) : (insertEntry x a entries).Pairwise (·.1 < ·.1) := by
  induction entries with
  | nil => simp [insertEntry]
  | cons e entries ih =>
    obtain ⟨he, hes⟩ := List.pairwise_cons.1 h
    simp only [insertEntry]
    split
    · next hx =>
      refine List.pairwise_cons.2 ⟨fun z hz => ?_, h⟩
      rcases List.mem_cons.1 hz with rfl | hz
      · exact hx
      · exact String.lt_trans hx (he z hz)
    split
    · next hx =>
      refine List.pairwise_cons.2 ⟨fun z hz => ?_, ih hes⟩
      rcases mem_insertEntry hz with hz | hz
      · exact hz ▸ hx
      · exact he z hz
    · next h₁ h₂ =>
      refine List.pairwise_cons.2 ⟨fun z hz => ?_, hes⟩
      exact eq_of_not_lt h₁ h₂ ▸ he z hz

theorem lookupName_insertEntry (x z : String) (a : α) (entries : List (String × α)) :
    lookupName z (insertEntry x a entries) = if z = x then some a else lookupName z entries := by
  induction entries with
  | nil => rfl
  | cons e entries ih =>
    obtain ⟨y, b⟩ := e
    simp only [insertEntry]
    split
    · rfl
    split
    · next hx =>
      simp only [lookupName, ih]
      split
      · next hz =>
        subst hz
        rw [if_neg]
        rintro rfl
        exact String.lt_irrefl _ hx
      · rfl
    · next h₁ h₂ =>
      have := eq_of_not_lt h₁ h₂
      subst this
      simp only [lookupName]
      split <;> rfl

theorem lookupName_map (f : String → α → β) (x : String) (entries : List (String × α)) :
    lookupName x (entries.map fun e => (e.1, f e.1 e.2)) = (lookupName x entries).map (f x) := by
  induction entries with
  | nil => rfl
  | cons e entries ih =>
    simp only [List.map_cons, lookupName]
    split
    · next h => subst h; rfl
    · exact ih

theorem lookupName_eq_none {x : String} {entries : List (String × α)}
    (h : ∀ e ∈ entries, x < e.1) : lookupName x entries = none := by
  induction entries with
  | nil => rfl
  | cons e entries ih =>
    rw [lookupName, if_neg, ih fun e he => h e (List.mem_cons_of_mem _ he)]
    rintro rfl
    exact String.lt_irrefl _ (h e (List.mem_cons_self ..))

/-- Ascending entries are determined by their lookups. -/
theorem eq_of_lookupName_eq {es fs : List (String × α)} (he : es.Pairwise (·.1 < ·.1))
    (hf : fs.Pairwise (·.1 < ·.1)) (h : ∀ x, lookupName x es = lookupName x fs) : es = fs := by
  induction es generalizing fs with
  | nil =>
    cases fs with
    | nil => rfl
    | cons f fs => simpa [lookupName] using h f.1
  | cons e es ih =>
    cases fs with
    | nil => simpa [lookupName] using h e.1
    | cons f fs =>
      obtain ⟨x, a⟩ := e
      obtain ⟨y, b⟩ := f
      obtain ⟨he, hes⟩ := List.pairwise_cons.1 he
      obtain ⟨hf, hfs⟩ := List.pairwise_cons.1 hf
      have hxy : x = y := by
        refine eq_of_not_lt (fun hlt => ?_) fun hlt => ?_
        · have hn : lookupName x ((y, b) :: fs) = none :=
            lookupName_eq_none fun e he => by
              rcases List.mem_cons.1 he with rfl | he
              · exact hlt
              · exact String.lt_trans hlt (hf e he)
          have hx := h x
          rw [hn, lookupName, if_pos rfl] at hx
          exact absurd hx nofun
        · have hn : lookupName y ((x, a) :: es) = none :=
            lookupName_eq_none fun e hm => by
              rcases List.mem_cons.1 hm with rfl | hm
              · exact hlt
              · exact String.lt_trans hlt (he e hm)
          have hy := h y
          rw [hn, lookupName, if_pos rfl] at hy
          exact absurd hy nofun
      subst hxy
      have hab : a = b := by simpa [lookupName] using h x
      subst hab
      rw [ih hes hfs fun z => ?_]
      have hz := h z
      simp only [lookupName] at hz
      split at hz
      · next hzx =>
        subst hzx
        rw [lookupName_eq_none he, lookupName_eq_none hf]
      · exact hz

structure NameMap (α : Type u) where
  toList : List (String × α)
  ascending : toList.Pairwise (·.1 < ·.1)

namespace NameMap

instance : EmptyCollection (NameMap α) := ⟨⟨[], .nil⟩⟩

instance : Inhabited (NameMap α) := ⟨∅⟩

def get? (m : NameMap α) (x : String) : Option α := lookupName x m.toList

def contains (m : NameMap α) (x : String) : Bool := (m.get? x).isSome

def insert (m : NameMap α) (x : String) (a : α) : NameMap α :=
  ⟨insertEntry x a m.toList, pairwise_insertEntry m.ascending⟩

/-- Later entries replace earlier ones of the same name. -/
def insertAll (m : NameMap α) (entries : List (String × α)) : NameMap α :=
  entries.foldl (fun m e => m.insert e.1 e.2) m

def ofList (entries : List (String × α)) : NameMap α := insertAll ∅ entries

def size (m : NameMap α) : Nat := m.toList.length

def keys (m : NameMap α) : List String := m.toList.map (·.1)

def values (m : NameMap α) : List α := m.toList.map (·.2)

def map (f : String → α → β) (m : NameMap α) : NameMap β :=
  ⟨m.toList.map fun e => (e.1, f e.1 e.2), by
    simpa [List.pairwise_map] using m.ascending⟩

@[simp] theorem get?_empty (x : String) : (∅ : NameMap α).get? x = none := rfl

theorem get?_insert (m : NameMap α) (x z : String) (a : α) :
    (m.insert x a).get? z = if z = x then some a else m.get? z :=
  lookupName_insertEntry x z a m.toList

@[simp] theorem get?_insert_self (m : NameMap α) (x : String) (a : α) :
    (m.insert x a).get? x = some a := by
  simp [get?_insert]

@[simp] theorem get?_map (f : String → α → β) (m : NameMap α) (x : String) :
    (m.map f).get? x = (m.get? x).map (f x) :=
  lookupName_map f x m.toList

@[simp] theorem size_map (f : String → α → β) (m : NameMap α) : (m.map f).size = m.size := by
  simp [size, map]

theorem map_eq_self {f : String → α → α} {m : NameMap α} (h : ∀ e ∈ m.toList, f e.1 e.2 = e.2) :
    m.map f = m := by
  obtain ⟨es, he⟩ := m
  have hmap : ∀ e ∈ es, (e.1, f e.1 e.2) = id e := fun e he => congrArg (Prod.mk e.1) (h e he)
  simp only [map, mk.injEq]
  exact (List.map_congr_left hmap).trans (List.map_id es)

@[ext] theorem ext {m n : NameMap α} (h : ∀ x, m.get? x = n.get? x) : m = n := by
  obtain ⟨es, he⟩ := m
  obtain ⟨fs, hf⟩ := n
  congr
  exact eq_of_lookupName_eq he hf h

end NameMap

end Sequitur
