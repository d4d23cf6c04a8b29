import Sequitur.Name.Map

/-!
# Entries of name maps

The entries of a map are its lookups, and a map made of entries with different names finds each of
them.
-/

namespace Sequitur

universe u

variable {α : Type u}

theorem mem_of_lookupName {x : String} {a : α} {entries : List (String × α)}
    (h : lookupName x entries = some a) : (x, a) ∈ entries := by
  induction entries with
  | nil => exact absurd h nofun
  | cons e entries ih =>
    rw [lookupName] at h
    split at h
    · next hx =>
      cases h
      rw [hx]
      exact List.mem_cons_self ..
    · exact List.mem_cons_of_mem _ (ih h)

theorem lookupName_of_mem {x : String} {a : α} {entries : List (String × α)}
    (hn : (entries.map (·.1)).Nodup) (h : (x, a) ∈ entries) : lookupName x entries = some a := by
  induction entries with
  | nil => exact absurd h List.not_mem_nil
  | cons e entries ih =>
    rw [List.map_cons, List.nodup_cons] at hn
    rw [lookupName]
    rcases List.mem_cons.1 h with rfl | h
    · exact if_pos rfl
    · rw [if_neg, ih hn.2 h]
      rintro rfl
      exact hn.1 (List.mem_map.2 ⟨_, h, rfl⟩)

@[simp] theorem NameSet.contains_eq_false {x : String} {s : NameSet} :
    s.contains x = false ↔ x ∉ s := by
  rw [← Bool.not_eq_true, NameSet.contains_iff]

namespace NameMap

theorem nodup_names (m : NameMap α) : (m.toList.map (·.1)).Nodup := by
  refine List.Pairwise.imp (fun {x y} h => ?_) (List.pairwise_map.2 m.ascending)
  rintro rfl
  exact String.lt_irrefl _ h

theorem mem_toList {m : NameMap α} {x : String} {a : α} : (x, a) ∈ m.toList ↔ m.get? x = some a :=
  ⟨lookupName_of_mem m.nodup_names, mem_of_lookupName⟩

theorem get?_insertAll_of_not_mem {m : NameMap α} {x : String} {entries : List (String × α)}
    (h : x ∉ entries.map (·.1)) : (m.insertAll entries).get? x = m.get? x := by
  induction entries generalizing m with
  | nil => rfl
  | cons e entries ih =>
    rw [List.map_cons, List.mem_cons, not_or] at h
    rw [insertAll, List.foldl_cons, ← insertAll, ih h.2, get?_insert, if_neg h.1]

theorem get?_insertAll_of_mem {m : NameMap α} {x : String} {a : α} {entries : List (String × α)}
    (hn : (entries.map (·.1)).Nodup) (h : (x, a) ∈ entries) :
    (m.insertAll entries).get? x = some a := by
  induction entries generalizing m with
  | nil => exact absurd h List.not_mem_nil
  | cons e entries ih =>
    rw [List.map_cons, List.nodup_cons] at hn
    rw [insertAll, List.foldl_cons, ← insertAll]
    rcases List.mem_cons.1 h with rfl | h
    · rw [get?_insertAll_of_not_mem hn.1, get?_insert_self]
    · exact ih hn.2 h

theorem get?_ofList_of_mem {x : String} {a : α} {entries : List (String × α)}
    (hn : (entries.map (·.1)).Nodup) (h : (x, a) ∈ entries) : (ofList entries).get? x = some a :=
  get?_insertAll_of_mem hn h

theorem get?_ofList_of_not_mem {x : String} {entries : List (String × α)}
    (h : x ∉ entries.map (·.1)) : (ofList entries).get? x = none :=
  get?_insertAll_of_not_mem h

theorem mem_of_get?_insertAll {m : NameMap α} {x : String} {a : α} {entries : List (String × α)}
    (h : (m.insertAll entries).get? x = some a) : (x, a) ∈ entries ∨ m.get? x = some a := by
  induction entries generalizing m with
  | nil => exact .inr h
  | cons e entries ih =>
    rcases ih h with h | h
    · exact .inl (List.mem_cons_of_mem _ h)
    · rw [get?_insert] at h
      split at h
      · next hx =>
        cases h
        exact .inl (hx ▸ List.mem_cons_self ..)
      · exact .inr h

theorem mem_of_get?_ofList {x : String} {a : α} {entries : List (String × α)}
    (h : (ofList entries).get? x = some a) : (x, a) ∈ entries :=
  (mem_of_get?_insertAll h).resolve_right fun h => by cases h

theorem map_insert {β : Type v} (f : α → β) (m : NameMap α) (x : String) (a : α) :
    ((m.insert x a).map fun _ => f) = (m.map fun _ => f).insert x (f a) := by
  ext z
  rw [get?_map, get?_insert, get?_insert, get?_map]
  split <;> rfl

theorem map_ofList {β : Type v} (f : α → β) (entries : List (String × α)) :
    ((ofList entries).map fun _ => f) = ofList (entries.map fun e => (e.1, f e.2)) := by
  suffices ∀ m : NameMap α, ((m.insertAll entries).map fun _ => f) =
      (m.map fun _ => f).insertAll (entries.map fun e => (e.1, f e.2)) from this ∅
  induction entries with
  | nil => exact fun m => rfl
  | cons e entries ih =>
    intro m
    rw [insertAll, List.foldl_cons, ← insertAll, ih, map_insert]
    rfl

end NameMap

end Sequitur
