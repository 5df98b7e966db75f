import Mathlib
import BehaviorTree.Memory.Blackboard

/-!
# What memory holds under a key

`Table.under` lists the values under a key, oldest first. Reading looks at the first of them,
setting replaces it, removing drops it (`find?_eq_head?`, `under_set`, `under_erase`). A table that
was filled by setting holds one value under a key at most (`Table.Single`); one that was read from a
text may hold more, and then removing a key uncovers the next value. The entries under other keys
are not touched, nor is their order (`others_set`, `others_erase`): a blackboard stays the same but
for one key (`Blackboard.SameBut`).
-/

namespace BehaviorTree

namespace Table

variable {α : Type} (t : Table α) (key other : Key)

/-- The values under a key, oldest first. -/
def under : List α := (t.entries.filter (·.key = key)).map (·.value)

/-- There is one value at most under the key. -/
def Single : Prop := (t.under key).length ≤ 1

theorem find?_eq_head? : t.find? key = (t.under key).head? := by
  simp [find?, under, List.head?_map, List.head?_filter]

theorem mem_keys_iff : key ∈ t.keys ↔ t.find? key ≠ none := by
  simp [find?, keys]

/-- There are as many values under a key as it stands in the table. -/
theorem length_under : (t.under key).length = t.keys.count key := by
  rw [under, keys, List.length_map, ← List.countP_eq_length_filter, List.count, List.countP_map]
  rfl

theorem under_set (value : α) : (t.set key value).under other =
    if key = other then value :: (t.under key).tail else t.under other := by
  obtain ⟨entries⟩ := t
  simp only [set, under]
  induction entries with
  | nil => by_cases h : key = other <;> simp [put, h]
  | cons e rest ih =>
    by_cases he : e.key = key
    · by_cases h : key = other <;> simp [put, he, h]
    · rw [put, if_neg he]
      by_cases ho : e.key = other
      · have hne : key ≠ other := fun h => he (ho.trans h.symm)
        simpa [ho, hne] using ih
      · simpa [ho, he] using ih

theorem under_erase : (t.erase key).under other =
    if key = other then (t.under key).tail else t.under other := by
  obtain ⟨entries⟩ := t
  simp only [erase, under]
  induction entries with
  | nil => simp
  | cons e rest ih =>
    by_cases he : e.key = key
    · rw [List.eraseP_cons_of_pos (by simpa using he)]
      by_cases h : key = other
      · simp [he, h]
      · simp [he, h]
    · rw [List.eraseP_cons_of_neg (by simpa using he)]
      by_cases ho : e.key = other
      · have hne : key ≠ other := fun h => he (ho.trans h.symm)
        simpa [ho, hne] using ih
      · simpa [ho, he] using ih

theorem find?_erase_of_ne (h : key ≠ other) : (t.erase key).find? other = t.find? other := by
  rw [find?_eq_head?, find?_eq_head?, under_erase, if_neg h]

theorem under_eq_nil_iff : t.under key = [] ↔ t.find? key = none := by
  rw [find?_eq_head?, List.head?_eq_none_iff]

/-- The entries under the other keys, in order. -/
def others : List (Entry α) := t.entries.filter (·.key ≠ key)

theorem others_set (value : α) : (t.set key value).others key = t.others key := by
  obtain ⟨entries⟩ := t
  simp only [set, others]
  induction entries with
  | nil => simp [put]
  | cons e rest ih =>
    by_cases he : e.key = key
    · simp [put, he]
    · rw [put, if_neg he, List.filter_cons, List.filter_cons, ih]

theorem others_erase : (t.erase key).others key = t.others key := by
  obtain ⟨entries⟩ := t
  simp only [erase, others]
  induction entries with
  | nil => rfl
  | cons e rest ih =>
    by_cases he : e.key = key
    · simp [he]
    · rw [List.eraseP_cons_of_neg (by simpa using he), List.filter_cons, List.filter_cons, ih]

variable {key other} in
theorem find?_eq_of_others {t t' : Table α} (h : t'.others key = t.others key) (hne : key ≠ other) :
    t'.find? other = t.find? other := by
  have hfind : ∀ t : Table α,
      t.find? other = ((t.others key).find? (·.key = other)).map (·.value) := by
    intro t
    rw [others, List.find?_filter, find?]
    congr 2
    funext e
    by_cases he : e.key = other <;> simp [he, Ne.symm hne]
  rw [hfind, hfind t, h]

theorem keys_erase : (t.erase key).keys = t.keys.erase key := by
  obtain ⟨entries⟩ := t
  simp only [erase, keys]
  induction entries with
  | nil => rfl
  | cons e rest ih =>
    by_cases he : e.key = key
    · simp [he]
    · rw [List.eraseP_cons_of_neg (by simpa using he), List.map_cons, ih, List.map_cons,
        List.erase_cons_tail (by simpa using he)]

theorem map_key_put (value : α) (entries : List (Entry α)) :
    (put key value entries).map (·.key) =
      if key ∈ entries.map (·.key) then entries.map (·.key) else entries.map (·.key) ++ [key] := by
  induction entries with
  | nil => rfl
  | cons e rest ih =>
    by_cases he : e.key = key
    · simp [put, he]
    · rw [put, if_neg he, List.map_cons, ih]
      by_cases present : key ∈ rest.map (·.key)
      · have behind : key ∈ (e :: rest).map (·.key) := List.mem_cons_of_mem _ present
        rw [if_pos present, if_pos behind, List.map_cons]
      · have absent : key ∉ (e :: rest).map (·.key) := by
          rw [List.map_cons, List.mem_cons, not_or]
          exact ⟨Ne.symm he, present⟩
        rw [if_neg present, if_neg absent, List.map_cons, List.cons_append]

theorem keys_set (value : α) :
    (t.set key value).keys = if key ∈ t.keys then t.keys else t.keys ++ [key] :=
  map_key_put key value t.entries

theorem find?_erase_self_iff : (t.erase key).find? key = none ↔ t.keys.count key ≤ 1 := by
  have absent : (t.erase key).find? key = none ↔ key ∉ (t.erase key).keys := by
    rw [mem_keys_iff, not_not]
  rw [absent, keys_erase, ← List.count_eq_zero, List.count_erase_self]
  omega

theorem count_keys_set (value : α) :
    (t.set key value).keys.count key = max 1 (t.keys.count key) := by
  rw [keys_set]
  split
  · next present =>
    have := List.one_le_count_iff.2 present
    omega
  · next absent =>
    rw [List.count_append, List.count_eq_zero.2 absent, List.count_singleton_self]
    rfl

end Table

namespace Blackboard

variable (b : Blackboard) (key other : Key)

theorem get_eq : b.get key = (b.find? key).getD 0 := rfl

theorem get_eq_head : b.get key = (b.values.under key).head?.getD 0 := by
  rw [get_eq, find?, Table.find?_eq_head?]

theorem find?_set (value : Float32) :
    (b.set key value).find? other = if key = other then some value else b.find? other :=
  Table.find?_set ..

theorem get_set_self (value : Float32) : (b.set key value).get key = value := by
  rw [get_eq, find?_set, if_pos rfl]
  rfl

theorem find?_erase_of_ne {key other : Key} (h : key ≠ other) :
    (b.erase key).find? other = b.find? other := Table.find?_erase_of_ne _ _ _ h

@[simp] theorem find?_clear : b.clear.find? key = none := rfl

/-- The blackboards are the same but for numbers under one key. -/
structure SameBut (key : Key) (b b' : Blackboard) : Prop where
  others : b'.values.others key = b.values.others key
  bools : b'.bools = b.bools
  ints : b'.ints = b.ints
  vectors : b'.vectors = b.vectors
  entities : b'.entities = b.entities

theorem sameBut_refl : SameBut key b b := ⟨rfl, rfl, rfl, rfl, rfl⟩

theorem sameBut_set (value : Float32) : SameBut key b (b.set key value) :=
  ⟨Table.others_set .., rfl, rfl, rfl, rfl⟩

theorem sameBut_erase : SameBut key b (b.erase key) := ⟨Table.others_erase .., rfl, rfl, rfl, rfl⟩

variable {key other} in
theorem SameBut.find?_eq {b b' : Blackboard} (h : SameBut key b b') (hne : key ≠ other) :
    b'.find? other = b.find? other := Table.find?_eq_of_others h.others hne

end Blackboard

end BehaviorTree
