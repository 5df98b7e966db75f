import BehaviorTree.Key

/-! # Tables

A table is a list of entries under keys, oldest first. Setting a key that is present keeps its
place, a new key goes to the end, and removal closes the gap. Reading an absent key is the
caller's zero. -/

namespace BehaviorTree

/-- A value under a key. -/
structure Entry (α : Type) where
  key : Key
  value : α
deriving DecidableEq

/-- A keyed store of one type of values, in insertion order. -/
structure Table (α : Type) where
  entries : List (Entry α) := []
deriving DecidableEq

namespace Table

variable {α : Type}

/-- The table without entries. -/
def empty : Table α := ⟨[]⟩

instance : Inhabited (Table α) := ⟨empty⟩

/-- The value under `key`. -/
def find? (t : Table α) (key : Key) : Option α :=
  (t.entries.find? (·.key = key)).map (·.value)

/-- The value under `key`, or `zero` where there is none. -/
def getD (t : Table α) (key : Key) (zero : α) : α := (t.find? key).getD zero

/-- Writes into the first entry under `key`, or adds one at the end. -/
def put (key : Key) (value : α) : List (Entry α) → List (Entry α)
  | [] => [⟨key, value⟩]
  | e :: rest => if e.key = key then ⟨key, value⟩ :: rest else e :: put key value rest

/-- The table with `value` under `key`. -/
def set (t : Table α) (key : Key) (value : α) : Table α := ⟨put key value t.entries⟩

/-- Whether there is an entry under `key`. -/
def contains (t : Table α) (key : Key) : Bool := t.entries.any (·.key = key)

/-- The table without the first entry under `key`. -/
def erase (t : Table α) (key : Key) : Table α := ⟨t.entries.eraseP (·.key = key)⟩

/-- How many entries there are. -/
def size (t : Table α) : Nat := t.entries.length

/-- The keys in order. -/
def keys (t : Table α) : List Key := t.entries.map (·.key)

@[simp] theorem find?_empty (key : Key) : (empty : Table α).find? key = none := rfl

theorem find?_set (t : Table α) (key other : Key) (value : α) :
    (t.set key value).find? other = if key = other then some value else t.find? other := by
  obtain ⟨entries⟩ := t
  induction entries with
  | nil => by_cases h : key = other <;> simp [find?, set, put, h]
  | cons e rest ih =>
    simp only [find?, set] at ih ⊢
    by_cases he : e.key = key
    · by_cases h : key = other <;> simp [put, he, h]
    · by_cases ho : e.key = other
      · subst ho
        simp [put, he, Ne.symm he]
      · simpa [put, he, ho] using ih

end Table

end BehaviorTree
