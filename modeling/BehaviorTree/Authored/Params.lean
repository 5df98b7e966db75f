import BehaviorTree.Authored.Literal

/-! # Parameters

The parameters of an authored node: texts under names, kept in the order of the names, each name
once. Two parameter sets with the same texts under the same names are equal. The `…D` readers
give a default where the name is absent or its text is no literal of the asked type. -/

namespace BehaviorTree

namespace Params

/-- Puts a text under a name into entries that are ordered by name. -/
def insertEntry (name text : String) : List (String × String) → List (String × String)
  | [] => [(name, text)]
  | (other, old) :: rest =>
    if name < other then (name, text) :: (other, old) :: rest
    else if name = other then (name, text) :: rest
    else (other, old) :: insertEntry name text rest

theorem mem_insertEntry {name text : String} {entries : List (String × String)}
    {p : String × String} (h : p ∈ insertEntry name text entries) :
    p = (name, text) ∨ p ∈ entries := by
  induction entries with
  | nil => simpa [insertEntry] using h
  | cons e rest ih =>
    obtain ⟨other, old⟩ := e
    rw [insertEntry] at h
    split at h
    · simpa using h
    · split at h
      · rcases List.mem_cons.1 h with h | h
        · exact .inl h
        · exact .inr (List.mem_cons_of_mem _ h)
      · rcases List.mem_cons.1 h with h | h
        · exact .inr (h ▸ List.mem_cons_self)
        · exact (ih h).imp_right (List.mem_cons_of_mem _)

theorem insertEntry_sorted (name text : String) {entries : List (String × String)}
    (h : entries.Pairwise (·.1 < ·.1)) :
    (insertEntry name text entries).Pairwise (·.1 < ·.1) := by
  induction entries with
  | nil => simp [insertEntry]
  | cons e rest ih =>
    obtain ⟨other, old⟩ := e
    obtain ⟨first, later⟩ := List.pairwise_cons.1 h
    rw [insertEntry]
    split
    · next lt =>
      refine List.pairwise_cons.2 ⟨fun p hp => ?_, h⟩
      rcases List.mem_cons.1 hp with rfl | hp
      · exact lt
      · exact String.lt_trans lt (first p hp)
    · next nlt =>
      split
      · next eq => exact List.pairwise_cons.2 ⟨fun p hp => eq ▸ first p hp, later⟩
      · next ne =>
        refine List.pairwise_cons.2 ⟨fun p hp => ?_, ih later⟩
        rcases mem_insertEntry hp with rfl | hp
        · exact Decidable.byContradiction fun nlt' =>
            ne (String.le_antisymm (String.not_lt.1 nlt') (String.not_lt.1 nlt))
        · exact first p hp

end Params

/-- Texts under names, in the order of the names. -/
structure Params where
  entries : List (String × String) := []
  sorted : entries.Pairwise (·.1 < ·.1) := by simp
deriving DecidableEq

namespace Params

/-- No parameters. -/
def empty : Params := {}

instance : Inhabited Params := ⟨empty⟩

/-- Puts a text under a name, in place of the one that was there. -/
def insert (p : Params) (name text : String) : Params :=
  ⟨insertEntry name text p.entries, insertEntry_sorted name text p.sorted⟩

/-- The parameters of a list of entries; of several texts under one name the last stays. -/
def ofList (entries : List (String × String)) : Params :=
  entries.foldl (fun p e => p.insert e.1 e.2) empty

/-- The text under a name. -/
def get? (p : Params) (name : String) : Option String := p.entries.lookup name

/-- The text under a name, or the default. -/
def textD (p : Params) (name default : String) : String := (p.get? name).getD default

/-- The number under a name, or the default. -/
def numberD (p : Params) (name : String) (default : Float32) : Float32 :=
  ((p.get? name).bind Literal.number?).getD default

/-- The integer under a name, or the default. -/
def intD (p : Params) (name : String) (default : Int32) : Int32 :=
  ((p.get? name).bind Literal.int?).getD default

/-- The truth value under a name, or the default. -/
def boolD (p : Params) (name : String) (default : Bool) : Bool :=
  ((p.get? name).bind Literal.bool?).getD default

/-- The vector under a name, or the default. -/
def vec3D (p : Params) (name : String) (default : Vec3) : Vec3 :=
  ((p.get? name).bind Literal.vec3?).getD default

/-- The key that the text under a name has, or that the default has. -/
def keyD (p : Params) (name default : String) : Key := Key.ofName (p.textD name default)

end Params

end BehaviorTree
