import BehaviorTree.Document.Basic
import BehaviorTree.Json.Decode
import BehaviorTree.Memory.Blackboard

/-! # Stored blackboards

The stored form of a blackboard lists the entries of each of its five tables in order. -/

namespace BehaviorTree

open Json

namespace Vec3

/-- The stored form of a vector. -/
def toDocument (v : Vec3) : Document := .list (v.toList.map .float)

/-- Reads a vector. -/
def decoder : Decoder Vec3 := fun v => do
  let parts ← Decoder.vector 3 Decoder.float32 v
  pure ⟨parts.getD 0 0, parts.getD 1 0, parts.getD 2 0⟩

end Vec3

namespace Entity

/-- The stored form of a handle. -/
def toDocument (e : Entity) : Document := .int e.id.toNat

/-- Reads a handle. -/
def decoder : Decoder Entity := fun v => (Decoder.uint64 v).map Entity.mk

end Entity

namespace Entry

variable {α : Type}

/-- The stored form of an entry. -/
def toDocument (value : α → Document) (e : Entry α) : Document :=
  .record [("key_hash", .int e.key.toInt), ("value", value e.value)]

/-- How an entry is read. -/
def shape (zero : α) (value : Decoder α) : Shape Decoder (Entry α) :=
  { name := "Entry"
    start := ⟨0, zero⟩
    fields :=
      [ { name := "key_hash"
          store := fun v => do
            let key ← Decoder.int32 v
            pure ({ · with key }) }
      , { name := "value"
          store := fun v => do
            let value ← value v
            pure ({ · with value }) } ] }

end Entry

namespace Table

variable {α : Type}

/-- The stored form of a table. -/
def toDocument (value : α → Document) (t : Table α) : Document :=
  .record [("entries", .list (t.entries.map (Entry.toDocument value)))]

/-- How a table is read. -/
def shape (zero : α) (value : Decoder α) : Shape Decoder (Table α) :=
  { name := "Table"
    start := .empty
    fields :=
      [ { name := "entries"
          store := fun v => do
            let entries ← Decoder.array (Decoder.record (Entry.shape zero value)) v
            pure fun _ => ⟨entries.toList⟩ } ] }

/-- Reads a table. -/
def decoder (zero : α) (value : Decoder α) : Decoder (Table α) :=
  Decoder.record (shape zero value)

end Table

namespace Blackboard

/-- The stored form of a blackboard. -/
def toDocument (b : Blackboard) : Document :=
  .record
    [ ("values", b.values.toDocument .float)
    , ("bools", b.bools.toDocument .bool)
    , ("ints", b.ints.toDocument fun i => .int i.toInt)
    , ("vectors", b.vectors.toDocument Vec3.toDocument)
    , ("entities", b.entities.toDocument Entity.toDocument) ]

/-- How a blackboard is read. -/
def shape : Shape Decoder Blackboard :=
  { name := "Blackboard"
    start := .empty
    fields :=
      [ { name := "values"
          store := fun v => do
            let values ← Table.decoder 0 Decoder.float32 v
            pure ({ · with values }) }
      , { name := "bools"
          store := fun v => do
            let bools ← Table.decoder false Decoder.bool v
            pure ({ · with bools }) }
      , { name := "ints"
          store := fun v => do
            let ints ← Table.decoder 0 Decoder.int32 v
            pure ({ · with ints }) }
      , { name := "vectors"
          store := fun v => do
            let vectors ← Table.decoder .zero Vec3.decoder v
            pure ({ · with vectors }) }
      , { name := "entities"
          store := fun v => do
            let entities ← Table.decoder .null Entity.decoder v
            pure ({ · with entities }) } ] }

/-- Reads a blackboard. -/
def decoder : Decoder Blackboard := Decoder.record shape

end Blackboard

end BehaviorTree
