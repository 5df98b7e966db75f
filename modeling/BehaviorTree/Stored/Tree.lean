import BehaviorTree.Baked.Tree
import BehaviorTree.Document.Basic
import BehaviorTree.Json.Decode
import BehaviorTree.Status

/-! # Stored trees

The stored forms of statuses, node kinds, records and trees: `toDocument` gives what is written,
`decoder` reads it back from JSON. A stored tree passes the checks of `BakedTree.ofNodes` when
it is read. -/

namespace BehaviorTree

open Json

namespace TreeError

/-- The wording of an error. -/
def message : TreeError → String
  | empty => "a tree buffer needs at least one node"
  | linkOutOfRange node link size =>
    "node " ++ toString node ++ " links to index " ++ toString link.toInt ++ ", but the buffer has "
      ++ toString size ++ " nodes"
  | sharedOrCyclic node => "node " ++ toString node ++ " is reached twice while walking the links"
  | rootHasSibling => "the root at index 0 must not have a sibling"
  | rootIsLinked source => "the root at index 0 is linked from node " ++ toString source
  | idOutOfRange id index size =>
    "node id " ++ Text.quoted id ++ " maps to index " ++ toString index
      ++ ", but the buffer has " ++ toString size ++ " nodes"

end TreeError

namespace Status

/-- The stored form of a status. -/
def toDocument (s : Status) : Document := .text s.name

/-- Reads a status. -/
def decoder : Decoder Status := Decoder.choice (all.map name) ofName?

end Status

namespace NodeKind

/-- The stored form of a kind. -/
def toDocument (k : NodeKind) : Document := .text k.name

/-- Reads a kind. -/
def decoder : Decoder NodeKind := Decoder.choice (all.map name) ofName?

end NodeKind

namespace BakedNode

/-- The stored form of a record. -/
def toDocument (n : BakedNode) : Document :=
  .record
    [ ("kind", n.kind.toDocument)
    , ("first_child", .int n.firstChild.toInt)
    , ("next_sibling", .int n.nextSibling.toInt)
    , ("params_i", .list (n.ints.toList.map fun i => .int i.toInt))
    , ("params_f", .list (n.floats.toList.map .float)) ]

/-- How a record is read. -/
def shape : Shape Decoder BakedNode :=
  { name := "NodeRecord"
    start := {}
    fields :=
      [ { name := "kind"
          store := fun v => do
            let kind ← NodeKind.decoder v
            pure ({ · with kind }) }
      , { name := "first_child"
          store := fun v => do
            let firstChild ← Decoder.int32 v
            pure ({ · with firstChild }) }
      , { name := "next_sibling"
          store := fun v => do
            let nextSibling ← Decoder.int32 v
            pure ({ · with nextSibling }) }
      , { name := "params_i"
          store := fun v => do
            let ints ← Decoder.vector 3 Decoder.int32 v
            pure ({ · with ints }) }
      , { name := "params_f"
          store := fun v => do
            let floats ← Decoder.vector 4 Decoder.float32 v
            pure ({ · with floats }) } ] }

/-- Reads a record. -/
def decoder : Decoder BakedNode := Decoder.record shape

end BakedNode

namespace IdEntry

/-- The stored form of an id entry. -/
def toDocument (e : IdEntry) : Document := .record [("id", .text e.id), ("index", .int e.index)]

/-- How an id entry is read. -/
def shape : Shape Decoder IdEntry :=
  { name := "NodeIndexEntry"
    start := ⟨"", 0⟩
    fields :=
      [ { name := "id"
          store := fun v => do
            let id ← Decoder.text v
            pure ({ · with id }) }
      , { name := "index"
          store := fun v => do
            let index ← Decoder.index v
            pure ({ · with index }) } ] }

/-- Reads an id entry. -/
def decoder : Decoder IdEntry := Decoder.record shape

end IdEntry

namespace BakedTree

/-- The stored form of a tree. -/
def toDocument (t : BakedTree) : Document :=
  .record
    [ ("nodes", .list (t.nodes.toList.map (·.toDocument)))
    , ("id_to_index", .list (t.ids.toList.map (·.toDocument))) ]

/-- How the parts of a tree are read, before they are checked. -/
def shape : Shape Decoder BakedTree :=
  { name := "RawTreeBuffer"
    start := ⟨#[], #[]⟩
    fields :=
      [ { name := "nodes"
          store := fun v => do
            let nodes ← Decoder.array BakedNode.decoder v
            pure ({ · with nodes }) }
      , { name := "id_to_index"
          optional := true
          store := fun v => do
            let ids ← Decoder.array IdEntry.decoder v
            pure ({ · with ids }) } ] }

/-- Reads a tree and checks it. -/
def decoder : Decoder BakedTree := fun v => do
  let raw ← Decoder.record shape v
  match ofNodes raw.nodes raw.ids with
  | .ok tree => pure tree
  | .error e => .error (.data e.message)

end BakedTree

end BehaviorTree
