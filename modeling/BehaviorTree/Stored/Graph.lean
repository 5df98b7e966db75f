import BehaviorTree.Authored.Graph
import BehaviorTree.Document.Basic
import BehaviorTree.Document.Shape

/-! # Stored graphs

The stored form of an authored graph, and the shapes by which every text format reads one. Tools
may write the names of some fields in their own ways. Names and descriptions that a node lacks are
left out of its stored form. -/

namespace BehaviorTree

/-! ## Writing -/

namespace Params

/-- The stored form of parameters. -/
def toDocument (p : Params) : Document := .record (p.entries.map fun (name, s) => (name, .text s))

end Params

namespace AuthoredNode

/-- The stored form of an optional text: a field, or none. -/
def optionalField (name : String) : Option String → List (String × Document)
  | some s => [(name, .text s)]
  | none => []

/-- The stored form of a node. -/
def toDocument (n : AuthoredNode) : Document :=
  .record
    ([ ("id", .text n.id)
     , ("type", .text n.type)
     , ("order", .int n.order.toInt)
     , ("params", n.params.toDocument) ]
      ++ optionalField "display_name" n.displayName
      ++ optionalField "description" n.description)

end AuthoredNode

namespace AuthoredEdge

/-- The stored form of an edge. -/
def toDocument (e : AuthoredEdge) : Document :=
  .record
    [ ("from_id", .text e.fromId)
    , ("from_port", .int e.fromPort.toInt)
    , ("to_id", .text e.toId)
    , ("to_port", .int e.toPort.toInt) ]

end AuthoredEdge

namespace Graph

/-- The stored form of a graph. -/
def toDocument (g : Graph) : Document :=
  .record
    [ ("nodes", .list (g.nodes.toList.map (·.toDocument)))
    , ("edges", .list (g.edges.toList.map (·.toDocument))) ]

end Graph

/-! ## Reading -/

variable {δ : Type → Type}

/-- How a node is read. -/
def AuthoredNode.shape (f : Format δ) : Shape δ AuthoredNode :=
  { name := "GraphNode"
    start := { id := "", type := "" }
    fields :=
      [ { name := "id"
          store := f.map (fun id n => { n with id }) f.text }
      , { name := "type"
          store := f.map (fun type n => { n with type }) f.text }
      , { name := "order"
          optional := true
          store := f.map (fun order n => { n with order }) f.int32 }
      , { name := "params"
          optional := true
          store := f.map (fun entries n => { n with params := .ofList entries }) f.texts }
      , { name := "display_name"
          aliases := ["displayName"]
          optional := true
          store := f.map (fun displayName n => { n with displayName }) (f.option f.text) }
      , { name := "description"
          optional := true
          store := f.map (fun description n => { n with description }) (f.option f.text) } ] }

/-- How an edge is read. -/
def AuthoredEdge.shape (f : Format δ) : Shape δ AuthoredEdge :=
  { name := "GraphEdge"
    start := { fromId := "", toId := "" }
    fields :=
      [ { name := "from_id"
          aliases := ["fromId", "outNodeId"]
          store := f.map (fun fromId e => { e with fromId }) f.text }
      , { name := "from_port"
          aliases := ["fromPort", "outPortIndex"]
          optional := true
          store := f.map (fun fromPort e => { e with fromPort }) f.int32 }
      , { name := "to_id"
          aliases := ["toId", "inNodeId"]
          store := f.map (fun toId e => { e with toId }) f.text }
      , { name := "to_port"
          aliases := ["toPort", "inPortIndex"]
          optional := true
          store := f.map (fun toPort e => { e with toPort }) f.int32 } ] }

/-- How a graph is read. -/
def Graph.shape (f : Format δ) : Shape δ Graph :=
  { name := "GraphDesc"
    start := {}
    fields :=
      [ { name := "nodes"
          optional := true
          store := f.map (fun nodes g => { g with nodes })
            (f.array (f.record (AuthoredNode.shape f))) }
      , { name := "edges"
          optional := true
          store := f.map (fun edges g => { g with edges })
            (f.array (f.record (AuthoredEdge.shape f))) } ] }

/-- Reads a graph in a format. -/
def Graph.decoder (f : Format δ) : δ Graph := f.record (Graph.shape f)

end BehaviorTree
