import BehaviorTree.Authored.Params

/-! # Authored graphs

A behaviour tree as a node editor stores it: a list of nodes and a list of edges from parents to
children, by node id. Nothing here is checked; that is the work of baking. -/

namespace BehaviorTree

/-- An authored node. Its type is a control tag or the name of an action kind; among siblings
it is placed by `order`. -/
structure AuthoredNode where
  id : String
  type : String
  order : Int32 := 0
  params : Params := .empty
  displayName : Option String := none
  description : Option String := none
deriving DecidableEq

namespace AuthoredNode

/-- The name that tools show: the display name, or else the type. -/
def label (n : AuthoredNode) : String := n.displayName.getD n.type

/-- The node placed at another order. -/
def withOrder (n : AuthoredNode) (order : Int32) : AuthoredNode := { n with order }

/-- The node with a parameter more. -/
def withParam (n : AuthoredNode) (name text : String) : AuthoredNode :=
  { n with params := n.params.insert name text }

end AuthoredNode

/-- An edge from a parent to a child. Its source port decides between children of one order. -/
structure AuthoredEdge where
  fromId : String
  fromPort : Int32 := 0
  toId : String
  toPort : Int32 := 0
deriving DecidableEq

/-- An authored behaviour tree. -/
structure Graph where
  nodes : Array AuthoredNode := #[]
  edges : Array AuthoredEdge := #[]
deriving DecidableEq

namespace Graph

instance : Inhabited Graph := ⟨{}⟩

/-- The graph with a node more. -/
def addNode (g : Graph) (node : AuthoredNode) : Graph := { g with nodes := g.nodes.push node }

/-- The graph with an edge more, on port 0. -/
def addEdge (g : Graph) (fromId toId : String) : Graph :=
  { g with edges := g.edges.push { fromId, toId } }

/-- The node at a position. -/
def node (g : Graph) (position : Fin g.nodes.size) : AuthoredNode := g.nodes[position]

/-- The first node with an id. -/
def find? (g : Graph) (id : String) : Option AuthoredNode := g.nodes.find? (·.id = id)

end Graph

end BehaviorTree
