import BehaviorTree.Authored.Graph
import BehaviorTree.Bake.Error
import Std.Data.HashMap

/-! # Resolved edges

`Graph.positions` gives every node id its position and refuses an id that two nodes share.
`Graph.adjacency` resolves the edges to positions: for each node the links to its children, in
edge order. An edge with an unknown end, or between two nodes that are linked already, is left
out with a warning. -/

namespace BehaviorTree

/-- A resolved edge, as its parent holds it. -/
structure Link (n : Nat) where
  child : Fin n
  port : Int32
deriving DecidableEq

/-- For each of `n` nodes the links to its children. -/
abbrev Adjacency (n : Nat) := Vector (List (Link n)) n

/-- Whether a link leads from one node to another. -/
def Adjacency.Linked {n : Nat} (adjacency : Adjacency n) (parent child : Fin n) : Prop :=
  ∃ link ∈ adjacency.get parent, link.child = child

namespace Graph

/-- Whether an edge leads from one node to another. -/
def Joins (g : Graph) (parent child : Fin g.nodes.size) : Prop :=
  ∃ e ∈ g.edges, e.fromId = (g.node parent).id ∧ e.toId = (g.node child).id

/-- The positions of node ids. -/
abbrev Positions (g : Graph) := Std.HashMap String (Fin g.nodes.size)

/-- Adds the node at `position`, whose id must be new. -/
def addPosition (g : Graph) (positions : g.Positions) (position : Fin g.nodes.size) :
    Except BakeError g.Positions :=
  let id := (g.node position).id
  if positions.contains id then .error (.duplicateNodeId id)
  else .ok (positions.insert id position)

/-- The position of every node id. -/
def positions (g : Graph) : Except BakeError g.Positions :=
  (List.finRange g.nodes.size).foldlM g.addPosition ∅

/-- Adds one edge to the resolved ones, or a warning. -/
def addLink (g : Graph) (positions : g.Positions)
    (resolved : Adjacency g.nodes.size × Array BakeWarning) (edge : AuthoredEdge) :
    Adjacency g.nodes.size × Array BakeWarning :=
  let (adjacency, warnings) := resolved
  match positions[edge.fromId]?, positions[edge.toId]? with
  | some parent, some child =>
    let links := adjacency.get parent
    if links.any (·.child = child) then
      (adjacency, warnings.push (.duplicateEdge edge.fromId edge.toId))
    else (adjacency.setIfInBounds parent (links ++ [⟨child, edge.fromPort⟩]), warnings)
  | _, _ => (adjacency, warnings.push (.danglingEdge edge.fromId edge.toId))

/-- The resolved edges and the warnings about the others, in edge order. -/
def adjacency (g : Graph) (positions : g.Positions) :
    Adjacency g.nodes.size × Array BakeWarning :=
  g.edges.foldl (g.addLink positions) (Vector.replicate _ [], #[])

end Graph

end BehaviorTree
