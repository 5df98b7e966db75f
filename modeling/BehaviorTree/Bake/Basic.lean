import BehaviorTree.Bake.Cycle
import BehaviorTree.Baked.Tree
import BehaviorTree.Catalog.Basic

/-! # Baking

`bake` compiles an authored graph into a baked tree. In this order it

* refuses node ids that are not unique, a cycle of edges, and a node with two parents;
* places the first node without a parent at index 0 and the others behind it in authored order;
* resolves the kind and the slots of every node, by its control tag or through the catalog;
* links the children of each node by their order, then by the port of their edge, then by the
  place of the edge in the graph.

Edges with a missing end, repeated edges and unknown actions only give warnings: first those
about edges, in edge order, then those about nodes, in baked order. -/

namespace BehaviorTree

/-- A baked tree with what was skipped on the way. -/
structure BakeResult where
  tree : BakedTree
  warnings : Array BakeWarning

namespace Bake

/-- The type tag of an action whose kind is named by a parameter. -/
def genericActionTag : String := "Action"

/-- The parameter that names the kind of a generic action. -/
def genericActionParam : String := "task"

/-! ## Parents -/

/-- The parent of every node that has one. -/
abbrev Parents (n : Nat) := Vector (Option (Fin n)) n

/-- Records `parent` as the parent of a link's child, which must have none. -/
def addParent (g : Graph) (parents : Parents g.nodes.size) (parent : Fin g.nodes.size)
    (link : Link g.nodes.size) : Except BakeError (Parents g.nodes.size) :=
  match parents.get link.child with
  | some first =>
    .error (.multipleParents (g.node link.child).id (g.node first).id (g.node parent).id)
  | none => .ok (parents.setIfInBounds link.child (some parent))

/-- The parent of every node; a node with two is refused. -/
def findParents (g : Graph) (adjacency : Adjacency g.nodes.size) :
    Except BakeError (Parents g.nodes.size) :=
  (List.finRange g.nodes.size).foldlM
    (fun parents parent =>
      (adjacency.get parent).foldlM (fun parents link => addParent g parents parent link) parents)
    (Vector.replicate _ none)

/-! ## Order of the nodes -/

/-- The first position without a parent; the first of all when every node has one. -/
def rootPosition {n : Nat} (parents : Parents n) (h : 0 < n) : Fin n :=
  ((List.finRange n).find? (parents.get · = none)).getD ⟨0, h⟩

/-- The positions in baked order: the root, then the others as authored. -/
def bakedOrder {n : Nat} (root : Fin n) : List (Fin n) :=
  root :: (List.finRange n).filter (· ≠ root)

/-- The baked index of a position. -/
def bakedIndex {n : Nat} (root position : Fin n) : Nat :=
  if position = root then 0
  else if position < root then position + 1
  else position

/-! ## Records -/

/-- The name of the action kind of a node that is no control node. -/
def actionName (node : AuthoredNode) : String :=
  if node.type = genericActionTag then node.params.textD genericActionParam "" else node.type

/-- The record of a node without its links, and a warning if the catalog does not know its
action kind; such a record is an action under key 0. -/
def resolveNode (catalog : Catalog) (node : AuthoredNode) : BakedNode × Option BakeWarning :=
  match NodeKind.ofControlTag? node.type with
  | some .repeater => (.repeater (node.params.intD "count" (-1)), none)
  | some .interrupt => (.interrupt (node.params.keyD "key" ""), none)
  | some kind => (.ofKind kind, none)
  | none =>
    match catalog.get? (actionName node) with
    | some definition => ((definition.map node.params).toRecord, none)
    | none => (.ofKind .action, some (.unknownAction node.id (actionName node)))

/-! ## Links -/

/-- Whether a link comes no later than another among the children of one node. -/
def linkLe (g : Graph) (a b : Link g.nodes.size) : Bool :=
  let orderA := (g.node a.child).order
  let orderB := (g.node b.child).order
  orderA < orderB || (orderA = orderB && a.port ≤ b.port)

/-- The children of a node in sibling order; links of equal rank stay in edge order. -/
def sortedChildren (g : Graph) (links : List (Link g.nodes.size)) : List (Fin g.nodes.size) :=
  (links.mergeSort (linkLe g)).map (·.child)

/-- Chains nodes as siblings. -/
def linkSiblings (nodes : Array BakedNode) : List Nat → Array BakedNode
  | a :: b :: rest =>
    linkSiblings (nodes.modify a ({ · with nextSibling := Int32.ofNat b })) (b :: rest)
  | _ => nodes

/-- Links a node to its children. -/
def linkChildren (nodes : Array BakedNode) (parent : Nat) : List Nat → Array BakedNode
  | [] => nodes
  | first :: rest =>
    linkSiblings (nodes.modify parent ({ · with firstChild := Int32.ofNat first }))
      (first :: rest)

/-- Links every node to its children, in authored order of the parents. -/
def linkAll (g : Graph) (adjacency : Adjacency g.nodes.size) (root : Fin g.nodes.size)
    (nodes : Array BakedNode) : Array BakedNode :=
  (List.finRange g.nodes.size).foldl
    (fun nodes parent =>
      linkChildren nodes (bakedIndex root parent)
        ((sortedChildren g (adjacency.get parent)).map (bakedIndex root)))
    nodes

/-- The tree of a graph whose edges are resolved and whose root is known. -/
def compile (g : Graph) (catalog : Catalog) (adjacency : Adjacency g.nodes.size)
    (root : Fin g.nodes.size) (edgeWarnings : Array BakeWarning) : BakeResult :=
  let order := (bakedOrder root).toArray
  let resolved := order.map fun position => resolveNode catalog (g.node position)
  { tree :=
      { nodes := linkAll g adjacency root (resolved.map (·.1))
        ids := order.zipIdx.map fun (position, index) => ⟨(g.node position).id, index⟩ }
    warnings := edgeWarnings ++ resolved.filterMap (·.2) }

end Bake

/-- The tree of the empty graph: one selector without children. -/
def BakedTree.childless : BakedTree := ⟨#[{}], #[]⟩

/-- Compiles a graph into a baked tree. -/
def bake (g : Graph) (catalog : Catalog) : Except BakeError BakeResult := do
  let positions ← g.positions
  let (adjacency, warnings) := g.adjacency positions
  if h : 0 < g.nodes.size then
    match adjacency.findCycle? with
    | some path =>
      .error (.cycle (path.map fun p : Fin _ => ⟨(g.node p).id, (g.node p).type, p.1⟩))
    | none => do
      let parents ← Bake.findParents g adjacency
      .ok (Bake.compile g catalog adjacency (Bake.rootPosition parents h) warnings)
  else .ok ⟨.childless, warnings⟩

end BehaviorTree
