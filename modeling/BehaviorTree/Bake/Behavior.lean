import BehaviorTree.Bake.Adjacency
import BehaviorTree.Catalog.Basic
import BehaviorTree.Tick.Behavior
import Mathlib.Data.Prod.Lex

/-! # The behaviour of a graph

`Graph.interpret` evaluates an authored graph as it stands, without records in an array, links or a
machine. It reads off the graph

* the root: the first node that no edge leads to (`root?`);
* below a node those that its edges lead to, the first edge between two nodes counting, by their
  order, then by the port of the edge, and where both are equal by the place of the edge
  (`childrenOf`);
* what a node does, from its type and its parameters, by the catalog if the type is no control tag
  (`AuthoredNode.record`);
* the place of a node, which it shows to actions and under which repeaters count: the root is in
  front, and the others follow as authored (`rootFirst`).

Baking is to keep what this gives. Nothing of baking is used here. -/

namespace BehaviorTree

/-! ## What a node does -/

/-- The record of an action: the slots that its definition fills. An action that the catalog does
not know has nothing in its slots. -/
def Catalog.actionRecord (catalog : Catalog) (name : String) (params : Params) : BakedNode :=
  match catalog.definitions[name]? with
  | none => { kind := .action }
  | some definition =>
    let unfilled : Slots := ⟨.action, #v[Key.ofName definition.name, 0, 0], #v[0, 0, 0, 0]⟩
    let slots :=
      match definition.mapper with
      | none => unfilled
      | some mapper => mapper params unfilled
    { kind := slots.kind, ints := slots.ints, floats := slots.floats }

/-- The record that the type and the parameters of a node give it, without links. -/
def AuthoredNode.record (catalog : Catalog) (node : AuthoredNode) : BakedNode :=
  match node.type with
  | "Selector" => { kind := .selector }
  | "Sequence" => { kind := .sequence }
  | "Parallel" => { kind := .parallel }
  | "Invert" => { kind := .invert }
  | "Succeeder" => { kind := .succeeder }
  | "Repeater" =>
    let count := ((node.params.get? "count").bind Literal.int?).getD (-1)
    { kind := .repeater, ints := #v[count, 0, 0] }
  | "Interrupt" =>
    let key := Key.ofName ((node.params.get? "key").getD "")
    { kind := .interrupt, ints := #v[key, 0, 0] }
  | "Action" => catalog.actionRecord ((node.params.get? "task").getD "") node.params
  | name => catalog.actionRecord name node.params

namespace Graph

variable (g : Graph)

/-! ## Children -/

/-- The position of the node with an id. -/
def position? (id : String) : Option (Fin g.nodes.size) :=
  (List.finRange g.nodes.size).find? fun p => (g.node p).id = id

/-- The link that an edge makes from a node, if it starts there and its end exists. -/
def linkOf? (p : Fin g.nodes.size) (e : AuthoredEdge) : Option (Link g.nodes.size) :=
  if e.fromId = (g.node p).id then (g.position? e.toId).map (⟨·, e.fromPort⟩) else none

/-- The links of a node in edge order, each child once. -/
def linksOf (p : Fin g.nodes.size) : List (Link g.nodes.size) :=
  (g.edges.toList.filterMap (g.linkOf? p)).eraseDupsBy fun a b => a.child = b.child

/-- What the children of a node are sorted by: their order, then the port of the edge, both as
signed numbers. -/
def linkRank (link : Link g.nodes.size) : ℤ ×ₗ ℤ :=
  toLex ((g.node link.child).order.toInt, link.port.toInt)

/-- The children of a node in the order in which they are evaluated; the sort is stable. -/
def childrenOf (p : Fin g.nodes.size) : List (Fin g.nodes.size) :=
  ((g.linksOf p).mergeSort fun a b => g.linkRank a ≤ g.linkRank b).map (·.child)

/-- The first node that no edge leads to. -/
def root? : Option (Fin g.nodes.size) :=
  (List.finRange g.nodes.size).find? fun p =>
    (List.finRange g.nodes.size).all fun q => !(g.childrenOf q).contains p

/-! ## Interpretation -/

/-- The nodes by their places: the root, then the others as authored. -/
def rootFirst (root : Fin g.nodes.size) : List (Fin g.nodes.size) :=
  root :: (List.finRange g.nodes.size).erase root

/-- The behaviour below a node, if it is no deeper than `depth`. -/
def behaviorWithin? (catalog : Catalog) (root : Fin g.nodes.size) :
    Nat → Fin g.nodes.size → Option Behavior
  | 0, _ => none
  | depth + 1, p => do
    let children ← (g.childrenOf p).mapM (behaviorWithin? catalog root depth)
    some (.node ((g.rootFirst root).idxOf p) ((g.node p).record catalog) children)

/-- The id of the node at a place. -/
def idAt? (root : Fin g.nodes.size) (place : Nat) : Option String :=
  (g.rootFirst root)[place]?.map fun p => (g.node p).id

/-- The observer that records the nodes that settle by their ids. -/
def recordIds (root : Fin g.nodes.size) : Machine.Observer (List (Option String × Status)) :=
  fun place status trace => trace ++ [(g.idAt? root place, status)]

/-- Evaluates the behaviour below the root once, and records the nodes that settle by their ids; no
path of a forest is longer than there are nodes. -/
def interpret {ε : Type} (catalog : Catalog) (actions : ActionTable ε) (deltaTime : Float32)
    (world : World ε) : Option (Status × World ε × List (Option String × Status)) := do
  let root ← g.root?
  let b ← g.behaviorWithin? catalog root g.nodes.size root
  some (b.evaluate actions deltaTime (g.recordIds root) (world, []))

end Graph

end BehaviorTree
