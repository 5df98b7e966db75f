import BehaviorTree.Baked.Tree

/-! # Forests

What makes an array of records a tree, said of the links as a whole: `IsForest nodes` holds when
the links make up a forest with index 0 as one of its roots and without siblings there. It is
what `BakedTree.checkNodes` checks by passes over the array. -/

namespace BehaviorTree

/-- The indices that the links of a node lead to. -/
def BakedNode.targets (n : BakedNode) : List Nat := n.links.filterMap linkTarget?

/-- Whether a link of the node at `i` leads to `j`. -/
def Leads (nodes : Array BakedNode) (i j : Nat) : Prop :=
  ∃ n, nodes[i]? = some n ∧ j ∈ n.targets

/-- The indices that links lead to, with repetitions. -/
def linkTargets (nodes : Array BakedNode) : List Nat := nodes.toList.flatMap (·.targets)

/-- Whether records make up a forest whose first root is at index 0. -/
structure IsForest (nodes : Array BakedNode) : Prop where
  nonempty : 0 < nodes.size
  inRange : ∀ n ∈ nodes, ∀ link ∈ n.links,
    link = noNode ∨ ∃ target < nodes.size, linkTarget? link = some target
  unshared : (linkTargets nodes).Nodup
  rootUnlinked : 0 ∉ linkTargets nodes
  rootAlone : ∀ n, nodes[0]? = some n → n.nextSibling = noNode
  acyclic : ∀ i, ¬ Relation.TransGen (Leads nodes) i i

/-- Whether records and ids make up a tree. -/
structure IsTree (nodes : Array BakedNode) (ids : Array IdEntry) : Prop where
  forest : IsForest nodes
  idsInRange : ∀ e ∈ ids, e.index < nodes.size

end BehaviorTree
