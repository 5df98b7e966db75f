import BehaviorTree.Baked.Node

/-! # Baked trees

A baked tree is an array of records whose first-child and next-sibling links form a forest rooted
at index 0, with the authored ids of the nodes beside it. `BakedTree.ofNodes` builds one from
records of unknown origin: it refuses an array that is empty, a link out of range, an index that
two links lead to, a link to the root, a sibling of the root, a loop of links, and an id of a
node that does not exist, in that order of passes. -/

namespace BehaviorTree

/-- The index that the node with an authored id was baked at. -/
structure IdEntry where
  id : String
  index : Nat
deriving DecidableEq

/-- A baked tree. -/
structure BakedTree where
  nodes : Array BakedNode
  ids : Array IdEntry
deriving DecidableEq

/-- Why records do not make a tree. -/
inductive TreeError
  | empty
  | linkOutOfRange (node : Nat) (link : Int32) (size : Nat)
  | sharedOrCyclic (node : Nat)
  | rootHasSibling
  | rootIsLinked (source : Nat)
  | idOutOfRange (id : String) (index size : Nat)
deriving DecidableEq

namespace BakedTree

/-! ## Checking the links -/

/-- Records that the link `link` of node `source` leads somewhere; `claimed` holds the indices
that earlier links lead to. -/
def claimLink {n : Nat} (source : Nat) (claimed : Vector Bool n) (link : Int32) :
    Except TreeError (Vector Bool n) :=
  if link = noNode then .ok claimed
  else match linkTarget? link with
    | none => .error (.linkOutOfRange source link n)
    | some target =>
      if h : target < n then
        if target = 0 then .error (.rootIsLinked source)
        else if claimed[target] then .error (.sharedOrCyclic target)
        else .ok (claimed.set target true)
      else .error (.linkOutOfRange source link n)

/-- The indices that the links of all nodes lead to, the links taken in order. -/
def claimLinks (nodes : Array BakedNode) : Except TreeError (Vector Bool nodes.size) :=
  nodes.zipIdx.foldlM
    (fun claimed (node, source) => node.links.foldlM (claimLink source) claimed)
    (Vector.replicate nodes.size false)

/-! ## Walking the links -/

theorem count_false_set_lt {n : Nat} (visited : Vector Bool n) {i : Nat} (h : i < n)
    (unvisited : visited[i] = false) :
    (visited.set i true).toArray.count false < visited.toArray.count false := by
  have bound : i < visited.toArray.size := by simpa using h
  have at_i : visited.toArray[i] = false := unvisited
  have pos : 0 < visited.toArray.count false :=
    Array.count_pos_iff.2 (at_i ▸ Array.getElem_mem bound)
  rw [Vector.toArray_set, Array.count_set bound, at_i]
  rw [if_pos (by decide), if_neg (by decide)]
  omega

/-- Marks all that the links reach from the indices on the stack; an index that is reached twice
is an error. -/
def walk (nodes : Array BakedNode) (visited : Vector Bool nodes.size) :
    List Nat → Except TreeError (Vector Bool nodes.size)
  | [] => .ok visited
  | i :: stack =>
    if h : i < nodes.size then
      if hv : visited[i] then .error (.sharedOrCyclic i)
      else
        walk nodes (visited.set i true)
          (nodes[i].nextSibling?.toList ++ nodes[i].firstChild?.toList ++ stack)
    else walk nodes visited stack
termination_by stack => (visited.toArray.count false, stack.length)
decreasing_by
  · exact Prod.Lex.left _ _ (count_false_set_lt visited h (by simpa using hv))
  · exact Prod.Lex.right _ (by simp)

/-- Walks from every index that no link leads to, in order. -/
def walkRoots (nodes : Array BakedNode) (claimed : Vector Bool nodes.size) :
    Except TreeError (Vector Bool nodes.size) :=
  (List.range nodes.size).foldlM
    (fun visited i => if claimed[i]?.getD true then .ok visited else walk nodes visited [i])
    (Vector.replicate nodes.size false)

/-- Checks that the links form a forest rooted at index 0. -/
def checkNodes (nodes : Array BakedNode) : Except TreeError Unit :=
  if h : 0 < nodes.size then do
    let claimed ← claimLinks nodes
    if nodes[0].nextSibling = noNode then
      let visited ← walkRoots nodes claimed
      match visited.toArray.findIdx? (· = false) with
      | some unreached => .error (.sharedOrCyclic unreached)
      | none => .ok ()
    else .error .rootHasSibling
  else .error .empty

/-- The tree of records and id entries that passed the checks. -/
def ofNodes (nodes : Array BakedNode) (ids : Array IdEntry) : Except TreeError BakedTree := do
  checkNodes nodes
  match ids.find? (nodes.size ≤ ·.index) with
  | some entry => .error (.idOutOfRange entry.id entry.index nodes.size)
  | none => .ok ⟨nodes, ids⟩

/-! ## Looking up -/

/-- The record at an index. -/
def get? (t : BakedTree) (index : Nat) : Option BakedNode := t.nodes[index]?

/-- How many nodes there are. -/
def size (t : BakedTree) : Nat := t.nodes.size

/-- The index of the node with an authored id. -/
def indexOf? (t : BakedTree) (id : String) : Option Nat :=
  (t.ids.find? (·.id = id)).map (·.index)

/-- The authored id of the node at an index. -/
def idOf? (t : BakedTree) (index : Nat) : Option String :=
  (t.ids.find? (·.index = index)).map (·.id)

/-- The nodes from `start` on along the sibling links, at most `fuel` of them. -/
def siblings (t : BakedTree) : Nat → Option Nat → List Nat
  | fuel + 1, some i => i :: siblings t fuel ((t.get? i).bind (·.nextSibling?))
  | _, _ => []

/-- The children of a node in order. As many steps as there are nodes are enough, for no sibling
comes twice. -/
def children (t : BakedTree) (index : Nat) : List Nat :=
  t.siblings t.size ((t.get? index).bind (·.firstChild?))

end BakedTree

end BehaviorTree
