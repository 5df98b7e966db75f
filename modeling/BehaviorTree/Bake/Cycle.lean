import BehaviorTree.Bake.Adjacency

/-! # Cycles

`findCycle?` looks for a directed cycle among resolved links. It searches depth first from every
node in order and keeps the open nodes, from the innermost outwards, with the links that each has
still to follow; a link to an open node closes a cycle. The path of a cycle starts and ends at
the same node. -/

namespace BehaviorTree

namespace Adjacency

/-- How far the search has come with a node. -/
inductive Mark
  | unvisited
  | active
  | finished
deriving DecidableEq, Inhabited

/-- The open nodes of a search, the innermost first, with the links that each has still to
follow. -/
abbrev Trail (n : Nat) := List (Fin n × List (Link n))

variable {n : Nat}

/-- The nodes on a trail from `child` inwards, and `child` again. -/
def cyclePath (trail : Trail n) (child : Fin n) : List (Fin n) :=
  child :: ((trail.map (·.1)).takeWhile (· ≠ child)).reverse ++ [child]

/-- How many nodes the search has not seen. -/
def unvisited (marks : Vector Mark n) : Nat := marks.toArray.count .unvisited

/-- How many steps the trail holds. -/
def pending (trail : Trail n) : Nat :=
  trail.foldr (fun (_, links) steps => links.length + 1 + steps) 0

theorem unvisited_set_le (marks : Vector Mark n) (i : Fin n) {mark : Mark}
    (seen : mark ≠ .unvisited) : unvisited (marks.set i mark) ≤ unvisited marks := by
  have bound : i.1 < marks.toArray.size := by simp
  have other : ¬(mark == Mark.unvisited) = true := by simpa using seen
  rw [unvisited, Vector.toArray_set, Array.count_set bound, if_neg other]
  exact Nat.sub_le ..

theorem unvisited_set_lt (marks : Vector Mark n) (i : Fin n) {mark : Mark}
    (fresh : marks[i] = .unvisited) (seen : mark ≠ .unvisited) :
    unvisited (marks.set i mark) < unvisited marks := by
  have bound : i.1 < marks.toArray.size := by simp
  have at_i : marks.toArray[i.1] = .unvisited := fresh
  have pos : 0 < marks.toArray.count .unvisited :=
    Array.count_pos_iff.2 (at_i ▸ Array.getElem_mem bound)
  have other : ¬(mark == Mark.unvisited) = true := by simpa using seen
  rw [unvisited, Vector.toArray_set, Array.count_set bound, if_neg other, at_i,
    if_pos (by decide)]
  exact Nat.sub_lt pos (by decide)

/-- Follows the links of the innermost open node; answers the marks when nothing is open any
more, or the path of a cycle. -/
def search (adjacency : Adjacency n) (marks : Vector Mark n) :
    Trail n → Except (List (Fin n)) (Vector Mark n)
  | [] => .ok marks
  | (node, []) :: outer => search adjacency (marks.set node .finished) outer
  | (node, link :: links) :: outer =>
    match mark : marks[link.child] with
    | .unvisited =>
      search adjacency (marks.set link.child .active)
        ((link.child, adjacency[link.child]) :: (node, links) :: outer)
    | .active => .error (cyclePath ((node, links) :: outer) link.child)
    | .finished => search adjacency marks ((node, links) :: outer)
termination_by trail => (unvisited marks, pending trail)
decreasing_by
  · rcases Nat.lt_or_eq_of_le (unvisited_set_le marks node (by decide : Mark.finished ≠ _)) with
      less | same
    · exact Prod.Lex.left _ _ less
    · rw [same]
      exact Prod.Lex.right _ (by simp [pending])
  · exact Prod.Lex.left _ _ (unvisited_set_lt marks link.child mark (by decide))
  · exact Prod.Lex.right _ (by simp [pending])

/-- Searches from a node that no earlier search has seen. -/
def searchFrom (adjacency : Adjacency n) (marks : Vector Mark n) (start : Fin n) :
    Except (List (Fin n)) (Vector Mark n) :=
  if marks[start] = .unvisited then
    search adjacency (marks.set start .active) [(start, adjacency[start])]
  else .ok marks

/-- The path of a cycle, if the links have one. -/
def findCycle? (adjacency : Adjacency n) : Option (List (Fin n)) :=
  match (List.finRange n).foldlM adjacency.searchFrom (Vector.replicate n .unvisited) with
  | .ok _ => none
  | .error path => some path

end Adjacency

end BehaviorTree
