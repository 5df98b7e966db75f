import BehaviorTree.Proofs.Bake.Verdict

/-!
# Turns of the search for a cycle

The search for a cycle goes by turns (`Turn`): it begins at a node that it has not seen, closes
the innermost open node, opens the node that the next link leads to, or passes a link to a
finished node. No search has turns without end (`turn_wf`), every state that it reaches keeps
`SearchInv` (`Reached.inv`), and what it reports is met in a reached state
(`findCycle?_reached`).

`findCycle?_exact` says what the search answers: a path back to its first node, with no node
twice and a link at each of its steps, or none, and then the links have no cycle. A bake that
refuses a graph for a cycle reports such a path of edges.
-/

namespace BehaviorTree

open Relation

/-- A path of `R` back to the point that it starts from, with no other point twice. -/
structure SimpleCycle {α : Type*} (R : α → α → Prop) (path : List α) : Prop where
  two_le : 2 ≤ path.length
  closed : path.head? = path.getLast?
  nodup : path.dropLast.Nodup
  chain : path.IsChain R

theorem SimpleCycle.map {α β : Type*} {R : α → α → Prop} {S : β → β → Prop} {f : α → β}
    {path : List α} (h : SimpleCycle R path) (inj : Function.Injective f)
    (hRS : ∀ a b, R a b → S (f a) (f b)) : SimpleCycle S (path.map f) where
  two_le := by simpa using h.two_le
  closed := by rw [List.head?_map, List.getLast?_map, h.closed]
  nodup := by
    rw [← List.map_dropLast]
    exact h.nodup.map inj
  chain := List.isChain_map_of_isChain f hRS h.chain

namespace Adjacency

variable {n : Nat} {adjacency : Adjacency n}

theorem IsCycle.simpleCycle {path : List (Fin n)} (h : IsCycle adjacency path) :
    SimpleCycle adjacency.Linked path := by
  obtain ⟨first, inner, rfl, hnd, hchain⟩ := h
  refine ⟨by simp, ?_, ?_, hchain⟩
  · rw [List.getLast?_append, List.getLast?_singleton]
    simp
  · rw [List.dropLast_concat]
    exact hnd

/-! ## Turns -/

/-- The marks of a search and its open nodes. -/
abbrev SearchState (n : Nat) := Vector Mark n × Trail n

/-- One turn of the search. -/
inductive Turn (adjacency : Adjacency n) : SearchState n → SearchState n → Prop
  | start {marks : Vector Mark n} {node : Fin n} (new : marks.get node = .unvisited) :
    Turn adjacency (marks, []) (marks.set node .active node.isLt, [(node, adjacency.get node)])
  | close {marks : Vector Mark n} {node : Fin n} {outer : Trail n} :
    Turn adjacency (marks, (node, []) :: outer) (marks.set node .finished node.isLt, outer)
  | push {marks : Vector Mark n} {node : Fin n} {link : Link n} {links : List (Link n)}
      {outer : Trail n} (new : marks.get link.child = .unvisited) :
    Turn adjacency (marks, (node, link :: links) :: outer)
      (marks.set link.child .active link.child.isLt,
        (link.child, adjacency.get link.child) :: (node, links) :: outer)
  | skip {marks : Vector Mark n} {node : Fin n} {link : Link n} {links : List (Link n)}
      {outer : Trail n} (done : marks.get link.child = .finished) :
    Turn adjacency (marks, (node, link :: links) :: outer) (marks, (node, links) :: outer)

/-- No search goes on for ever: a turn sees a new node, or takes a step off the trail. -/
theorem turn_wf (adjacency : Adjacency n) : WellFounded fun t s => Turn adjacency s t := by
  have hlex : WellFounded (Prod.Lex (· < ·) (· < ·) : Nat × Nat → Nat × Nat → Prop) :=
    WellFounded.prod_lex wellFounded_lt wellFounded_lt
  refine Subrelation.wf ?_
    (InvImage.wf (fun s : SearchState n => (unvisited s.1, pending s.2)) hlex)
  intro t s turn
  cases turn with
  | start new => exact .left _ _ (unvisited_set_lt _ _ new (by decide))
  | @close marks node outer =>
    -- closing makes no node new, so if it sees none either, the trail alone gets shorter
    rcases Nat.lt_or_eq_of_le (unvisited_set_le marks node (by decide : Mark.finished ≠ _)) with
      less | same
    · exact .left _ _ less
    · simp only [InvImage, same]
      exact .right _ (by simp [pending])
  | push new => exact .left _ _ (unvisited_set_lt _ _ new (by decide))
  | skip => exact .right _ (by simp [pending])

theorem SearchInv.turn {s t : SearchState n} (h : SearchInv adjacency s.1 s.2)
    (turn : Turn adjacency s t) : SearchInv adjacency t.1 t.2 := by
  cases turn with
  | start => exact h.start (Fin.isLt _)
  | close => exact h.close (Fin.isLt _)
  | push new => exact h.push new (Fin.isLt _)
  | skip done => exact h.skip done

/-! ## Reached states -/

/-- A state that the search comes to from the start, where it has seen no node. -/
def Reached (adjacency : Adjacency n) (s : SearchState n) : Prop :=
  ReflTransGen (Turn adjacency) (Vector.replicate n .unvisited, []) s

theorem Reached.turn {s t : SearchState n} (h : Reached adjacency s) (turn : Turn adjacency s t) :
    Reached adjacency t := ReflTransGen.tail h turn

theorem Reached.inv {s : SearchState n} (h : Reached adjacency s) :
    SearchInv adjacency s.1 s.2 := by
  induction h with
  | refl => exact .initial
  | tail _ turn ih => exact ih.turn turn

/-- In a reached state the next link leads to an open node, for which the search reports
`path`. -/
def Reports (adjacency : Adjacency n) (path : List (Fin n)) : Prop :=
  ∃ marks node link links outer, Reached adjacency (marks, (node, link :: links) :: outer) ∧
    marks.get link.child = .active ∧ path = cyclePath ((node, links) :: outer) link.child

theorem search_reached {marks : Vector Mark n} {trail : Trail n}
    (h : Reached adjacency (marks, trail)) :
    Ends (fun marks' => Reached adjacency (marks', [])) (Reports adjacency)
      (search adjacency marks trail) := by
  fun_induction search with
  | case1 marks => exact h
  | case2 marks node outer ih => exact ih (h.turn .close)
  | case3 marks node link links outer new ih => exact ih (h.turn (.push new))
  | case4 marks node link links outer active => exact ⟨_, _, _, _, _, h, active, rfl⟩
  | case5 marks node link links outer done ih => exact ih (h.turn (.skip done))

theorem searchFrom_reached {marks : Vector Mark n} (h : Reached adjacency (marks, []))
    (start : Fin n) :
    Ends (fun marks' => Reached adjacency (marks', [])) (Reports adjacency)
      (searchFrom adjacency marks start) := by
  unfold searchFrom
  split
  · next new => exact search_reached (h.turn (.start new))
  · exact h

/-- A reported path is met on the way. -/
theorem findCycle?_reached {path : List (Fin n)} (h : adjacency.findCycle? = some path) :
    Reports adjacency path := by
  have key := Ends.foldlM (E := Reports adjacency)
    (I := fun _ marks => Reached adjacency (marks, [])) (f := adjacency.searchFrom)
    (List.finRange n) (b := Vector.replicate n .unvisited) .refl
    fun _ start _ _ _ h => searchFrom_reached h start
  unfold findCycle? at h
  split at h
  · cases h
  · rename_i he
    cases h
    exact key.of_error he

end Adjacency

/-! ## What is reported -/

/-- A step as a bake reports it. -/
def Graph.stepAt (g : Graph) (p : Fin g.nodes.size) : CycleStep :=
  ⟨(g.node p).id, (g.node p).type, p.1⟩

theorem Graph.stepAt_injective (g : Graph) : Function.Injective g.stepAt := fun _ _ h =>
  Fin.ext (congrArg CycleStep.position h)

/-- A bake reports what the search finds among the resolved edges. -/
theorem exists_findCycle?_of_bake {g : Graph} {catalog : Catalog} {path : List CycleStep}
    (h : bake g catalog = .error (.cycle path)) :
    ∃ positions found, g.Positioned positions ∧
      (g.adjacency positions).1.findCycle? = some found ∧ path = found.map g.stepAt := by
  have hends : Ends (fun _ => True) (fun e => ∀ path, e = .cycle path →
      ∃ positions found, g.Positioned positions ∧
        (g.adjacency positions).1.findCycle? = some found ∧ path = found.map g.stepAt)
      (bake g catalog) := by
    refine ((Graph.positions_ends g).mono (fun _ h => h) ?_).bind fun positions hpos => ?_
    · rintro e ⟨p, q, -, -, rfl⟩ path hpath
      cases hpath
    · dsimp only
      split
      · split
        · rename_i found hfound
          intro path hpath
          cases hpath
          exact ⟨positions, found, hpos, hfound, rfl⟩
        · -- the checks of parents report other errors
          refine Ends.bind ((Bake.findParents_ends (Graph.nodup_adjacency hpos)).mono
            (fun _ _ => trivial) ?_) fun _ _ => trivial
          rintro e ⟨_, _, _, -, -, -, rfl⟩ path hpath
          cases hpath
      · trivial
  exact hends.of_error h path rfl

/-- The search for a cycle comes to an end on every table of links. A path that it answers is
met at a link to an open node, and is a cycle of links that passes no node twice; if it answers
none, no link leads round. The open nodes are those marked as active, so a link to an active
node always has a place on the trail. A bake that refuses a graph for a cycle reports such a
path of nodes that edges join. -/
theorem findCycle?_exact :
    (∀ (n : Nat) (adjacency : Adjacency n),
      (WellFounded fun t s => Adjacency.Turn adjacency s t) ∧
      (∀ path, adjacency.findCycle? = some path →
        SimpleCycle adjacency.Linked path ∧ Adjacency.Reports adjacency path) ∧
      (adjacency.findCycle? = none → ∀ x, ¬ TransGen adjacency.Linked x x) ∧
      ∀ s, Adjacency.Reached adjacency s → ∀ x, s.1.get x = .active ↔ x ∈ s.2.map (·.1)) ∧
    ∀ (g : Graph) (catalog : Catalog) (path : List CycleStep),
      bake g catalog = .error (.cycle path) →
        SimpleCycle (fun a b => ∃ e ∈ g.edges, e.fromId = a.id ∧ e.toId = b.id) path ∧
        ∀ step ∈ path, ∃ p, step = g.stepAt p := by
  refine ⟨fun n adjacency => ⟨Adjacency.turn_wf adjacency, fun path h => ?_,
    Adjacency.acyclic_of_findCycle?, fun s hs => hs.inv.active⟩, fun g catalog path h => ?_⟩
  · exact ⟨(Adjacency.isCycle_of_findCycle? h).simpleCycle, Adjacency.findCycle?_reached h⟩
  · obtain ⟨positions, found, hpos, hfound, rfl⟩ := exists_findCycle?_of_bake h
    have hcycle := (Adjacency.isCycle_of_findCycle? hfound).simpleCycle
    refine ⟨hcycle.map g.stepAt_injective fun p c hpc => (Graph.linked_iff hpos).1 hpc, ?_⟩
    intro step hstep
    obtain ⟨p, -, rfl⟩ := List.mem_map.1 hstep
    exact ⟨p, rfl⟩

/-- Two nodes below each other. -/
def Graph.mutual : Graph where
  nodes := #[{ id := "l", type := "Sequence" }, { id := "r", type := "Selector" }]
  edges := #[{ fromId := "l", toId := "r" }, { fromId := "r", toId := "l" }]

/-- `findCycle?_exact` for two nodes that link to each other, for one that links to the other, and
for the bake of `Graph.mutual`. -/
theorem findCycle?_exact_mutual :
    let roundTrip : Adjacency 2 := #v[[⟨1, 0⟩], [⟨0, 0⟩]]
    let oneWay : Adjacency 2 := #v[[⟨1, 0⟩], []]
    let path : List CycleStep := [⟨"l", "Sequence", 0⟩, ⟨"r", "Selector", 1⟩, ⟨"l", "Sequence", 0⟩]
    (roundTrip.findCycle? = some [0, 1, 0] ∧ SimpleCycle roundTrip.Linked [0, 1, 0]) ∧
      (oneWay.findCycle? = none ∧ ∀ x, ¬ TransGen oneWay.Linked x x) ∧
      bake .mutual .standard = .error (.cycle path) ∧
      SimpleCycle (fun a b => ∃ e ∈ Graph.mutual.edges, e.fromId = a.id ∧ e.toId = b.id) path := by
  intro roundTrip oneWay path
  obtain ⟨htables, hgraphs⟩ := findCycle?_exact
  have hsome : roundTrip.findCycle? = some [0, 1, 0] := by cbv
  have hnone : oneWay.findCycle? = none := by cbv
  have hbake : bake .mutual .standard = .error (.cycle path) := by cbv
  exact ⟨⟨hsome, ((htables 2 roundTrip).2.1 _ hsome).1⟩,
    ⟨hnone, (htables 2 oneWay).2.2.1 hnone⟩, hbake, (hgraphs _ _ path hbake).1⟩

end BehaviorTree
