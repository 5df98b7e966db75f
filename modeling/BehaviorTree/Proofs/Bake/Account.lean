import BehaviorTree.Proofs.Bake.Placement
import BehaviorTree.Proofs.Bake.Unknown

/-!
# What becomes of edges

`edges_of_bake`: every edge of a graph is a pair of parent and child in the baked tree, or it has a
warning of its own (`Graph.edgeWarning?`). The loop over the edges gives the warnings in their order
(`warnings_adjacency`), and an edge without one is the first that leads from its source to its
target (`edgeWarning?_eq_none_iff`), which is where the children of a node come from.
-/

namespace BehaviorTree

open Bake

/-- The pairs of a parent and a child, by their indices. -/
def BakedTree.childPairs (t : BakedTree) : List (Nat × Nat) :=
  (List.range t.size).flatMap fun i => (t.children i).map (i, ·)

theorem BakedTree.mem_childPairs {t : BakedTree} {i j : Nat} :
    (i, j) ∈ t.childPairs ↔ i < t.size ∧ j ∈ t.children i := by
  simp [childPairs]

theorem BakedTree.nodup_childPairs {t : BakedTree} (h : IsForest t.nodes) :
    t.childPairs.Nodup := by
  refine List.nodup_flatMap.2 ⟨fun i _ => ?_, List.nodup_range.imp fun {i i'} hne => ?_⟩
  · exact (nodup_children h i).map fun _ _ heq => (Prod.mk.inj heq).2
  · simp only [Function.onFun, List.disjoint_left, List.mem_map]
    rintro _ ⟨j, -, rfl⟩ ⟨j', -, heq⟩
    exact hne (Prod.mk.inj heq).1.symm

namespace Graph

variable {g : Graph} {catalog : Catalog} {root : Fin g.nodes.size} {t : BakedTree}
  {k : Fin g.edges.size}

instance (g : Graph) : DecidablePred g.HasId := fun id =>
  inferInstanceAs (Decidable (∃ n ∈ g.nodes, n.id = id))

/-! ## Warnings -/

/-- The warning that an edge is given, if any: an end of it is missing, or an earlier edge has the
same ends. -/
def edgeWarning? (g : Graph) (k : Fin g.edges.size) : Option BakeWarning :=
  let e := g.edge k
  if g.HasId e.fromId ∧ g.HasId e.toId then
    if ∃ j < k, (g.edge j).fromId = e.fromId ∧ (g.edge j).toId = e.toId then
      some (.duplicateEdge e.fromId e.toId)
    else none
  else some (.danglingEdge e.fromId e.toId)

theorem FirstEdge.ends {p c : Fin g.nodes.size} (h : g.FirstEdge p c k) :
    (g.edge k).fromId = (g.node p).id ∧ (g.edge k).toId = (g.node c).id := h.1

/-- An edge has no warning if it is the first between two nodes. -/
theorem edgeWarning?_eq_none_iff : g.edgeWarning? k = none ↔ ∃ p c, g.FirstEdge p c k := by
  simp only [edgeWarning?]
  constructor
  · intro h
    split at h
    · rename_i hids
      split at h
      · cases h
      · rename_i hfirst
        obtain ⟨p, hp⟩ := hasId_iff.1 hids.1
        obtain ⟨c, hc⟩ := hasId_iff.1 hids.2
        refine ⟨p, c, ⟨hp.symm, hc.symm⟩, fun j hj hjoins => hfirst ⟨j, hj, ?_⟩⟩
        rwa [← hp, ← hc]
    · cases h
  · rintro ⟨p, c, hk⟩
    obtain ⟨hfrom, hto⟩ := hk.ends
    rw [if_pos ⟨hasId_iff.2 ⟨p, hfrom.symm⟩, hasId_iff.2 ⟨c, hto.symm⟩⟩, if_neg]
    rintro ⟨j, hj, hjoins⟩
    rw [hfrom, hto] at hjoins
    exact hk.2 j hj hjoins

theorem position?_eq_none_iff {id : String} : g.position? id = none ↔ ¬ g.HasId id := by
  simp [position?, List.find?_eq_none, hasId_iff]

/-- One edge adds its warning, if it has one. -/
theorem addLink_warnings {positions : g.Positions} (h : g.Positioned positions)
    {adjacency : Adjacency g.nodes.size} {warnings : Array BakeWarning}
    {done : List (Fin g.edges.size)}
    (hadj : ∀ p, adjacency.get p = g.linksAmong p (done.map g.edge))
    (hdone : ∀ j, j ∈ done ↔ j < k) :
    (g.addLink positions (adjacency, warnings) (g.edge k)).2.toList =
      warnings.toList ++ (g.edgeWarning? k).toList := by
  have hu := h.uniqueIds
  simp only [addLink, edgeWarning?, h.getElem?]
  cases hfrom : g.position? (g.edge k).fromId with
  | none =>
    rw [if_neg fun hids => position?_eq_none_iff.1 hfrom hids.1]
    exact Array.toList_push
  | some p =>
    have hp := (position?_eq_some_iff hu).1 hfrom
    cases hto : g.position? (g.edge k).toId with
    | none =>
      rw [if_neg fun hids => position?_eq_none_iff.1 hto hids.2]
      exact Array.toList_push
    | some c =>
      have hc := (position?_eq_some_iff hu).1 hto
      have hrepeated : (adjacency.get p).any (·.child = c) = true ↔
          ∃ j < k, (g.edge j).fromId = (g.edge k).fromId ∧ (g.edge j).toId = (g.edge k).toId := by
        rw [← hp, ← hc, hadj]
        have hmem : c ∈ (g.linksAmong p (done.map g.edge)).map (·.child) ↔ _ :=
          mem_linksAmong_iff hu
        simp only [List.mem_map, exists_exists_and_eq_and, hdone] at hmem
        simpa using hmem
      rw [if_pos ⟨hasId_iff.2 ⟨p, hp⟩, hasId_iff.2 ⟨c, hc⟩⟩]
      dsimp only
      split
      · rename_i hany
        rw [if_pos (hrepeated.1 hany)]
        exact Array.toList_push
      · rename_i hany
        rw [if_neg (mt hrepeated.2 hany)]
        exact (List.append_nil _).symm

/-- The loop over the edges gives the warnings of the edges in their order. -/
theorem warnings_adjacency {positions : g.Positions} (h : g.Positioned positions) :
    (g.adjacency positions).2.toList = (List.finRange g.edges.size).filterMap g.edgeWarning? := by
  rw [adjacency, ← Array.foldl_toList, toList_edges, List.foldl_map]
  have hloop := foldl_keeps
    (I := fun done (resolved : Adjacency g.nodes.size × Array BakeWarning) =>
      (∀ p, resolved.1.get p = g.linksAmong p (done.map g.edge)) ∧
        resolved.2.toList = done.filterMap g.edgeWarning?)
    (f := fun resolved k => g.addLink positions resolved (g.edge k))
    (List.finRange g.edges.size) (b := (Vector.replicate _ [], #[])) ?_ ?_
  · exact hloop.2
  · exact ⟨fun p => by simp [linksAmong, firsts, Vector.get], rfl⟩
  · rintro done k rest ⟨adjacency, warnings⟩ hl ⟨hadj, hwarnings⟩
    refine ⟨fun p => ?_, ?_⟩
    · rw [List.map_append]
      exact addLink_get h hadj _ p
    · rw [addLink_warnings h hadj (mem_done_finRange hl), List.filterMap_append, ← hwarnings]
      cases hk : g.edgeWarning? k <;> simp [hk]

/-! ## Pairs -/

/-- A node is a child of another one by the first edge that leads there. -/
theorem mem_childrenOf_iff_firstEdge (hu : g.UniqueIds) {p c : Fin g.nodes.size} :
    c ∈ g.childrenOf p ↔ ∃ k, g.FirstEdge p c k := by
  rw [← map_rankedLinks, List.mem_map]
  constructor
  · rintro ⟨⟨link, k⟩, hmem, rfl⟩
    exact ⟨k, ((mem_rankedLinks hu).1 hmem).1⟩
  · rintro ⟨k, hk⟩
    exact ⟨(⟨c, (g.edge k).fromPort⟩, k), (mem_rankedLinks hu).2 ⟨hk, rfl⟩, rfl⟩

/-- Two edges without a warning do not have the same ends. -/
theorem eq_of_edgeWarning?_none {k' : Fin g.edges.size} (hk : g.edgeWarning? k = none)
    (hk' : g.edgeWarning? k' = none) (hfrom : (g.edge k).fromId = (g.edge k').fromId)
    (hto : (g.edge k).toId = (g.edge k').toId) : k = k' := by
  obtain ⟨p, c, hends, hfirst⟩ := edgeWarning?_eq_none_iff.1 hk
  obtain ⟨p', c', hends', hfirst'⟩ := edgeWarning?_eq_none_iff.1 hk'
  rcases lt_trichotomy k k' with hlt | heq | hlt
  · exact absurd ⟨hfrom.trans hends'.1, hto.trans hends'.2⟩ (hfirst' k hlt)
  · exact heq
  · exact absurd ⟨hfrom.symm.trans hends.1, hto.symm.trans hends.2⟩ (hfirst k' hlt)

theorem Compiled.mem_childPairs_iff (h : g.Compiled catalog root t.nodes) {i j : Nat} :
    (i, j) ∈ t.childPairs ↔
      ∃ p c, bakedIndex root p = i ∧ bakedIndex root c = j ∧ ∃ k, g.FirstEdge p c k := by
  simp only [← mem_childrenOf_iff_firstEdge h.rooted.uniqueIds, BakedTree.mem_childPairs]
  constructor
  · rintro ⟨hi, hj⟩
    obtain ⟨p, rfl⟩ := h.exists_position hi
    rw [h.children_bakedIndex, List.mem_map] at hj
    obtain ⟨c, hc, rfl⟩ := hj
    exact ⟨p, c, rfl, rfl, hc⟩
  · rintro ⟨p, c, rfl, rfl, hc⟩
    refine ⟨(bakedIndex_lt root p).trans_eq h.size.symm, ?_⟩
    rw [h.children_bakedIndex]
    exact List.mem_map_of_mem hc

/-- The pairs of parents and children are the edges without a warning, one for one. -/
theorem Compiled.perm_childPairs (h : g.Compiled catalog root t.nodes)
    (hids : t.ids = g.bakedIds root) :
    (t.childPairs.map fun pair => (t.idOf? pair.1, t.idOf? pair.2)).Perm
      (((List.finRange g.edges.size).filter (g.edgeWarning? · = none)).map fun k =>
        (some (g.edge k).fromId, some (g.edge k).toId)) := by
  have hu := h.rooted.uniqueIds
  have hidOf : ∀ p, t.idOf? (bakedIndex root p) = some (g.node p).id := fun p =>
    (idOf?_eq_some_iff hids).2 ⟨p, rfl, rfl⟩
  refine (List.perm_ext_iff_of_nodup ?_ ?_).2 fun pair => ?_
  · refine (BakedTree.nodup_childPairs h.isForest).map_on ?_
    rintro ⟨i, j⟩ hij ⟨i', j'⟩ hij' heq
    obtain ⟨p, c, rfl, rfl, -⟩ := h.mem_childPairs_iff.1 hij
    obtain ⟨p', c', rfl, rfl, -⟩ := h.mem_childPairs_iff.1 hij'
    simp only [hidOf, Prod.mk.injEq, Option.some.injEq] at heq
    rw [hu p p' heq.1, hu c c' heq.2]
  · refine ((List.nodup_finRange _).filter _).map_on fun k hk k' hk' heq => ?_
    simp only [Prod.mk.injEq, Option.some.injEq] at heq
    exact eq_of_edgeWarning?_none (by simpa using hk) (by simpa using hk') heq.1 heq.2
  · simp only [List.mem_map, Prod.exists, h.mem_childPairs_iff, List.mem_filter, List.mem_finRange,
      true_and, decide_eq_true_eq, edgeWarning?_eq_none_iff]
    constructor
    · rintro ⟨_, _, ⟨p, c, rfl, rfl, k, hk⟩, rfl⟩
      exact ⟨k, ⟨p, c, hk⟩, by rw [hidOf, hidOf, hk.ends.1, hk.ends.2]⟩
    · rintro ⟨k, ⟨p, c, hk⟩, rfl⟩
      exact ⟨_, _, ⟨p, c, rfl, rfl, k, hk⟩, by rw [hidOf, hidOf, hk.ends.1, hk.ends.2]⟩

end Graph

/-! ## The account -/

theorem Bake.isUnknownAction_resolveNode {catalog : Catalog} {node : AuthoredNode}
    {w : BakeWarning} (h : (resolveNode catalog node).2 = some w) : w.isUnknownAction = true := by
  cases hunknown : isUnknown catalog node with
  | true =>
    rw [resolveNode_unknown hunknown] at h
    cases h
    rfl
  | false =>
    rw [resolveNode_known hunknown] at h
    cases h

/-- The warnings of a bake: those of the edges in edge order, then those about actions. -/
theorem Graph.warnings_of_bake {g : Graph} {catalog : Catalog} {r : BakeResult}
    (h : bake g catalog = .ok r) :
    ∃ others, r.warnings.toList =
        (List.finRange g.edges.size).filterMap g.edgeWarning? ++ others ∧
      (∀ w ∈ others, w.isUnknownAction = true) ∧
      ∀ w ∈ (List.finRange g.edges.size).filterMap g.edgeWarning?, w.isUnknownAction = false := by
  obtain ⟨positions, hpos, hr⟩ := (bake_ends g catalog).of_ok h
  have hedges := warnings_adjacency hpos
  have hnone : ∀ w ∈ (List.finRange g.edges.size).filterMap g.edgeWarning?,
      w.isUnknownAction = false := by
    rw [← hedges]
    exact fun w hw => isUnknownAction_adjacency positions w (Array.mem_toList_iff.1 hw)
  rcases hr with ⟨-, rfl⟩ | ⟨root, -, rfl⟩
  · exact ⟨[], by rw [List.append_nil, ← hedges], by simp, hnone⟩
  · refine ⟨_, by rw [compile, Array.toList_append, hedges], fun w hw => ?_, hnone⟩
    obtain ⟨node, hnode, hw⟩ := Array.mem_filterMap.1 (Array.mem_toList_iff.1 hw)
    obtain ⟨p, -, rfl⟩ := Array.mem_map.1 hnode
    exact isUnknownAction_resolveNode hw

theorem Graph.perm_childPairs_of_bake {g : Graph} {catalog : Catalog} {r : BakeResult}
    (h : bake g catalog = .ok r) (hsize : g.nodes.size < 2147483648) :
    (r.tree.childPairs.map fun pair => (r.tree.idOf? pair.1, r.tree.idOf? pair.2)).Perm
      (((List.finRange g.edges.size).filter (g.edgeWarning? · = none)).map fun k =>
        (some (g.edge k).fromId, some (g.edge k).toId)) := by
  obtain ⟨_, -, ⟨hzero, rfl⟩ | ⟨root, -, -⟩⟩ := (bake_ends g catalog).of_ok h
  · -- no edge has an end, and the one record has no child
    have hnone : (List.finRange g.edges.size).filter (g.edgeWarning? · = none) = [] := by
      refine List.filter_eq_nil_iff.2 fun k _ hk => ?_
      obtain ⟨p, -⟩ := edgeWarning?_eq_none_iff.1 (of_decide_eq_true hk)
      exact absurd p.2 (by omega)
    rw [hnone]
    exact .refl _
  · obtain ⟨root, hcompiled, hids⟩ := compiled_of_bake h root.pos hsize
    exact hcompiled.perm_childPairs hids

theorem length_filter_none_add_filterMap {α β : Type*} [DecidableEq β] (f : α → Option β)
    (l : List α) : (l.filter (f · = none)).length + (l.filterMap f).length = l.length := by
  induction l with
  | nil => rfl
  | cons a l ih => cases h : f a <;> simp [h] <;> omega

/-- Every edge is accounted for. The warnings begin with one for each edge that has an end missing
or repeats an earlier edge, in edge order, and all others are about actions. Where links can hold
the indices, the pairs of a parent and a child in the tree, named by their ids, are the other edges,
one for one; so there are as many edges as pairs and warnings about edges. -/
theorem edges_of_bake {g : Graph} {catalog : Catalog} {r : BakeResult}
    (h : bake g catalog = .ok r) :
    (∃ others, r.warnings.toList =
        (List.finRange g.edges.size).filterMap g.edgeWarning? ++ others ∧
      ∀ w ∈ others, w.isUnknownAction = true) ∧
    (g.nodes.size < 2147483648 →
      (r.tree.childPairs.map fun pair => (r.tree.idOf? pair.1, r.tree.idOf? pair.2)).Perm
        (((List.finRange g.edges.size).filter (g.edgeWarning? · = none)).map fun k =>
          (some (g.edge k).fromId, some (g.edge k).toId)) ∧
      g.edges.size =
        r.tree.childPairs.length + r.warnings.toList.countP (!·.isUnknownAction)) := by
  obtain ⟨others, hwarnings, hothers, hedges⟩ := Graph.warnings_of_bake h
  refine ⟨⟨others, hwarnings, hothers⟩, fun hsize => ?_⟩
  have hperm := Graph.perm_childPairs_of_bake h hsize
  have hpairs := hperm.length_eq
  have hcount : r.warnings.toList.countP (!·.isUnknownAction) =
      ((List.finRange g.edges.size).filterMap g.edgeWarning?).length := by
    rw [hwarnings, List.countP_append, List.countP_eq_length.2, List.countP_eq_zero.2,
      Nat.add_zero]
    · intro w hw
      simp [hothers w hw]
    · intro w hw
      simp [hedges w hw]
  have hsplit := length_filter_none_add_filterMap g.edgeWarning? (List.finRange g.edges.size)
  rw [List.length_map, List.length_map] at hpairs
  rw [List.length_finRange] at hsplit
  exact ⟨hperm, by omega⟩

/-- `edges_of_bake` for `Graph.unsorted`, of whose five edges the third is repeated and the last
leads nowhere. -/
theorem edges_of_bake_unsorted :
    ∃ r others, bake .unsorted .empty = .ok r ∧ Graph.unsorted.nodes.size < 2147483648 ∧
      r.warnings.toList = [.duplicateEdge "root" "wait", .danglingEdge "guard" "nobody"] ++ others ∧
      (∀ w ∈ others, w.isUnknownAction = true) ∧
      (r.tree.childPairs.map fun pair => (r.tree.idOf? pair.1, r.tree.idOf? pair.2)).Perm
        [(some "root", some "wait"), (some "root", some "guard"), (some "guard", some "step")] ∧
      5 = r.tree.childPairs.length + r.warnings.toList.countP (!·.isUnknownAction) := by
  obtain ⟨r, hr⟩ := Graph.exists_bake_unsorted .empty
  have hsize : Graph.unsorted.nodes.size < 2147483648 := by decide
  obtain ⟨⟨others, hwarnings, hothers⟩, htree⟩ := edges_of_bake hr
  obtain ⟨hperm, hcount⟩ := htree hsize
  exact ⟨r, others, hr, hsize, hwarnings, hothers, hperm, hcount⟩

end BehaviorTree
