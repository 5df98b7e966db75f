import BehaviorTree.Proofs.Bake.Forest
import BehaviorTree.Proofs.Tick.Observe
import BehaviorTree.Proofs.Tick.Simulation
import BehaviorTree.Tick.Trace

/-!
# Baking keeps the behaviour

`tickTraced_of_bake`: to tick the tree of a graph at its root is to interpret the graph, down to
the trace. `Graph.interpret` says on its own what it reads off the graph, and each pass of baking
comes to the same: the order of the children (`sortedChildren_linksOf`), the record of a node
(`resolveNode_fst`), and the place of a node (`rootFirst_eq`, `idxOf_bakedOrder`). So the behaviour
that the links of the tree make is that of the graph but for the links in its records
(`Compiled.behaviorWithin?_unlinked`), and what an index is called in the tree is the id of the
node that has it (`idOf?_eq_idAt?`, `indexOf?_bakedIds`), with the slots that the node resolves to
(`exists_record_of_bake`).
-/

namespace BehaviorTree

open Bake

/-! ## What nodes resolve to -/

theorem NodeKind.ofControlTag?_eq_none {tag : String}
    (h : ∀ kind : NodeKind, kind.isControl → kind.name ≠ tag) : ofControlTag? tag = none := by
  rw [ofControlTag?, Option.filter_eq_none_iff]
  intro kind hkind hcontrol
  have hname : kind.name = tag := by simpa using List.find?_some hkind
  exact h kind hcontrol hname

namespace Bake

theorem resolveNode_action (catalog : Catalog) {node : AuthoredNode}
    (htag : NodeKind.ofControlTag? node.type = none) :
    (resolveNode catalog node).1 = catalog.actionRecord (actionName node) node.params := by
  rw [resolveNode, htag]
  unfold Catalog.actionRecord Catalog.get?
  cases catalog.definitions[actionName node]? with
  | none => rfl
  | some definition =>
    dsimp only [ActionDefinition.map]
    cases definition.mapper <;> rfl

/-- Resolving a node gives it the record of its type and its parameters. -/
theorem resolveNode_fst (catalog : Catalog) (node : AuthoredNode) :
    (resolveNode catalog node).1 = node.record catalog := by
  unfold AuthoredNode.record
  split
  -- the kind of the action is named by a parameter
  case h_8 htype =>
    have htag : NodeKind.ofControlTag? node.type = none := by
      rw [htype]
      decide
    have hname : actionName node = (node.params.get? "task").getD "" := if_pos htype
    rw [resolveNode_action catalog htag, hname]
  -- it is named by the type
  case h_9 hgeneric =>
    have htag : NodeKind.ofControlTag? node.type = none :=
      NodeKind.ofControlTag?_eq_none fun kind hcontrol hname => by
        cases kind <;> simp_all [NodeKind.name, NodeKind.isControl]
    have hname : actionName node = node.type := if_neg hgeneric
    rw [resolveNode_action catalog htag, hname]
  -- the other cases are the control tags
  all_goals
    rename_i htype
    rw [resolveNode, htype]
    rfl

end Bake

namespace Graph

variable {g : Graph} {catalog : Catalog} {root : Fin g.nodes.size} {t : BakedTree}

theorem rootFirst_eq (root : Fin g.nodes.size) : g.rootFirst root = bakedOrder root :=
  (bakedOrder_eq_erase root).symm

theorem idAt?_eq (root : Fin g.nodes.size) (i : Nat) :
    g.idAt? root i = (bakedOrder root)[i]?.map fun p => (g.node p).id := by
  rw [idAt?, rootFirst_eq]

theorem idOf?_eq_idAt? (hids : t.ids = g.bakedIds root) (i : Nat) :
    t.idOf? i = g.idAt? root i := by
  rw [BakedTree.idOf?, hids]
  cases hfind : (g.bakedIds root).find? (·.index = i) with
  | some e =>
    obtain ⟨p, rfl⟩ := mem_bakedIds.1 (Array.mem_of_find?_eq_some hfind)
    have hi : bakedIndex root p = i := by simpa using Array.find?_some hfind
    rw [idAt?_eq, ← hi, getElem?_bakedOrder]
    rfl
  | none =>
    have hlen : g.nodes.size ≤ i := by
      by_contra hlt
      obtain ⟨p, rfl⟩ := exists_bakedIndex_eq root (not_le.1 hlt)
      have := Array.find?_eq_none.1 hfind _ (mem_bakedIds.2 ⟨p, rfl⟩)
      simp at this
    rw [idAt?_eq, List.getElem?_eq_none (by rwa [length_bakedOrder])]
    rfl

theorem indexOf?_bakedIds (hu : g.UniqueIds) (hids : t.ids = g.bakedIds root)
    (p : Fin g.nodes.size) :
    t.indexOf? (g.node p).id = some (bakedIndex root p) := by
  rw [BakedTree.indexOf?, hids]
  cases hfind : (g.bakedIds root).find? (·.id = (g.node p).id) with
  | some e =>
    obtain ⟨q, rfl⟩ := mem_bakedIds.1 (Array.mem_of_find?_eq_some hfind)
    have hq : (g.node q).id = (g.node p).id := by simpa using Array.find?_some hfind
    rw [hu q p hq]
    rfl
  | none =>
    have := Array.find?_eq_none.1 hfind _ (mem_bakedIds.2 ⟨p, rfl⟩)
    simp at this

/-- The record of a node has the slots that the node resolves to. -/
theorem exists_record_of_bake {r : BakeResult} (h : bake g catalog = .ok r)
    (p : Fin g.nodes.size) :
    ∃ i n, r.tree.indexOf? (g.node p).id = some i ∧ r.tree.get? i = some n ∧
      n.SameSlots (resolveNode catalog (g.node p)).1 := by
  obtain ⟨positions, hpos, ⟨hzero, -⟩ | ⟨root, hroot, rfl⟩⟩ := (bake_ends g catalog).of_ok h
  · exact absurd p.2 (by omega)
  · exact ⟨_, _, indexOf?_bakedIds hroot.uniqueIds rfl p,
      hroot.getElem?_compile hpos catalog (g.adjacency positions).2 p, ⟨rfl, rfl, rfl⟩⟩

/-- A tree has as many records as the graph has nodes, and one for the empty graph. -/
theorem size_of_bake {r : BakeResult} (h : bake g catalog = .ok r) :
    r.tree.nodes.size = max 1 g.nodes.size := by
  obtain ⟨positions, -, ⟨hzero, rfl⟩ | ⟨root, -, rfl⟩⟩ := (bake_ends g catalog).of_ok h
  · exact (congrArg (max 1) hzero).symm
  · rw [size_compile, max_eq_right root.pos]

/-- Every record of a tree has the slots of a node, but for the one of the empty graph. -/
theorem sameSlots_of_mem_bake {r : BakeResult} (h : bake g catalog = .ok r) {n : BakedNode}
    (hn : n ∈ r.tree.nodes) : n = {} ∨ ∃ p, n.SameSlots (resolveNode catalog (g.node p)).1 := by
  obtain ⟨positions, hpos, ⟨-, rfl⟩ | ⟨root, hroot, rfl⟩⟩ := (bake_ends g catalog).of_ok h
  · exact .inl (Array.mem_singleton.1 hn)
  · obtain ⟨i, hi⟩ := Array.mem_iff_getElem?.1 hn
    have hlt := (Array.getElem?_eq_some_iff.1 hi).1
    rw [size_compile] at hlt
    obtain ⟨p, rfl⟩ := exists_bakedIndex_eq root hlt
    rw [hroot.getElem?_compile hpos] at hi
    cases hi
    exact .inr ⟨p, rfl, rfl, rfl⟩

/-- Resolving a trace commutes with adding to it. -/
theorem resolve_push (hids : t.ids = g.bakedIds root) (trace : Trace) (i : Nat) (status : Status) :
    (trace.push i status).resolve t = trace.resolve t ++ [(g.idAt? root i, status)] := by
  simp [Trace.push, Trace.resolve, idOf?_eq_idAt? hids]

theorem unlinked_bakedRecord (catalog : Catalog) (root p : Fin g.nodes.size) :
    (g.bakedRecord catalog root p).unlinked = (resolveNode catalog (g.node p)).1 := by
  obtain ⟨hfirst, hnext⟩ := resolveNode_links catalog (g.node p)
  exact BakedNode.linked_none hfirst hnext

namespace Compiled

variable (h : g.Compiled catalog root t.nodes)
include h

theorem children_bakedIndex (p : Fin g.nodes.size) :
    t.children (bakedIndex root p) = (g.childrenOf p).map (bakedIndex root) :=
  (BakedTree.children_chained h.isForest _).unique (h.chained p)

/-- The links of the tree make the behaviour of the graph. -/
theorem behaviorWithin?_unlinked {depth : Nat} {p : Fin g.nodes.size} {b : Behavior}
    (hb : t.behaviorWithin? depth (bakedIndex root p) = some b) :
    g.behaviorWithin? catalog root depth p = some b.unlinked := by
  induction depth generalizing p b with
  | zero => cases hb
  | succ depth ih =>
    rw [BakedTree.behaviorWithin?, BakedTree.get?, h.record p, h.children_bakedIndex] at hb
    obtain ⟨record, hrecord, hb⟩ := Option.bind_eq_some_iff.1 hb
    obtain ⟨bs, hbs, hb⟩ := Option.bind_eq_some_iff.1 hb
    cases hrecord
    cases hb
    rw [mapM_eq_some_iff, List.forall₂_map_left_iff] at hbs
    have hkids : (g.childrenOf p).mapM (g.behaviorWithin? catalog root depth) =
        some (bs.map Behavior.unlinked) := by
      rw [mapM_eq_some_iff, List.forall₂_map_right_iff]
      exact hbs.imp fun c b hb => ih hb
    rw [behaviorWithin?, hkids, Behavior.unlinked, Behavior.mapRecords_node, unlinked_bakedRecord,
      rootFirst_eq, idxOf_bakedOrder, resolveNode_fst]
    rfl

end Compiled

/-- A node from which an edge leads to a node has children. -/
theorem children_ne_nil_of_joins {r : BakeResult} (h : bake g catalog = .ok r)
    (hsize : g.nodes.size < 2147483648) {p c : Fin g.nodes.size} (hjoins : g.Joins p c) {i : Nat}
    (hi : r.tree.indexOf? (g.node p).id = some i) : r.tree.children i ≠ [] := by
  obtain ⟨root, hcompiled, hids⟩ := compiled_of_bake h p.pos hsize
  have hu := hcompiled.rooted.uniqueIds
  rw [indexOf?_bakedIds hu hids p, Option.some.injEq] at hi
  rw [← hi, hcompiled.children_bakedIndex, Ne, List.map_eq_nil_iff]
  exact List.ne_nil_of_mem ((mem_childrenOf_iff hu).2 hjoins)

end Graph

/-- To tick a baked tree at its root is to interpret the graph that it was baked from, for actions
that do not read links; the trace names the nodes by their ids. -/
theorem tickTraced_of_bake {g : Graph} {catalog : Catalog} {r : BakeResult}
    (h : bake g catalog = .ok r) (hpos : 0 < g.nodes.size) (hsize : g.nodes.size < 2147483648)
    {ε : Type} {actions : ActionTable ε} (hactions : actions.IgnoresLinks) (dt : Float32)
    (w : World ε) :
    let traced := r.tree.tickTraced actions 0 dt w .empty
    g.interpret catalog actions dt w =
        some (traced.status, traced.world, traced.seen.resolve r.tree) ∧
      r.tree.tick actions 0 dt w = (traced.status, traced.world) := by
  obtain ⟨root, hcompiled, hids⟩ := Graph.compiled_of_bake h hpos hsize
  have hf := hcompiled.isForest
  obtain ⟨b, hb⟩ := BakedTree.exists_behavior hf (i := 0) hf.nonempty
  obtain ⟨hindex, hfits⟩ := BakedTree.fits_of_behavior hf hb
  have hroot : linkTarget? 0 = some b.index := by
    rw [hindex]
    decide
  have hgraph : g.behaviorWithin? catalog root g.nodes.size root = some b.unlinked := by
    rw [BakedTree.behavior?, ← bakedIndex_root root] at hb
    exact hcompiled.size ▸ hcompiled.behaviorWithin?_unlinked hb
  intro traced
  let record : Machine.Observer Trace := fun index status trace => trace.push index status
  have htraced : traced = _ := BakedTree.tickReporting_of_fits hf hfits actions hroot dt w _ _
  rw [htraced]
  constructor
  · -- the trace of the graph is the resolved trace of the tree
    rw [Graph.interpret, hcompiled.rooted.root?, Option.bind_eq_bind, Option.bind_some, hgraph,
      Option.bind_eq_bind, Option.bind_some, Behavior.evaluate_unlinked hactions]
    exact congrArg some (Behavior.evaluate_viewed record (g.recordIds root) (·.resolve r.tree)
      (fun i status trace => Graph.resolve_push hids trace i status) b w .empty)
  · have hview : b.evaluate actions dt (fun _ _ seen => seen) (w, ()) =
        Behavior.viewed (fun _ => ()) (b.evaluate actions dt record (w, .empty)) :=
      Behavior.evaluate_viewed record (fun _ _ seen => seen) (fun _ => ()) (fun _ _ _ => rfl) b w
        .empty
    rw [BakedTree.tick, BakedTree.tickReporting_of_fits hf hfits actions hroot, hview]
    rfl

/-- `tickTraced_of_bake` for `Graph.unsorted` and the standard action. -/
theorem tickTraced_of_bake_unsorted :
    let actions : ActionTable Unit := ActionTable.empty.registerStandard
    let w : World Unit := ⟨.empty, ()⟩
    ∃ r, bake .unsorted .standard = .ok r ∧ 0 < Graph.unsorted.nodes.size ∧
      Graph.unsorted.nodes.size < 2147483648 ∧ actions.IgnoresLinks ∧
      let traced := r.tree.tickTraced actions 0 0.5 w .empty
      Graph.unsorted.interpret .standard actions 0.5 w =
          some (traced.status, traced.world, traced.seen.resolve r.tree) ∧
        r.tree.tick actions 0 0.5 w = (traced.status, traced.world) := by
  intro actions w
  obtain ⟨r, hr⟩ := Graph.exists_bake_unsorted .standard
  have hpos : 0 < Graph.unsorted.nodes.size := by decide
  have hsize : Graph.unsorted.nodes.size < 2147483648 := by decide
  have hactions : actions.IgnoresLinks := ActionTable.ignoresLinks_empty.registerStandard
  exact ⟨r, hr, hpos, hsize, hactions, tickTraced_of_bake hr hpos hsize hactions 0.5 w⟩

end BehaviorTree
