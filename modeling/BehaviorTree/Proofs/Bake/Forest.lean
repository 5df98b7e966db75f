import BehaviorTree.Proofs.Baked.Check
import BehaviorTree.Proofs.Baked.Children
import BehaviorTree.Proofs.Bake.Linking

/-!
# Baked records are a forest

Records that a graph was compiled to (`Graph.Compiled`) link a node to its children in a chain
(`Compiled.chained`) and pass the checks that records of unknown origin have to pass
(`Compiled.isForest`), so a baked tree is always one that `BakedTree.ofNodes` accepts.
-/

namespace BehaviorTree

open Relation Bake

theorem linkTarget?_linkTo {o : Option Nat} (h : ∀ k, o = some k → k < 2147483648) :
    linkTarget? (linkTo o) = o := by
  cases o with
  | none => exact linkTarget?_noNode
  | some k => exact linkTarget?_ofNat (h k rfl)

/-- There is no endless path of links from a chain, if there is none from a first child. -/
theorem acc_of_chained {nodes : Array BakedNode} {o : Option Nat} {l : List Nat}
    (h : Chained nodes o l)
    (hfirst : ∀ i ∈ l, ∀ j, firstChildOf nodes i = some j → Acc (fun j i => Leads nodes i j) j) :
    ∀ i ∈ l, Acc (fun j i => Leads nodes i j) i := by
  induction l generalizing o with
  | nil => simp
  | cons i is ih =>
    have hrest := ih h.2 fun k hk => hfirst k (List.mem_cons_of_mem _ hk)
    intro k hk
    rcases List.mem_cons.1 hk with rfl | hk
    · refine Acc.intro k fun j hj => ?_
      rcases leads_iff.1 hj with hj | hj
      · exact hfirst k List.mem_cons_self j hj
      · exact hrest j (h.2.mem_iff.2 ⟨j, hj, .refl⟩)
    · exact hrest k hk

namespace Graph

variable {g : Graph} {catalog : Catalog} {root : Fin g.nodes.size} {nodes : Array BakedNode}

/-- The records are those of a graph, and links can hold their indices. -/
structure Compiled (g : Graph) (catalog : Catalog) (root : Fin g.nodes.size)
    (nodes : Array BakedNode) : Prop where
  rooted : g.Rooted root
  size : nodes.size = g.nodes.size
  record : ∀ p, nodes[bakedIndex root p]? = some (g.bakedRecord catalog root p)
  addressable : nodes.size < 2147483648

namespace Compiled

variable (h : g.Compiled catalog root nodes)
include h

theorem linkTarget?_linkTo_map (o : Option (Fin g.nodes.size)) :
    linkTarget? (linkTo (o.map (bakedIndex root))) = o.map (bakedIndex root) := by
  refine linkTarget?_linkTo fun k hk => ?_
  obtain ⟨p, -, rfl⟩ := Option.map_eq_some_iff.1 hk
  exact (bakedIndex_lt root p).trans (h.size ▸ h.addressable)

theorem firstChildOf_bakedIndex (p : Fin g.nodes.size) :
    firstChildOf nodes (bakedIndex root p) = (g.childrenOf p).head?.map (bakedIndex root) := by
  rw [firstChildOf, h.record p]
  exact h.linkTarget?_linkTo_map _

theorem siblingOf_bakedIndex (p : Fin g.nodes.size) :
    siblingOf nodes (bakedIndex root p) = (g.nextOf? p).map (bakedIndex root) := by
  rw [siblingOf, h.record p]
  exact h.linkTarget?_linkTo_map _

theorem exists_position {i : Nat} (hi : i < nodes.size) : ∃ p, bakedIndex root p = i :=
  exists_bakedIndex_eq root (h.size ▸ hi)

/-- Every record is made of a node. -/
theorem exists_node {i : Nat} {n : BakedNode} (hn : nodes[i]? = some n) :
    ∃ p, bakedIndex root p = i ∧ g.bakedRecord catalog root p = n := by
  obtain ⟨p, rfl⟩ := h.exists_position (Array.getElem?_eq_some_iff.1 hn).1
  exact ⟨p, rfl, Option.some.inj ((h.record p).symm.trans hn)⟩

theorem firstChildOf_eq_some_iff {i j : Nat} :
    firstChildOf nodes i = some j ↔
      ∃ p c, bakedIndex root p = i ∧ bakedIndex root c = j ∧ (g.childrenOf p).head? = some c := by
  constructor
  · intro hj
    obtain ⟨p, rfl⟩ := h.exists_position (lt_of_leads (leads_iff.2 (.inl hj)))
    rw [h.firstChildOf_bakedIndex, Option.map_eq_some_iff] at hj
    obtain ⟨c, hc, rfl⟩ := hj
    exact ⟨p, c, rfl, rfl, hc⟩
  · rintro ⟨p, c, rfl, rfl, hc⟩
    rw [h.firstChildOf_bakedIndex, hc]
    rfl

theorem siblingOf_eq_some_iff {i j : Nat} :
    siblingOf nodes i = some j ↔
      ∃ p c q, bakedIndex root p = i ∧ bakedIndex root c = j ∧
        after? p (g.childrenOf q) = some c := by
  constructor
  · intro hj
    obtain ⟨p, rfl⟩ := h.exists_position (lt_of_leads (leads_iff.2 (.inr hj)))
    rw [h.siblingOf_bakedIndex, Option.map_eq_some_iff] at hj
    obtain ⟨c, hc, rfl⟩ := hj
    obtain ⟨q, -, hq⟩ := List.exists_of_findSome?_eq_some hc
    exact ⟨p, c, q, rfl, rfl, hq⟩
  · rintro ⟨p, c, q, rfl, rfl, hc⟩
    rw [h.siblingOf_bakedIndex, h.rooted.nextOf?_eq (mem_of_after? hc).1, hc]
    rfl

/-- Every link leads to a child of some node. -/
theorem exists_joins_of_leads {i j : Nat} (hl : Leads nodes i j) :
    ∃ q c, bakedIndex root c = j ∧ g.Joins q c := by
  rcases leads_iff.1 hl with hj | hj
  · obtain ⟨p, c, -, hc, hhead⟩ := h.firstChildOf_eq_some_iff.1 hj
    exact ⟨p, c, hc, (mem_childrenOf_iff h.rooted.uniqueIds).1 (List.mem_of_mem_head? hhead)⟩
  · obtain ⟨p, c, q, -, hc, hafter⟩ := h.siblingOf_eq_some_iff.1 hj
    exact ⟨q, c, hc, (mem_childrenOf_iff h.rooted.uniqueIds).1 (mem_of_after? hafter).2⟩

/-! ## Children -/

/-- The chain of siblings from a child on. -/
theorem chained_suffix (p : Fin g.nodes.size) (before : List (Fin g.nodes.size))
    {l : List (Fin g.nodes.size)}
    (hl : g.childrenOf p = before ++ l) :
    Chained nodes (l.head?.map (bakedIndex root)) (l.map (bakedIndex root)) := by
  induction l generalizing before with
  | nil => rfl
  | cons c l ih =>
    have hc : c ∉ before := not_mem_done (nodup_childrenOf p) hl
    have hnext : siblingOf nodes (bakedIndex root c) = l.head?.map (bakedIndex root) := by
      rw [h.siblingOf_bakedIndex, h.rooted.nextOf?_eq (q := p) (by simp [hl]), hl,
        after?_append hc]
    refine ⟨rfl, ?_⟩
    rw [hnext]
    exact ih (before ++ [c]) (by simp [hl])

/-- The children of a node are linked in their order. -/
theorem chained (p : Fin g.nodes.size) :
    Chained nodes (firstChildOf nodes (bakedIndex root p))
      ((g.childrenOf p).map (bakedIndex root)) := by
  rw [h.firstChildOf_bakedIndex]
  exact h.chained_suffix p [] rfl

/-! ## The forest -/

theorem inRange {n : BakedNode} (hn : n ∈ nodes) {link : Int32} (hlink : link ∈ n.links) :
    link = noNode ∨ ∃ target < nodes.size, linkTarget? link = some target := by
  obtain ⟨i, hi⟩ := Array.mem_iff_getElem?.1 hn
  obtain ⟨p, rfl, rfl⟩ := h.exists_node hi
  have hto : ∃ o : Option (Fin g.nodes.size), link = linkTo (o.map (bakedIndex root)) := by
    rcases List.mem_pair.1 hlink with rfl | rfl
    · exact ⟨_, rfl⟩
    · exact ⟨_, rfl⟩
  obtain ⟨o, rfl⟩ := hto
  cases o with
  | none => exact .inl rfl
  | some c =>
    have hlt : bakedIndex root c < nodes.size := (bakedIndex_lt root c).trans_eq h.size.symm
    exact .inr ⟨_, hlt, h.linkTarget?_linkTo_map (some c)⟩

theorem unshared : Unshared nodes where
  first := by
    intro i i' j hi hi'
    obtain ⟨p, c, rfl, rfl, hc⟩ := h.firstChildOf_eq_some_iff.1 hi
    obtain ⟨p', c', rfl, hcc, hc'⟩ := h.firstChildOf_eq_some_iff.1 hi'
    cases bakedIndex_inj.1 hcc
    rw [h.rooted.parent_unique (List.mem_of_mem_head? hc) (List.mem_of_mem_head? hc')]
  sibling := by
    intro i i' j hi hi'
    obtain ⟨p, c, q, rfl, rfl, hc⟩ := h.siblingOf_eq_some_iff.1 hi
    obtain ⟨p', c', q', rfl, hcc, hc'⟩ := h.siblingOf_eq_some_iff.1 hi'
    cases bakedIndex_inj.1 hcc
    cases h.rooted.parent_unique (mem_of_after? hc).2 (mem_of_after? hc').2
    rw [after?_inj (nodup_childrenOf q) hc hc']
  apart := by
    intro i i' j hi hi'
    obtain ⟨p, c, rfl, rfl, hc⟩ := h.firstChildOf_eq_some_iff.1 hi
    obtain ⟨p', c', q', rfl, hcc, hc'⟩ := h.siblingOf_eq_some_iff.1 hi'
    cases bakedIndex_inj.1 hcc
    cases h.rooted.parent_unique (List.mem_of_mem_head? hc) (mem_of_after? hc').2
    exact after?_ne_head (nodup_childrenOf p) hc' hc

/-- By induction from the leaves up: no endless path of links starts at a child of a node. -/
theorem acc_child (p : Fin g.nodes.size) :
    ∀ i ∈ (g.childrenOf p).map (bakedIndex root), Acc (fun j i => Leads nodes i j) i := by
  induction p using h.rooted.acyclic.below_wf.induction with
  | _ p ih =>
    refine acc_of_chained (h.chained p) fun i hi j hj => ?_
    obtain ⟨c, hc, rfl⟩ := List.mem_map.1 hi
    refine ih c ((mem_childrenOf_iff h.rooted.uniqueIds).1 hc) j ?_
    rw [(h.chained c).mem_iff]
    exact ⟨j, hj, .refl⟩

theorem acyclic : Acyclic (Leads nodes) := by
  refine .of_acc fun i => Acc.intro i fun j hj => ?_
  obtain ⟨q, c, rfl, hjoins⟩ := h.exists_joins_of_leads hj
  have hmem := (mem_childrenOf_iff h.rooted.uniqueIds).2 hjoins
  exact h.acc_child q _ (List.mem_map_of_mem hmem)

theorem isForest : IsForest nodes where
  nonempty := h.size ▸ root.pos
  inRange := fun _ hn _ hlink => h.inRange hn hlink
  unshared := nodup_of_unshared h.unshared
  rootUnlinked := by
    intro hmem
    obtain ⟨i, hi⟩ := mem_linkTargets.1 hmem
    obtain ⟨q, c, hc, hjoins⟩ := h.exists_joins_of_leads hi
    exact h.rooted.parentless q (bakedIndex_eq_zero_iff.1 hc ▸ hjoins)
  rootAlone := by
    intro n hn
    have hnone : g.nextOf? root = none := by
      rw [nextOf?, List.findSome?_eq_none_iff]
      intro q _
      exact after?_eq_none fun hq =>
        h.rooted.parentless q ((mem_childrenOf_iff h.rooted.uniqueIds).1 hq)
    rw [← bakedIndex_root root, h.record root] at hn
    cases hn
    rw [bakedRecord, hnone]
    rfl
  acyclic := h.acyclic

end Compiled

/-! ## Baked trees -/

/-- The id entries of a graph: the ids of the nodes in baked order. -/
def bakedIds (g : Graph) (root : Fin g.nodes.size) : Array IdEntry :=
  (bakedOrder root).toArray.zipIdx.map fun (position, index) => ⟨(g.node position).id, index⟩

theorem mem_bakedIds {e : IdEntry} :
    e ∈ g.bakedIds root ↔ ∃ p, e = ⟨(g.node p).id, bakedIndex root p⟩ := by
  simp only [bakedIds, Array.mem_map, Prod.exists, Array.mem_zipIdx_iff_getElem?,
    List.getElem?_toArray]
  constructor
  · rintro ⟨p, i, hp, rfl⟩
    exact ⟨p, by rw [getElem?_bakedOrder_iff.1 hp]⟩
  · rintro ⟨p, rfl⟩
    exact ⟨p, _, getElem?_bakedOrder root p, rfl⟩

/-- What the tree of a graph that has nodes consists of. -/
theorem compiled_of_bake {r : BakeResult} (h : bake g catalog = .ok r)
    (hpos : 0 < g.nodes.size) (hlt : g.nodes.size < 2147483648) :
    ∃ root, g.Compiled catalog root r.tree.nodes ∧ r.tree.ids = g.bakedIds root := by
  obtain ⟨positions, hpositions, ⟨hzero, -⟩ | ⟨root, hroot, rfl⟩⟩ := (bake_ends g catalog).of_ok h
  · omega
  · refine ⟨root, ⟨hroot, size_compile .., hroot.getElem?_compile hpositions catalog _, ?_⟩, rfl⟩
    rwa [size_compile]

theorem Compiled.isTree (h : g.Compiled catalog root nodes) : IsTree nodes (g.bakedIds root) where
  forest := h.isForest
  idsInRange := by
    intro e he
    obtain ⟨p, rfl⟩ := mem_bakedIds.1 he
    exact (bakedIndex_lt root p).trans_eq h.size.symm

end Graph

theorem isTree_childless : IsTree BakedTree.childless.nodes BakedTree.childless.ids := by
  have hok : BakedTree.ofNodes BakedTree.childless.nodes BakedTree.childless.ids =
      .ok .childless := by cbv
  exact (BakedTree.ofNodes_eq_ok_iff.1 hok).1

/-- A baked tree is a tree, and the checks for records of unknown origin accept it as it is. -/
theorem ofNodes_of_bake {g : Graph} {catalog : Catalog} {r : BakeResult}
    (h : bake g catalog = .ok r) (hsize : g.nodes.size < 2147483648) :
    BakedTree.ofNodes r.tree.nodes r.tree.ids = .ok r.tree ∧ IsTree r.tree.nodes r.tree.ids := by
  have htree : IsTree r.tree.nodes r.tree.ids := by
    obtain ⟨_, -, ⟨hzero, rfl⟩ | ⟨root, -, -⟩⟩ := (Graph.bake_ends g catalog).of_ok h
    · exact isTree_childless
    · obtain ⟨root, hcompiled, hids⟩ := Graph.compiled_of_bake h root.pos hsize
      rw [hids]
      exact hcompiled.isTree
  exact ⟨BakedTree.ofNodes_eq_ok_iff.2 ⟨htree, rfl⟩, htree⟩

/-- A graph whose root is not first and whose edges are out of order; one edge is repeated and
one leads nowhere. -/
def Graph.unsorted : Graph where
  nodes := #[
    { id := "wait", type := "Wait", order := 2 },
    { id := "guard", type := "Interrupt", order := 1 },
    { id := "root", type := "Sequence" },
    { id := "step", type := "Step" }]
  edges := #[
    { fromId := "root", toId := "wait" },
    { fromId := "root", toId := "guard" },
    { fromId := "root", fromPort := 3, toId := "wait" },
    { fromId := "guard", toId := "step" },
    { fromId := "guard", toId := "nobody" }]

theorem Graph.exists_bake_unsorted (catalog : Catalog) :
    ∃ r, bake unsorted catalog = .ok r :=
  exists_bake_of_rank catalog (fun p => [2, 1, 0, 2].getD p.1 0) (by decide) (by decide) (by decide)

/-- `ofNodes_of_bake` for `Graph.unsorted`. -/
theorem ofNodes_of_bake_unsorted :
    ∃ r, bake .unsorted .standard = .ok r ∧ Graph.unsorted.nodes.size < 2147483648 ∧
      BakedTree.ofNodes r.tree.nodes r.tree.ids = .ok r.tree ∧
      IsTree r.tree.nodes r.tree.ids := by
  obtain ⟨r, hr⟩ := Graph.exists_bake_unsorted .standard
  have hsize : Graph.unsorted.nodes.size < 2147483648 := by decide
  exact ⟨r, hr, hsize, ofNodes_of_bake hr hsize⟩

end BehaviorTree
