import BehaviorTree.Proofs.Bake.Meaning

/-!
# Where nodes are placed

`placement_of_bake`: the records of a baked tree are those of the nodes of its graph, one for each,
the first node without a parent in front and the others in authored order. Its id entries number
the ids of the graph (`BakedTree.Numbers`), so that to look up an index and to look up an id are
inverse to each other (`indexOf?_eq_some_iff`, `idOf?_eq_some_iff`).
-/

namespace BehaviorTree

open Bake

/-- The id entries of a tree number the ids of a set with its indices, one to one, and both ways to
look them up read the entries. -/
structure BakedTree.Numbers (t : BakedTree) (ids : Set String) : Prop where
  unrepeated : t.ids.toList.Nodup
  mem_ids : ∀ id i, ⟨id, i⟩ ∈ t.ids ↔ t.indexOf? id = some i
  inverse : ∀ id i, t.indexOf? id = some i ↔ t.idOf? i = some id
  bijOn : Set.BijOn t.indexOf? ids (some '' Set.Iio t.size)
  other : ∀ id ∉ ids, t.indexOf? id = none

namespace Graph

variable {g : Graph} {root : Fin g.nodes.size} {t : BakedTree} {id : String} {i : Nat}

/-! ## Looking up -/

theorem mem_bakedIds_iff :
    ⟨id, i⟩ ∈ g.bakedIds root ↔ ∃ p, (g.node p).id = id ∧ bakedIndex root p = i := by
  rw [mem_bakedIds]
  refine exists_congr fun p => ?_
  rw [IdEntry.mk.injEq, eq_comm, @eq_comm _ i]

/-- The id entries come in the order of their indices. -/
theorem map_index_bakedIds (root : Fin g.nodes.size) :
    (g.bakedIds root).toList.map (·.index) = List.range g.nodes.size := by
  have hindex : ((bakedOrder root).toArray.zipIdx.toList).map Prod.snd =
      List.range g.nodes.size := by
    rw [Array.toList_zipIdx, List.zipIdx_map_snd, length_bakedOrder, List.range_eq_range']
  rw [bakedIds, Array.toList_map, List.map_map, ← hindex]
  rfl

theorem indexOf?_eq_some_iff (hu : g.UniqueIds) (hids : t.ids = g.bakedIds root) :
    t.indexOf? id = some i ↔ ∃ p, (g.node p).id = id ∧ bakedIndex root p = i := by
  constructor
  · intro h
    obtain ⟨e, he, rfl⟩ := Option.map_eq_some_iff.1 h
    have hid : e.id = id := by simpa using Array.find?_some he
    have hmem := Array.mem_of_find?_eq_some he
    rw [hids, ← hid] at *
    exact mem_bakedIds_iff.1 hmem
  · rintro ⟨p, rfl, rfl⟩
    exact indexOf?_bakedIds hu hids p

theorem idOf?_eq_some_iff (hids : t.ids = g.bakedIds root) :
    t.idOf? i = some id ↔ ∃ p, (g.node p).id = id ∧ bakedIndex root p = i := by
  rw [idOf?_eq_idAt? hids, idAt?_eq, Option.map_eq_some_iff]
  exact exists_congr fun p => by rw [getElem?_bakedOrder_iff, and_comm]

theorem numbers_of_bakedIds (hu : g.UniqueIds) (hids : t.ids = g.bakedIds root)
    (hsize : t.size = g.nodes.size) : t.Numbers {id | g.HasId id} where
  unrepeated := by
    refine List.Nodup.of_map (·.index) ?_
    rw [hids, map_index_bakedIds]
    exact List.nodup_range
  mem_ids id i := by rw [hids, mem_bakedIds_iff, indexOf?_eq_some_iff hu hids]
  inverse id i := by rw [indexOf?_eq_some_iff hu hids, idOf?_eq_some_iff hids]
  bijOn := by
    refine ⟨fun id hid => ?_, fun id hid id' hid' heq => ?_, ?_⟩
    · obtain ⟨p, rfl⟩ := hasId_iff.1 hid
      exact ⟨_, lt_of_lt_of_eq (bakedIndex_lt root p) hsize.symm,
        (indexOf?_bakedIds hu hids p).symm⟩
    · obtain ⟨p, rfl⟩ := hasId_iff.1 hid
      obtain ⟨q, rfl⟩ := hasId_iff.1 hid'
      rw [indexOf?_bakedIds hu hids, indexOf?_bakedIds hu hids, Option.some.injEq,
        bakedIndex_inj] at heq
      rw [heq]
    · rintro _ ⟨i, hi, rfl⟩
      obtain ⟨p, rfl⟩ := exists_bakedIndex_eq root (lt_of_lt_of_eq hi hsize)
      exact ⟨_, hasId_iff.2 ⟨p, rfl⟩, indexOf?_bakedIds hu hids p⟩
  other id hid := by
    refine Option.eq_none_iff_forall_ne_some.2 fun i hi => hid ?_
    obtain ⟨p, hp, -⟩ := (indexOf?_eq_some_iff hu hids).1 hi
    exact hasId_iff.2 ⟨p, hp⟩

end Graph

/-! ## Placement -/

/-- Baking loses no node and adds none. The tree of a graph has as many records as the graph has
nodes. Index 0 has the first node that no edge leads to, and the others follow as authored. The id
entries number the ids of the graph, and no others; and under the index of an id stands a record
with the slots that the node of that id resolves to. -/
theorem placement_of_bake {g : Graph} {catalog : Catalog} {r : BakeResult}
    (h : bake g catalog = .ok r) (hpos : 0 < g.nodes.size) :
    r.tree.size = g.nodes.size ∧
    (∃ root : Fin g.nodes.size,
      ((¬ ∃ a, g.Resolves a (g.node root).id) ∧
        ∀ q < root, ∃ a, g.Resolves a (g.node q).id) ∧
      ∀ i, r.tree.idOf? i =
        (root :: (List.finRange g.nodes.size).erase root)[i]?.map fun p => (g.node p).id) ∧
    r.tree.Numbers {id | g.HasId id} ∧
    ∀ node ∈ g.nodes, ∃ i n, r.tree.indexOf? node.id = some i ∧ r.tree.get? i = some n ∧
      n.SameSlots (resolveNode catalog node).1 := by
  obtain ⟨positions, hpositions, ⟨hzero, -⟩ | ⟨root, hroot, hr⟩⟩ :=
    (Graph.bake_ends g catalog).of_ok h
  · omega
  have hids : r.tree.ids = g.bakedIds root := by rw [hr]; rfl
  have hsize : r.tree.size = g.nodes.size := by
    rw [BakedTree.size, hr, Graph.size_compile]
  refine ⟨hsize, ⟨root, ?_, fun i => ?_⟩, Graph.numbers_of_bakedIds hroot.uniqueIds hids hsize, ?_⟩
  · exact (Graph.root?_eq_some_iff hroot.uniqueIds).1 hroot.root?
  · rw [Graph.idOf?_eq_idAt? hids, Graph.idAt?, Graph.rootFirst]
  · intro node hnode
    obtain ⟨k, hk, rfl⟩ := Array.mem_iff_getElem.1 hnode
    exact Graph.exists_record_of_bake h ⟨k, hk⟩

/-- `placement_of_bake` for `Graph.unsorted`, whose root is its third node. -/
theorem placement_of_bake_unsorted :
    ∃ r, bake .unsorted .standard = .ok r ∧ 0 < Graph.unsorted.nodes.size ∧ r.tree.size = 4 ∧
      (List.range 5).map r.tree.idOf? =
        [some "root", some "wait", some "guard", some "step", none] ∧
      r.tree.Numbers {id | Graph.unsorted.HasId id} ∧
      ∀ node ∈ Graph.unsorted.nodes, ∃ i n, r.tree.indexOf? node.id = some i ∧
        r.tree.get? i = some n ∧ n.SameSlots (resolveNode .standard node).1 := by
  obtain ⟨r, hr⟩ := Graph.exists_bake_unsorted .standard
  have hpos : 0 < Graph.unsorted.nodes.size := by decide
  obtain ⟨hsize, ⟨root, hroot, hidOf⟩, hnumbers, hslots⟩ := placement_of_bake hr hpos
  have hthird : Graph.unsorted.root? = some ⟨2, by decide⟩ := by cbv
  rw [(Graph.root?_eq_some_iff (by decide)).2 hroot, Option.some.injEq] at hthird
  subst hthird
  refine ⟨r, hr, hpos, hsize, ?_, hnumbers, hslots⟩
  rw [funext hidOf]
  cbv

end BehaviorTree
