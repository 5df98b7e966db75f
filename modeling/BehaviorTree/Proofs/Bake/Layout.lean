import BehaviorTree.Proofs.Bake.Meaning
import BehaviorTree.Proofs.Tick.Layout

/-!
# Graphs of one tree

`Graph.Extends g' g`: `g'` has the nodes of `g`, and from these the same edges leave to the same
nodes. If both are baked and the same node is the first root, the map from the baked indices of `g`
to those of `g'` carries the one tree into the other (`Extends.carries`). Two ways to come to such a
graph keep it baked: to reorder the nodes (`exists_bake_of_perm`), and to put a graph that is apart
behind the root (`exists_bake_of_insert`).

`ticks_of_layout`: ticks depend on the shape of a tree and not on its layout.
-/

namespace BehaviorTree

open Relation Bake Machine

namespace Graph

variable {g g' more : Graph} {catalog : Catalog}

/-! ## A graph in another one -/

/-- A graph has the nodes of another one, and from these the same edges leave to the same nodes. -/
structure Extends (g' g : Graph) : Prop where
  nodes : ∀ n ∈ g.nodes, n ∈ g'.nodes
  edges : ∀ n ∈ g.nodes, g'.edges.toList.filter (·.fromId = n.id) =
    g.edges.toList.filter (·.fromId = n.id)
  closed : ∀ n ∈ g.nodes, ∀ e ∈ g.edges, e.fromId = n.id → g'.HasId e.toId → g.HasId e.toId

/-- The id of the first node that no edge leads to. -/
def rootId? (g : Graph) : Option String := g.root?.map fun p => (g.node p).id

theorem node_mem (p : Fin g.nodes.size) : g.node p ∈ g.nodes := Array.getElem_mem p.2

namespace Extends

/-- The positions of the nodes in the greater graph. -/
theorem exists_position (h : g'.Extends g) :
    ∃ φ : Fin g.nodes.size → Fin g'.nodes.size, ∀ p, g'.node (φ p) = g.node p := by
  refine Classical.axiomOfChoice (r := fun p q => g'.node q = g.node p) fun p => ?_
  obtain ⟨i, hi, heq⟩ := Array.mem_iff_getElem.1 (h.nodes _ (node_mem p))
  exact ⟨⟨i, hi⟩, heq⟩

variable (h : g'.Extends g) (hu : g.UniqueIds) (hu' : g'.UniqueIds)
  {φ : Fin g.nodes.size → Fin g'.nodes.size} (hφ : ∀ p, g'.node (φ p) = g.node p)
include h hu hu' hφ

omit h hu' in
theorem position_injective {p q : Fin g.nodes.size} : φ p = φ q ↔ p = q :=
  ⟨fun heq => hu p q (by rw [← hφ p, ← hφ q, heq]), fun heq => by rw [heq]⟩

theorem linkOf?_position {p : Fin g.nodes.size} {e : AuthoredEdge} (he : e ∈ g.edges) :
    g'.linkOf? (φ p) e = (g.linkOf? p e).map fun link => ⟨φ link.child, link.port⟩ := by
  ext link'
  rw [linkOf?_eq_some_iff hu', hφ, Option.map_eq_some_iff]
  constructor
  · rintro ⟨hfrom, hto, hport⟩
    obtain ⟨c, hc⟩ := hasId_iff.1
      (h.closed _ (node_mem p) e he hfrom (hasId_iff.2 ⟨link'.child, hto.symm⟩))
    have hchild : φ c = link'.child := hu' _ _ (by rw [hφ, hc, hto])
    refine ⟨⟨c, link'.port⟩, (linkOf?_eq_some_iff hu).2 ⟨hfrom, hc.symm, hport⟩, ?_⟩
    rw [hchild]
  · rintro ⟨link, hlink, rfl⟩
    obtain ⟨hfrom, hto, hport⟩ := (linkOf?_eq_some_iff hu).1 hlink
    exact ⟨hfrom, by rw [hφ, hto], hport⟩

theorem linksOf_position (p : Fin g.nodes.size) :
    g'.linksOf (φ p) = (g.linksOf p).map fun link => ⟨φ link.child, link.port⟩ := by
  -- an edge that does not leave from the node makes no link
  have hfilter : ∀ (g : Graph) (p : Fin g.nodes.size), g.edges.toList.filterMap (g.linkOf? p) =
      (g.edges.toList.filter (·.fromId = (g.node p).id)).filterMap (g.linkOf? p) := by
    intro g p
    rw [List.filterMap_filter]
    refine List.filterMap_congr fun e _ => ?_
    unfold linkOf?
    split <;> simp_all
  have hedges : g'.edges.toList.filterMap (g'.linkOf? (φ p)) =
      (g.edges.toList.filterMap (g.linkOf? p)).map fun link => ⟨φ link.child, link.port⟩ := by
    rw [hfilter g', hφ, h.edges _ (node_mem p), hfilter g, List.map_filterMap]
    refine List.filterMap_congr fun e he => ?_
    exact h.linkOf?_position hu hu' hφ (Array.mem_toList_iff.1 (List.mem_filter.1 he).1)
  have hsame : ∀ a b : Link g.nodes.size,
      Link.child (⟨φ a.child, a.port⟩ : Link g'.nodes.size) = Link.child ⟨φ b.child, b.port⟩ ↔
        a.child = b.child := fun a b => position_injective hu hφ
  exact (congrArg (firsts Link.child) hedges).trans (firsts_map hsame _)

theorem childrenOf_position (p : Fin g.nodes.size) :
    g'.childrenOf (φ p) = (g.childrenOf p).map φ := by
  have hle : ∀ a ∈ g.linksOf p, ∀ b ∈ g.linksOf p, decide (g.linkRank a ≤ g.linkRank b) =
      decide (g'.linkRank ⟨φ a.child, a.port⟩ ≤ g'.linkRank ⟨φ b.child, b.port⟩) := by
    have hrank : ∀ link : Link g.nodes.size,
        g'.linkRank ⟨φ link.child, link.port⟩ = g.linkRank link := by simp [linkRank, hφ]
    intro a _ b _
    rw [hrank, hrank]
  rw [childrenOf, childrenOf, h.linksOf_position hu hu' hφ, ← List.map_mergeSort hle,
    List.map_map, List.map_map]
  rfl

end Extends

end Graph

/-! ## Baked trees -/

namespace BakedTree

/-- What ticks come to, with the nodes of their traces by their authored ids. -/
def namedTicks {ε : Type} (t : BakedTree) (actions : ActionTable ε) (root : Int32) (w : World ε)
    (dts : List Float32) : List (Status × World ε × List (Option String × Status)) :=
  (t.ticks actions root w dts).map fun o => (o.status, o.world, o.seen.resolve t)

end BakedTree

theorem Trace.resolve_relabel {t t' : BakedTree} {place : Nat → Nat}
    (h : ∀ i, t'.idOf? (place i) = t.idOf? i) (trace : Trace) :
    (trace.relabel place).resolve t' = trace.resolve t := by
  simp [Trace.relabel, Trace.resolve, h]

namespace Graph

variable {g g' more : Graph} {catalog : Catalog} {t t' : BakedTree}

namespace Extends

section
variable {root : Fin g.nodes.size} {root' : Fin g'.nodes.size}
  {φ : Fin g.nodes.size → Fin g'.nodes.size}

/-- Where a baked index of a graph goes in the greater one; other indices go out of it. -/
noncomputable def place (root : Fin g.nodes.size) (root' : Fin g'.nodes.size)
    (φ : Fin g.nodes.size → Fin g'.nodes.size) : Nat → Nat :=
  Function.extend (bakedIndex root) (fun p => bakedIndex root' (φ p)) fun _ => g'.nodes.size

theorem place_bakedIndex (p : Fin g.nodes.size) :
    place root root' φ (bakedIndex root p) = bakedIndex root' (φ p) :=
  (bakedIndex_injective root).extend_apply _ _ p

variable (h : g'.Extends g) (hc : g.Compiled catalog root t.nodes)
  (hc' : g'.Compiled catalog root' t'.nodes) (hφ : ∀ p, g'.node (φ p) = g.node p)
include hφ

theorem idOf?_place (hids : t.ids = g.bakedIds root) (hids' : t'.ids = g'.bakedIds root')
    (i : Nat) : t'.idOf? (place root root' φ i) = t.idOf? i := by
  rw [idOf?_eq_idAt? hids, idOf?_eq_idAt? hids', idAt?_eq, idAt?_eq]
  by_cases hi : ∃ p, bakedIndex root p = i
  · obtain ⟨p, rfl⟩ := hi
    rw [place_bakedIndex, getElem?_bakedOrder, getElem?_bakedOrder, Option.map_some,
      Option.map_some, hφ]
  · have hlen : g.nodes.size ≤ i := by
      by_contra hlt
      exact hi (exists_bakedIndex_eq root (not_le.1 hlt))
    rw [place, Function.extend_apply' _ _ _ hi, List.getElem?_eq_none (by simp),
      List.getElem?_eq_none (by simpa)]
    rfl

include h hc hc'

/-- The tree of a graph is carried into that of a greater one with the same root. -/
theorem carries (hroot : φ root = root') : t.Carries (place root root' φ) 0 t' 0 where
  start := by
    refine ⟨0, hc.isForest.nonempty, rfl, ?_⟩
    rw [← bakedIndex_root root, place_bakedIndex, hroot, bakedIndex_root]
    rfl
  record := by
    rintro i n ⟨-, hn⟩
    obtain ⟨p, rfl, rfl⟩ := hc.exists_node hn
    refine ⟨_, place_bakedIndex p ▸ hc'.record (φ p), ?_⟩
    have hslots := (g'.bakedRecord catalog root' (φ p)).sameSlots_unlinked
    rw [unlinked_bakedRecord, hφ, ← unlinked_bakedRecord catalog root p] at hslots
    exact ⟨hslots.kind.symm, hslots.ints.symm, hslots.floats.symm⟩
  children := by
    rintro i ⟨r, hr, hri⟩
    cases hr
    have hi : i < t.nodes.size := by
      rcases hri.cases_tail with rfl | ⟨j, -, hij⟩
      · exact hc.isForest.nonempty
      · exact hc.isForest.child_lt hij
    obtain ⟨p, rfl⟩ := hc.exists_position hi
    rw [place_bakedIndex, hc'.children_bakedIndex, hc.children_bakedIndex,
      h.childrenOf_position hc.rooted.uniqueIds hc'.rooted.uniqueIds hφ, List.map_map, List.map_map]
    exact List.map_congr_left fun c _ => (place_bakedIndex c).symm

end

/-- The tree of a graph ticks like that of a greater one with the same root. -/
theorem namedTicks {ε : Type} (h : g'.Extends g) {r r' : BakeResult}
    (hr : bake g catalog = .ok r) (hr' : bake g' catalog = .ok r') (hpos : 0 < g.nodes.size)
    (hsize : g.nodes.size < 2147483648) (hsize' : g'.nodes.size < 2147483648)
    (hroot : g'.rootId? = g.rootId?) (hno : r.tree.RepeatsNothing 0) {actions : ActionTable ε}
    (hactions : actions.IgnoresLayout) (w : World ε) (dts : List Float32) :
    r'.tree.namedTicks actions 0 w dts = r.tree.namedTicks actions 0 w dts := by
  have hpos' : 0 < g'.nodes.size := by
    obtain ⟨φ, -⟩ := h.exists_position
    exact (φ ⟨0, hpos⟩).pos
  obtain ⟨root, hc, hids⟩ := compiled_of_bake hr hpos hsize
  obtain ⟨root', hc', hids'⟩ := compiled_of_bake hr' hpos' hsize'
  obtain ⟨φ, hφ⟩ := h.exists_position
  rw [rootId?, rootId?, hc.rooted.root?, hc'.rooted.root?] at hroot
  have hstart : φ root = root' :=
    hc'.rooted.uniqueIds _ _ (by rw [hφ]; exact (Option.some.inj hroot).symm)
  have hticks := (h.carries hc hc' hφ hstart).ticks hc.isForest hc'.isForest hno hactions w dts
  rw [BakedTree.namedTicks, BakedTree.namedTicks, hticks, List.map_map]
  refine List.map_congr_left fun o _ => ?_
  have hseen := Trace.resolve_relabel (idOf?_place hφ hids hids') o.seen
  simp only [Function.comp_apply, Outcome.relabel, hseen]

end Extends

/-! ## Graphs side by side -/

/-- No edge of a graph names a node of another one. -/
def Ignores (g more : Graph) : Prop := ∀ e ∈ g.edges, ¬ more.HasId e.fromId ∧ ¬ more.HasId e.toId

/-- Two graphs share no id, and no edge of one names a node of the other. -/
structure Apart (g more : Graph) : Prop where
  ids : ∀ id, g.HasId id → ¬ more.HasId id
  ignores : g.Ignores more
  ignored : more.Ignores g

/-- The nodes of a graph are those of two others, in any order, and the edges those of the first
one and then those of the second one. -/
structure Unites (g' g more : Graph) : Prop where
  nodes : g'.nodes.toList.Perm (g.nodes.toList ++ more.nodes.toList)
  edges : g'.edges = g.edges ++ more.edges

theorem Unites.size_eq (h : g'.Unites g more) :
    g'.nodes.size = g.nodes.size + more.nodes.size := by
  simpa using h.nodes.length_eq

theorem toList_nodes (g : Graph) :
    g.nodes.toList = (List.finRange g.nodes.size).map g.node := by
  apply List.ext_getElem <;> simp [node]

theorem uniqueIds_iff_nodup : g.UniqueIds ↔ (g.nodes.toList.map (·.id)).Nodup := by
  rw [toList_nodes, List.map_map, List.nodup_map_iff_inj_on (List.nodup_finRange _)]
  simp [UniqueIds]

namespace Unites

variable (h : g'.Unites g more)
include h

theorem mem_nodes {n : AuthoredNode} : n ∈ g'.nodes ↔ n ∈ g.nodes ∨ n ∈ more.nodes := by
  rw [← Array.mem_toList_iff, h.nodes.mem_iff, List.mem_append, Array.mem_toList_iff,
    Array.mem_toList_iff]

theorem hasId_iff {id : String} : g'.HasId id ↔ g.HasId id ∨ more.HasId id := by
  simp only [HasId, h.mem_nodes, or_and_right, exists_or]

variable (ha : g.Apart more)
include ha

theorem resolves_iff {a b : String} : g'.Resolves a b ↔ g.Resolves a b ∨ more.Resolves a b := by
  simp only [Resolves, h.hasId_iff, h.edges, Array.mem_append]
  constructor
  · rintro ⟨hfrom, hto, e, he | he, rfl, rfl⟩
    · obtain ⟨hnfrom, hnto⟩ := ha.ignores e he
      exact .inl ⟨hfrom.resolve_right hnfrom, hto.resolve_right hnto, e, he, rfl, rfl⟩
    · obtain ⟨hnfrom, hnto⟩ := ha.ignored e he
      exact .inr ⟨hfrom.resolve_left hnfrom, hto.resolve_left hnto, e, he, rfl, rfl⟩
  · rintro (⟨hfrom, hto, e, he, heq⟩ | ⟨hfrom, hto, e, he, heq⟩)
    · exact ⟨.inl hfrom, .inl hto, e, .inl he, heq⟩
    · exact ⟨.inr hfrom, .inr hto, e, .inr he, heq⟩

theorem extends_left : g'.Extends g where
  nodes n hn := h.mem_nodes.2 (.inl hn)
  edges n hn := by
    rw [h.edges, Array.toList_append, List.filter_append]
    refine List.append_right_eq_self.2 (List.filter_eq_nil_iff.2 fun e he heq => ?_)
    exact (ha.ignored e (Array.mem_toList_iff.1 he)).1 ⟨n, hn, (of_decide_eq_true heq).symm⟩
  closed n _ e he _ hto := (h.hasId_iff.1 hto).resolve_right (ha.ignores e he).2

/-- Two graphs that are baked are baked side by side. -/
theorem exists_bake {r s : BakeResult} (hr : bake g catalog = .ok r)
    (hs : bake more catalog = .ok s) : ∃ r', bake g' catalog = .ok r' := by
  obtain ⟨hu, hac, hone⟩ := forest_of_bake hr
  obtain ⟨hu', hac', hone'⟩ := forest_of_bake hs
  have hresolves : g'.Resolves = fun a b => g.Resolves a b ∨ more.Resolves a b := by
    funext a b
    exact propext (h.resolves_iff ha)
  refine exists_bake_of_resolves catalog ?_ ?_ ?_
  · rw [uniqueIds_iff_nodup, (h.nodes.map _).nodup_iff, List.map_append]
    refine List.nodup_append.2 ⟨uniqueIds_iff_nodup.1 hu, uniqueIds_iff_nodup.1 hu', ?_⟩
    simp only [List.mem_map, Array.mem_toList_iff]
    rintro _ ⟨n, hn, rfl⟩ _ ⟨m, hm, rfl⟩ heq
    exact ha.ids _ ⟨n, hn, rfl⟩ ⟨m, hm, heq.symm⟩
  · rw [hresolves]
    exact hac.or hac' (fun a b c hab hbc => ha.ids b hab.2.1 hbc.1)
      fun a b c hab hbc => ha.ids b hbc.1 hab.2.1
  · rw [hresolves]
    rintro a b c (hac | hac) (hbc | hbc)
    · exact hone hac hbc
    · exact (ha.ids c hac.2.1 hbc.2.1).elim
    · exact (ha.ids c hbc.2.1 hac.2.1).elim
    · exact hone' hac hbc

end Unites

/-! ## The first root -/

/-- The graph with the nodes of another one put in at a position, and its edges added. -/
def insertAt (g : Graph) (k : Nat) (more : Graph) : Graph where
  nodes := (g.nodes.toList.take k ++ more.nodes.toList ++ g.nodes.toList.drop k).toArray
  edges := g.edges ++ more.edges

theorem unites_insertAt (g : Graph) (k : Nat) (more : Graph) :
    (g.insertAt k more).Unites g more where
  nodes := by
    have hperm := (@List.perm_append_comm _ more.nodes.toList (g.nodes.toList.drop k)).append_left
      (g.nodes.toList.take k)
    rwa [← List.append_assoc, ← List.append_assoc, List.take_append_drop] at hperm
  edges := rfl

theorem node_insertAt {k i : Nat} (hk : i < k) (hi : i < g.nodes.size)
    (hi' : i < (g.insertAt k more).nodes.size) :
    (g.insertAt k more).node ⟨i, hi'⟩ = g.node ⟨i, hi⟩ := by
  simp [node, insertAt, hk, hi]

/-- What is put in behind the first root leaves it the first root. -/
theorem rootId?_insertAt (ha : g.Apart more) (hu : g.UniqueIds) {k : Nat}
    (hu' : (g.insertAt k more).UniqueIds) {root : Fin g.nodes.size} (hroot : g.root? = some root)
    (hk : root.1 < k) : (g.insertAt k more).rootId? = g.rootId? := by
  have hunites := g.unites_insertAt k more
  have hsize : g.nodes.size ≤ (g.insertAt k more).nodes.size :=
    hunites.size_eq ▸ Nat.le_add_right ..
  have hparents : ∀ p : Fin g.nodes.size,
      (∃ a, (g.insertAt k more).Resolves a (g.node p).id) ↔ ∃ a, g.Resolves a (g.node p).id := by
    refine fun p => exists_congr fun a => ?_
    rw [hunites.resolves_iff ha, or_iff_left]
    exact fun hmore => ha.ids _ ⟨_, node_mem p, rfl⟩ hmore.2.1
  have hnode : ∀ (p : Fin g.nodes.size), p ≤ root →
      (g.insertAt k more).node (p.castLE hsize) = g.node p :=
    fun p hp => node_insertAt (lt_of_le_of_lt hp hk) p.2 _
  obtain ⟨hnone, hbefore⟩ := (root?_eq_some_iff hu).1 hroot
  have hroot' : (g.insertAt k more).root? = some (root.castLE hsize) := by
    rw [root?_eq_some_iff hu', hnode root le_rfl, hparents]
    refine ⟨hnone, fun q hq => ?_⟩
    have hq' : (⟨q.1, lt_trans hq root.2⟩ : Fin g.nodes.size) < root := hq
    have heq := hnode ⟨q.1, lt_trans hq root.2⟩ hq'.le
    rw [show q = Fin.castLE hsize ⟨q.1, lt_trans hq root.2⟩ from rfl, heq, hparents]
    exact hbefore _ hq'
  rw [rootId?, rootId?, hroot, hroot', Option.map_some, Option.map_some, hnode root le_rfl]

end Graph

theorem BakedTree.repeatsNothing_of_bake {g : Graph} {catalog : Catalog} {r : BakeResult}
    (h : bake g catalog = .ok r) (hpos : 0 < g.nodes.size) (hsize : g.nodes.size < 2147483648)
    (hkinds : ∀ p, (resolveNode catalog (g.node p)).1.kind ≠ .repeater) :
    r.tree.RepeatsNothing 0 := by
  obtain ⟨root, hc, -⟩ := Graph.compiled_of_bake h hpos hsize
  rintro i n ⟨-, hn⟩
  obtain ⟨p, rfl, rfl⟩ := hc.exists_node hn
  have hkind := (g.bakedRecord catalog root p).sameSlots_unlinked.kind
  rw [Graph.unlinked_bakedRecord] at hkind
  exact hkind ▸ hkinds p

/-! ## Ticks -/

open BakedTree in
/-- Ticks depend on the shape of a tree and not on its layout, where no repeater counts and no
action looks at indices and links. A map that carries one accepted tree into another, as `Carries`
says, tells nodes apart, and carries the traces of any number of ticks into those of the other tree;
statuses, memory and environments are the same. So a graph that is baked is still baked, and its
tree ticks the same, when its nodes are reordered with the same first root, and when a graph apart
that can be baked is put in behind the root. -/
theorem ticks_of_layout {ε : Type} {actions : ActionTable ε} (hactions : actions.IgnoresLayout)
    (w : World ε) (dts : List Float32) :
    (∀ {nodes nodes' : Array BakedNode} {ids ids' : Array IdEntry} {t t' : BakedTree}
        {root root' : Int32} {place : Nat → Nat},
      ofNodes nodes ids = .ok t → ofNodes nodes' ids' = .ok t' →
      Carries place t root t' root' → t.RepeatsNothing root →
      t'.ticks actions root' w dts = (t.ticks actions root w dts).map (·.relabel place) ∧
        Set.InjOn place {i | t.Reaches root i}) ∧
    ∀ {g : Graph} {catalog : Catalog} {r : BakeResult}, bake g catalog = .ok r →
      r.tree.RepeatsNothing 0 →
      (∀ g' : Graph, g'.nodes.toList.Perm g.nodes.toList → g'.edges = g.edges →
        g'.rootId? = g.rootId? → 0 < g.nodes.size → g.nodes.size < 2147483648 →
        ∃ r', bake g' catalog = .ok r' ∧
          r'.tree.namedTicks actions 0 w dts = r.tree.namedTicks actions 0 w dts) ∧
      ∀ (more : Graph) (s : BakeResult) (root : Fin g.nodes.size) (k : Nat),
        bake more catalog = .ok s → g.Apart more → g.root? = some root → root.1 < k →
        (g.insertAt k more).nodes.size < 2147483648 →
        ∃ r', bake (g.insertAt k more) catalog = .ok r' ∧
          r'.tree.namedTicks actions 0 w dts = r.tree.namedTicks actions 0 w dts := by
  refine ⟨?_, ?_⟩
  · intro nodes nodes' ids ids' t t' root root' place ht ht' hcarries hno
    have hf : IsForest t.nodes := forest_of_ofNodes ht
    have hf' : IsForest t'.nodes := forest_of_ofNodes ht'
    exact ⟨hcarries.ticks hf hf' hno hactions w dts,
      fun i hi j hj => hcarries.injective hf hf' hi hj⟩
  · intro g catalog r hr hno
    refine ⟨?_, ?_⟩
    · intro g' hnodes hedges hroot hpos hsize
      have hunites : g'.Unites g {} := ⟨by simpa using hnodes, by simp [hedges]⟩
      have hapart : g.Apart {} := by
        refine ⟨?_, ?_, ?_⟩ <;> simp [Graph.HasId, Graph.Ignores]
      obtain ⟨s, hs⟩ : ∃ s, bake {} catalog = .ok s := ⟨_, rfl⟩
      obtain ⟨r', hr'⟩ := hunites.exists_bake hapart hr hs
      have hsize' : g'.nodes.size < 2147483648 := by
        rw [hunites.size_eq]
        exact hsize
      exact ⟨r', hr', (hunites.extends_left hapart).namedTicks hr hr' hpos hsize hsize' hroot hno
        hactions w dts⟩
    · intro more s root k hs hapart hroot hk hsize'
      have hunites := g.unites_insertAt k more
      obtain ⟨r', hr'⟩ := hunites.exists_bake hapart hr hs
      have hsize : g.nodes.size < 2147483648 := by
        rw [hunites.size_eq] at hsize'
        omega
      have hrootId := Graph.rootId?_insertAt hapart (Graph.forest_of_bake hr).1
        (Graph.forest_of_bake hr').1 hroot hk
      exact ⟨r', hr', (hunites.extends_left hapart).namedTicks hr hr' root.pos hsize hsize' hrootId
        hno hactions w dts⟩

/-- A guard above an action, beside a leaf that arms the guard. -/
def BakedTree.sheltered : BakedTree where
  nodes := #[
    { kind := .parallel, firstChild := 2 },
    .setBlackboard 7 1,
    { BakedNode.interrupt 7 with firstChild := 3, nextSibling := 1 },
    .action 5]
  ids := #[⟨"guard", 2⟩, ⟨"root", 0⟩]

/-- `sheltered` in another order, behind a root of its own. -/
def BakedTree.spread : BakedTree where
  nodes := #[
    {},
    { kind := .parallel, firstChild := 4 },
    .action 5,
    .setBlackboard 7 1,
    { BakedNode.interrupt 7 with firstChild := 2, nextSibling := 3 }]
  ids := #[⟨"root", 1⟩]

theorem BakedTree.carries_spread : Carries ([1, 3, 4, 2].getD · 0) sheltered 0 spread 1 where
  start := ⟨0, by decide, by decide, by decide⟩
  record := by
    rintro i n ⟨-, hn⟩
    match i with
    | 0 | 1 | 2 | 3 =>
      cases hn
      exact ⟨_, rfl, rfl, rfl, rfl⟩
    | i + 4 => cases hn
  children i _ := by
    match i with
    | 0 | 1 | 2 | 3 => decide
    | i + 4 => rfl

/-- A graph of one node. -/
def Graph.spare : Graph := { nodes := #[{ id := "spare", type := "Wait" }] }

theorem Graph.exists_bake_spare (catalog : Catalog) : ∃ s, bake .spare catalog = .ok s :=
  exists_bake_of_rank catalog (fun _ => 0) (by decide) (by decide) (by decide)

theorem Graph.unsorted_apart_spare : Graph.unsorted.Apart .spare where
  ids := by
    have hids : ∀ n ∈ unsorted.nodes, ∀ m ∈ spare.nodes, m.id ≠ n.id := by decide
    rintro id ⟨n, hn, rfl⟩ ⟨m, hm, heq⟩
    exact hids n hn m hm heq
  ignores := by
    have hids : ∀ e ∈ unsorted.edges, ∀ m ∈ spare.nodes, m.id ≠ e.fromId ∧ m.id ≠ e.toId := by
      decide
    exact fun e he => ⟨fun ⟨m, hm, heq⟩ => (hids e he m hm).1 heq,
      fun ⟨m, hm, heq⟩ => (hids e he m hm).2 heq⟩
  ignored := by simp [Ignores, spare]

theorem Graph.kind_unsorted (p : Fin Graph.unsorted.nodes.size) :
    (resolveNode .empty (Graph.unsorted.node p)).1.kind ≠ .repeater := by
  have hkinds : ∀ n ∈ unsorted.nodes, (resolveNode .empty n).1.kind ≠ .repeater := by
    intro n hn
    simp only [unsorted, List.mem_toArray, List.mem_cons, List.not_mem_nil, or_false] at hn
    rcases hn with rfl | rfl | rfl | rfl <;> cbv <;> decide
  exact hkinds _ (node_mem p)

set_option maxRecDepth 1000 in
theorem Graph.rootId?_reversed :
    ({ unsorted with nodes := unsorted.nodes.reverse } : Graph).rootId? = unsorted.rootId? := by
  cbv

/-- `ticks_of_layout` from `sheltered` to `spread`, and for `Graph.unsorted` with its nodes in
another order and with a node put in behind its root. -/
theorem ticks_of_layout_sheltered :
    let actions : ActionTable Nat := ActionTable.empty.registerKey 5 fun _ ctx w =>
      (.success, ⟨w.blackboard.set 9 ctx.deltaTime, w.env + 1⟩)
    let w : World Nat := ⟨.empty, 0⟩
    let place : Nat → Nat := ([1, 3, 4, 2].getD · 0)
    let g := Graph.unsorted
    let reordered : Graph := { g with nodes := g.nodes.reverse }
    actions.IgnoresLayout ∧
      BakedTree.ofNodes BakedTree.sheltered.nodes BakedTree.sheltered.ids = .ok .sheltered ∧
      BakedTree.ofNodes BakedTree.spread.nodes BakedTree.spread.ids = .ok .spread ∧
      BakedTree.Carries place .sheltered 0 .spread 1 ∧ BakedTree.sheltered.RepeatsNothing 0 ∧
      BakedTree.spread.ticks actions 1 w [0.5, 0.25] =
        (BakedTree.sheltered.ticks actions 0 w [0.5, 0.25]).map (·.relabel place) ∧
      ∃ r, bake g .empty = .ok r ∧ r.tree.RepeatsNothing 0 ∧
        (reordered.nodes.toList.Perm g.nodes.toList ∧ reordered.rootId? = g.rootId? ∧
          ∃ r', bake reordered .empty = .ok r' ∧ r'.tree.namedTicks actions 0 w [0.5, 0.25] =
            r.tree.namedTicks actions 0 w [0.5, 0.25]) ∧
        g.Apart .spare ∧ g.root? = some ⟨2, by decide⟩ ∧
          ∃ r', bake (g.insertAt 3 .spare) .empty = .ok r' ∧
            r'.tree.namedTicks actions 0 w [0.5, 0.25] =
              r.tree.namedTicks actions 0 w [0.5, 0.25] := by
  intro actions w place g reordered
  have hactions : actions.IgnoresLayout :=
    ActionTable.ignoresLayout_empty.registerKey (fun _ _ _ _ _ _ _ => rfl) 5
  have ht : BakedTree.ofNodes BakedTree.sheltered.nodes BakedTree.sheltered.ids =
      .ok .sheltered := by cbv
  have ht' : BakedTree.ofNodes BakedTree.spread.nodes BakedTree.spread.ids = .ok .spread := by cbv
  have hno : BakedTree.sheltered.RepeatsNothing 0 := by
    rintro i n ⟨-, hn⟩
    have hkinds : ∀ n ∈ BakedTree.sheltered.nodes, n.kind ≠ .repeater := by decide
    exact hkinds n (Array.mem_of_getElem? hn)
  obtain ⟨r, hr⟩ := Graph.exists_bake_unsorted .empty
  obtain ⟨s, hs⟩ := Graph.exists_bake_spare .empty
  have hno' : r.tree.RepeatsNothing 0 :=
    BakedTree.repeatsNothing_of_bake hr (by decide) (by decide) Graph.kind_unsorted
  have hperm : reordered.nodes.toList.Perm g.nodes.toList := by
    rw [Array.toList_reverse]
    exact List.reverse_perm _
  have hroot : reordered.rootId? = g.rootId? := Graph.rootId?_reversed
  have hfirst : g.root? = some ⟨2, by decide⟩ := by cbv
  obtain ⟨hlayout, hgraphs⟩ := ticks_of_layout hactions w [0.5, 0.25]
  obtain ⟨hreorder, hinsert⟩ := hgraphs hr hno'
  exact ⟨hactions, ht, ht', BakedTree.carries_spread, hno,
    (hlayout ht ht' BakedTree.carries_spread hno).1, r, hr, hno',
    ⟨hperm, hroot, hreorder reordered hperm rfl hroot (by decide) (by decide)⟩,
    Graph.unsorted_apart_spare, hfirst,
    hinsert .spare s ⟨2, by decide⟩ 3 hs Graph.unsorted_apart_spare hfirst (by decide) (by decide)⟩

end BehaviorTree
