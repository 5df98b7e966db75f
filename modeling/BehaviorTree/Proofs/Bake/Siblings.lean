import BehaviorTree.Proofs.Bake.Meaning

/-!
# Children of baked nodes

`childIds_of_bake`: the children of a baked node are the nodes that its edges lead to, each once,
by the first edge that leads there, in the order of their ranks (`Graph.rank`): by the order of
the node, then by the port of the edge, both as signed numbers, then by the place of the edge.
A stable sort keeps the order of what it does not tell apart (`pairwise_mergeSort_of_pairwise`),
so the links of a node are numbered by their edges (`Graph.firstLinks`) before they are sorted.
-/

namespace BehaviorTree

open Bake

/-! ## Stable sorting -/

section
variable {α β : Type*} [LinearOrder β]

theorem rankLe_trans (rank : α → β) (a b c : α) (hab : decide (rank a ≤ rank b) = true)
    (hbc : decide (rank b ≤ rank c) = true) : decide (rank a ≤ rank c) = true :=
  decide_eq_true ((of_decide_eq_true hab).trans (of_decide_eq_true hbc))

theorem rankLe_total (rank : α → β) (a b : α) :
    (decide (rank a ≤ rank b) || decide (rank b ≤ rank a)) = true := by
  simpa using le_total (rank a) (rank b)

/-- A stable sort keeps the order of what it does not tell apart. -/
theorem pairwise_mergeSort_of_pairwise (rank : α → β) {R : α → α → Prop} {l : List α}
    (h : l.Pairwise R) :
    (l.mergeSort fun a b => rank a ≤ rank b).Pairwise fun a b =>
      rank a ≤ rank b ∧ (rank b ≤ rank a → R a b) := by
  have htrans := rankLe_trans rank
  have htotal := rankLe_total rank
  induction l with
  | nil => simp
  | cons a l ih =>
    obtain ⟨ha, hl⟩ := List.pairwise_cons.1 h
    -- `a` is put behind what sorts strictly before it, in front of all that it ties with
    obtain ⟨before, behind, hcons, hsplit, hbefore⟩ := List.mergeSort_cons htrans htotal a l
    have hsorted := List.pairwise_mergeSort htrans htotal (a :: l)
    have hrest := ih hl
    rw [hcons] at hsorted ⊢
    rw [hsplit] at hrest
    obtain ⟨hr₁, hr₂, hr₁₂⟩ := List.pairwise_append.1 hrest
    obtain ⟨-, hs₂, hs₁₂⟩ := List.pairwise_append.1 hsorted
    refine List.pairwise_append.2 ⟨hr₁, List.pairwise_cons.2 ⟨fun b hb => ?_, hr₂⟩, ?_⟩
    · have hmem : b ∈ l := List.mem_mergeSort.1 (hsplit ▸ List.mem_append_right _ hb)
      exact ⟨of_decide_eq_true ((List.pairwise_cons.1 hs₂).1 b hb), fun _ => ha b hmem⟩
    · intro b hb c hc
      rcases List.mem_cons.1 hc with rfl | hc
      · refine ⟨of_decide_eq_true (hs₁₂ b hb c List.mem_cons_self), fun hle => ?_⟩
        have := hbefore b hb
        simp [hle] at this
      · exact hr₁₂ b hb c hc

end

namespace Graph

variable {g : Graph} {p : Fin g.nodes.size}

/-! ## Ranks -/

/-- The edge at a place is the first that leads from one node to another. -/
def FirstEdge (g : Graph) (p c : Fin g.nodes.size) (k : Fin g.edges.size) : Prop :=
  (g.edges[k].fromId = (g.node p).id ∧ g.edges[k].toId = (g.node c).id) ∧
    ∀ j < k, ¬(g.edges[j].fromId = (g.node p).id ∧ g.edges[j].toId = (g.node c).id)

/-- The edge at a place. -/
def edge (g : Graph) (k : Fin g.edges.size) : AuthoredEdge := g.edges[k]

/-- The rank of a node among its siblings, by the edge that leads there. -/
def rank (g : Graph) (child : Fin g.nodes.size × Fin g.edges.size) : ℤ ×ₗ ℤ ×ₗ ℕ :=
  toLex ((g.node child.1).order.toInt, toLex (g.edges[child.2].fromPort.toInt, child.2.1))

/-! ## Links with the places of their edges -/

/-- The links that edges make from a node, each with the place of its edge. -/
def placedLinks (g : Graph) (p : Fin g.nodes.size) : List (Link g.nodes.size × Fin g.edges.size) :=
  (List.finRange g.edges.size).filterMap fun k => (g.linkOf? p g.edges[k]).map (·, k)

/-- The links of a node, each with the place of its edge. -/
def firstLinks (g : Graph) (p : Fin g.nodes.size) : List (Link g.nodes.size × Fin g.edges.size) :=
  firsts (·.1.child) (g.placedLinks p)

theorem toList_edges (g : Graph) :
    g.edges.toList = (List.finRange g.edges.size).map g.edge := by
  refine List.ext_getElem (by simp) fun i _ _ => ?_
  simp [edge]

theorem map_placedLinks (p : Fin g.nodes.size) :
    (g.placedLinks p).map (·.1) = g.edges.toList.filterMap (g.linkOf? p) := by
  rw [toList_edges, placedLinks, List.map_filterMap, List.filterMap_map]
  refine List.filterMap_congr fun k _ => ?_
  simp [Function.comp_def, edge]

theorem pairwise_placedLinks (p : Fin g.nodes.size) :
    (g.placedLinks p).Pairwise fun a b => a.2 < b.2 := by
  rw [placedLinks, List.pairwise_filterMap]
  refine (List.pairwise_lt_finRange _).imp fun {j k} hjk a ha b hb => ?_
  obtain ⟨_, -, rfl⟩ := Option.map_eq_some_iff.1 ha
  obtain ⟨_, -, rfl⟩ := Option.map_eq_some_iff.1 hb
  exact hjk

theorem mem_placedLinks (hu : g.UniqueIds) {link : Link g.nodes.size} {k : Fin g.edges.size} :
    (link, k) ∈ g.placedLinks p ↔ g.edges[k].fromId = (g.node p).id ∧
      g.edges[k].toId = (g.node link.child).id ∧ link.port = g.edges[k].fromPort := by
  rw [← linkOf?_eq_some_iff hu, placedLinks, List.mem_filterMap]
  simp

theorem map_firstLinks (p : Fin g.nodes.size) : (g.firstLinks p).map (·.1) = g.linksOf p := by
  have hfirsts : firsts Link.child ((g.placedLinks p).map Prod.fst) =
      (g.firstLinks p).map Prod.fst := firsts_map (fun _ _ => Iff.rfl) _
  rw [← hfirsts, map_placedLinks]
  rfl

theorem pairwise_firstLinks (p : Fin g.nodes.size) :
    (g.firstLinks p).Pairwise fun a b => a.2 < b.2 :=
  (pairwise_placedLinks p).sublist (firsts_sublist _ _)

theorem mem_firstLinks (hu : g.UniqueIds) {link : Link g.nodes.size} {k : Fin g.edges.size} :
    (link, k) ∈ g.firstLinks p ↔
      g.FirstEdge p link.child k ∧ link.port = g.edges[k].fromPort := by
  rw [firstLinks, mem_firsts_iff _ (fun l => l.2.1) (pairwise_placedLinks p),
    mem_placedLinks hu, FirstEdge]
  constructor
  · rintro ⟨⟨hfrom, hto, hport⟩, hfirst⟩
    refine ⟨⟨⟨hfrom, hto⟩, fun j hj ⟨hfrom', hto'⟩ => ?_⟩, hport⟩
    have hmem : (⟨link.child, g.edges[j].fromPort⟩, j) ∈ g.placedLinks p :=
      (mem_placedLinks hu).2 ⟨hfrom', hto', rfl⟩
    exact (hfirst _ hmem rfl).not_gt hj
  · rintro ⟨⟨⟨hfrom, hto⟩, hfirst⟩, hport⟩
    refine ⟨⟨hfrom, hto, hport⟩, fun b hb hchild => ?_⟩
    obtain ⟨hfrom', hto', -⟩ := (mem_placedLinks hu).1 hb
    exact not_lt.1 fun hlt => hfirst b.2 hlt ⟨hfrom', hchild ▸ hto'⟩

/-! ## Children in order -/

/-- The links of a node in the order of its children. -/
def rankedLinks (g : Graph) (p : Fin g.nodes.size) : List (Link g.nodes.size × Fin g.edges.size) :=
  (g.firstLinks p).mergeSort fun a b => g.linkRank a.1 ≤ g.linkRank b.1

theorem map_rankedLinks (p : Fin g.nodes.size) :
    (g.rankedLinks p).map (·.1.child) = g.childrenOf p := by
  have hle : ∀ a ∈ g.firstLinks p, ∀ b ∈ g.firstLinks p,
      decide (g.linkRank a.1 ≤ g.linkRank b.1) = decide (g.linkRank a.1 ≤ g.linkRank b.1) :=
    fun _ _ _ _ => rfl
  rw [childrenOf, ← map_firstLinks, ← List.map_mergeSort hle, List.map_map]
  rfl

theorem mem_rankedLinks (hu : g.UniqueIds) {link : Link g.nodes.size} {k : Fin g.edges.size} :
    (link, k) ∈ g.rankedLinks p ↔
      g.FirstEdge p link.child k ∧ link.port = g.edges[k].fromPort := by
  rw [rankedLinks, List.mem_mergeSort, mem_firstLinks hu]

theorem pairwise_rankedLinks (hu : g.UniqueIds) (p : Fin g.nodes.size) :
    (g.rankedLinks p).Pairwise fun a b => g.rank (a.1.child, a.2) < g.rank (b.1.child, b.2) := by
  have hstable : (g.rankedLinks p).Pairwise fun a b =>
      g.linkRank a.1 ≤ g.linkRank b.1 ∧ (g.linkRank b.1 ≤ g.linkRank a.1 → a.2 < b.2) := by
    have hsorted := pairwise_mergeSort_of_pairwise
      (fun l : Link g.nodes.size × Fin g.edges.size => g.linkRank l.1) (pairwise_firstLinks p)
    rwa [rankedLinks]
  refine hstable.imp_of_mem fun {a b} ha hb hab => ?_
  -- the port of a link is that of its edge, so ranks compare links and break ties by place
  have hport := ((mem_rankedLinks hu).1 ha).2
  have hport' := ((mem_rankedLinks hu).1 hb).2
  simp only [linkRank, hport, hport', Prod.Lex.toLex_le_toLex, Fin.lt_def] at hab
  simp only [rank, Prod.Lex.toLex_lt_toLex]
  obtain ⟨hle, htie⟩ := hab
  omega

end Graph

/-- The children of a baked node are the nodes that edges lead to from it, each by the first edge
that leads there, in the order of their ranks: by the order of the node and the port of the edge
as signed numbers, then by the place of the edge. -/
theorem childIds_of_bake {g : Graph} {catalog : Catalog} {r : BakeResult}
    (h : bake g catalog = .ok r) (hsize : g.nodes.size < 2147483648) (p : Fin g.nodes.size) :
    ∃ i, r.tree.indexOf? (g.node p).id = some i ∧ (r.tree.children i).Nodup ∧
      ∃ kids : List (Fin g.nodes.size × Fin g.edges.size),
        (r.tree.children i).map r.tree.idOf? = kids.map (fun c => some (g.node c.1).id) ∧
        (∀ c k, (c, k) ∈ kids ↔ g.FirstEdge p c k) ∧
        kids.Pairwise fun a b => g.rank a < g.rank b := by
  obtain ⟨root, hcompiled, hids⟩ := Graph.compiled_of_bake h p.pos hsize
  have hu := hcompiled.rooted.uniqueIds
  refine ⟨bakedIndex root p, Graph.indexOf?_bakedIds hu hids p, ?_,
    (g.rankedLinks p).map fun l => (l.1.child, l.2), ?_, fun c k => ?_, ?_⟩
  · rw [hcompiled.children_bakedIndex]
    exact (Graph.nodup_childrenOf p).map (bakedIndex_injective root)
  · rw [hcompiled.children_bakedIndex, ← Graph.map_rankedLinks, List.map_map, List.map_map,
      List.map_map]
    refine List.map_congr_left fun l _ => ?_
    simp only [Function.comp_apply]
    rw [Graph.idOf?_eq_idAt? hids, Graph.idAt?_eq, getElem?_bakedOrder]
    rfl
  · rw [List.mem_map]
    constructor
    · rintro ⟨⟨link, _⟩, hmem, he⟩
      cases he
      exact ((Graph.mem_rankedLinks hu).1 hmem).1
    · intro hfirst
      exact ⟨(⟨c, g.edges[k].fromPort⟩, k), (Graph.mem_rankedLinks hu).2 ⟨hfirst, rfl⟩, rfl⟩
  · exact List.pairwise_map.2 (Graph.pairwise_rankedLinks hu p)

/-- `childIds_of_bake` for the root of `Graph.unsorted`. -/
theorem childIds_of_bake_unsorted :
    ∃ r, bake .unsorted .standard = .ok r ∧ Graph.unsorted.nodes.size < 2147483648 ∧
      ∃ i, r.tree.indexOf? (Graph.unsorted.node ⟨2, by decide⟩).id = some i ∧
        (r.tree.children i).Nodup ∧
        ∃ kids : List (Fin Graph.unsorted.nodes.size × Fin Graph.unsorted.edges.size),
          (r.tree.children i).map r.tree.idOf? =
            kids.map (fun c => some (Graph.unsorted.node c.1).id) ∧
          (∀ c k, (c, k) ∈ kids ↔ Graph.unsorted.FirstEdge ⟨2, by decide⟩ c k) ∧
          kids.Pairwise fun a b => Graph.unsorted.rank a < Graph.unsorted.rank b := by
  obtain ⟨r, hr⟩ := Graph.exists_bake_unsorted .standard
  have hsize : Graph.unsorted.nodes.size < 2147483648 := by decide
  exact ⟨r, hr, hsize, childIds_of_bake hr hsize ⟨2, by decide⟩⟩

end BehaviorTree
