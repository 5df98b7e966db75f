import BehaviorTree.Proofs.Bake.Account

/-!
# The order of the edges

`bake_of_perm_edges`: a bake comes to the same when the edges of a graph are reordered, where no
edge is repeated and no two children of one parent tie. What a bake refuses is about the relation
that the edges make between ids (`resolves_of_perm`), and so is the root; the children of a node
are sorted by a key that tells them apart, so they come in one order (`childrenOf_of_perm`).
-/

namespace BehaviorTree

open Relation Bake

/-- Whether two errors are of one variant. -/
def BakeError.SameVariant : BakeError → BakeError → Prop
  | .cycle _, .cycle _ => True
  | .duplicateNodeId _, .duplicateNodeId _ => True
  | .multipleParents _ _ _, .multipleParents _ _ _ => True
  | _, _ => False

/-- A sort comes to the same on lists with the same elements, if their ranks tell these apart. -/
theorem mergeSort_eq_of_perm {α β : Type*} [LinearOrder β] (rank : α → β) {l l' : List α}
    (h : l'.Perm l) (hinj : ∀ a ∈ l, ∀ b ∈ l, rank a = rank b → a = b) :
    (l'.mergeSort fun a b => rank a ≤ rank b) = l.mergeSort fun a b => rank a ≤ rank b := by
  have hperm := (List.mergeSort_perm l' fun a b => rank a ≤ rank b).trans
    (h.trans (List.mergeSort_perm l fun a b => rank a ≤ rank b).symm)
  have hsorted (l : List α) := List.pairwise_mergeSort (rankLe_trans rank) (rankLe_total rank) l
  refine hperm.eq_of_pairwise (fun a b ha hb hab hba => ?_) (hsorted l') (hsorted l)
  exact hinj a (h.mem_iff.1 (List.mem_mergeSort.1 ha)) b (List.mem_mergeSort.1 hb)
    (le_antisymm (of_decide_eq_true hab) (of_decide_eq_true hba))

namespace Graph

/-- No two edges have the same ends. -/
def Unrepeated (g : Graph) : Prop := (g.edges.toList.map fun e => (e.fromId, e.toId)).Nodup

/-- No two children of one parent have the same order and edges from the same port. -/
def Untied (g : Graph) : Prop :=
  ∀ p c c', ∀ e ∈ g.edges, ∀ e' ∈ g.edges,
    e.fromId = (g.node p).id → e.toId = (g.node c).id →
    e'.fromId = (g.node p).id → e'.toId = (g.node c').id →
    (g.node c).order = (g.node c').order → e.fromPort = e'.fromPort → c = c'

variable {g : Graph} {catalog : Catalog}

/-- The errors that are true of a graph are of one variant. -/
theorem Refuses.sameVariant {e e' : BakeError} (h : g.Refuses e) (h' : g.Refuses e') :
    e.SameVariant e' := by
  have hshared : ∀ {id}, g.Refuses (.duplicateNodeId id) → ¬ g.UniqueIds :=
    fun hid hu => uniqueIds_iff.1 hu ⟨_, hid⟩
  have hcyclic : ∀ {path}, g.Refuses (.cycle path) → ¬ Acyclic g.Resolves := by
    intro path hpath hac
    obtain ⟨a, ha⟩ := hpath.2.cyclic
    exact hac a ha
  cases e with
  | cycle =>
    cases e' with
    | cycle => trivial
    | duplicateNodeId => exact hshared h' h.1
    | multipleParents => exact hcyclic h h'.2.1
  | duplicateNodeId =>
    cases e' with
    | cycle => exact hshared h h'.1
    | duplicateNodeId => trivial
    | multipleParents => exact hshared h h'.1
  | multipleParents =>
    cases e' with
    | cycle => exact hcyclic h' h.2.1
    | duplicateNodeId => exact hshared h' h.1
    | multipleParents => trivial

/-! ## Graphs without repeated edges -/

theorem Unrepeated.inj (h : g.Unrepeated) {j k : Fin g.edges.size}
    (hfrom : (g.edge j).fromId = (g.edge k).fromId) (hto : (g.edge j).toId = (g.edge k).toId) :
    j = k := by
  rw [Unrepeated, toList_edges, List.map_map,
    List.nodup_map_iff_inj_on (List.nodup_finRange _)] at h
  exact h j (List.mem_finRange j) k (List.mem_finRange k) (Prod.ext hfrom hto)

/-- Only edges with a missing end have a warning. -/
theorem Unrepeated.filterMap_edgeWarning? (h : g.Unrepeated) :
    (List.finRange g.edges.size).filterMap g.edgeWarning? =
      g.edges.toList.filterMap fun e =>
        if g.HasId e.fromId ∧ g.HasId e.toId then none
        else some (.danglingEdge e.fromId e.toId) := by
  rw [toList_edges, List.filterMap_map]
  refine List.filterMap_congr fun k _ => ?_
  have hfirst : ¬ ∃ j < k, (g.edge j).fromId = (g.edge k).fromId ∧
      (g.edge j).toId = (g.edge k).toId := by
    rintro ⟨j, hj, hfrom, hto⟩
    exact hj.ne (h.inj hfrom hto)
  simp only [edgeWarning?, if_neg hfirst, Function.comp_apply]

theorem Unrepeated.linksOf (h : g.Unrepeated) (hu : g.UniqueIds) (p : Fin g.nodes.size) :
    g.linksOf p = g.edges.toList.filterMap (g.linkOf? p) := by
  refine firsts_eq_self _ ?_
  rw [List.Nodup, List.pairwise_map, List.pairwise_filterMap]
  refine (List.pairwise_map.1 h).imp fun {e e'} hne link hlink link' hlink' heq => hne ?_
  obtain ⟨hfrom, hto, -⟩ := (linkOf?_eq_some_iff hu).1 hlink
  obtain ⟨hfrom', hto', -⟩ := (linkOf?_eq_some_iff hu).1 hlink'
  rw [hfrom, hto, hfrom', hto', heq]

/-! ## Reordered edges -/

section
variable {edges : Array AuthoredEdge} (hperm : edges.toList.Perm g.edges.toList)
include hperm

theorem resolves_of_perm : ({ g with edges } : Graph).Resolves = g.Resolves := by
  funext a b
  have hmem : ∀ e, e ∈ edges ↔ e ∈ g.edges := by simpa using fun e => hperm.mem_iff (a := e)
  simp only [Resolves, hmem]
  rfl

theorem refuses_of_perm (e : BakeError) : ({ g with edges } : Graph).Refuses e ↔ g.Refuses e := by
  cases e <;> simp only [Refuses, ClosedPath, resolves_of_perm hperm] <;> rfl

theorem root?_of_perm (hu : g.UniqueIds) : ({ g with edges } : Graph).root? = g.root? := by
  have hu' : ({ g with edges } : Graph).UniqueIds := hu
  ext p
  rw [root?_eq_some_iff hu, root?_eq_some_iff hu', resolves_of_perm hperm]
  rfl

theorem Unrepeated.of_perm (h : g.Unrepeated) : ({ g with edges } : Graph).Unrepeated :=
  (hperm.map _).nodup_iff.2 h

/-- The children of a node come in one order. -/
theorem childrenOf_of_perm (hu : g.UniqueIds) (hone : g.Unrepeated) (htied : g.Untied) :
    ({ g with edges } : Graph).childrenOf = g.childrenOf := by
  funext p
  have hu' : ({ g with edges } : Graph).UniqueIds := hu
  have hlinks : (({ g with edges } : Graph).linksOf p).Perm (g.linksOf p) := by
    rw [hone.linksOf hu, (hone.of_perm hperm).linksOf hu']
    exact hperm.filterMap _
  refine congrArg (List.map Link.child)
    (mergeSort_eq_of_perm g.linkRank hlinks fun a ha b hb hrank => ?_)
  rw [hone.linksOf hu, List.mem_filterMap] at ha hb
  obtain ⟨e, he, ha⟩ := ha
  obtain ⟨e', he', hb⟩ := hb
  obtain ⟨hfrom, hto, hport⟩ := (linkOf?_eq_some_iff hu).1 ha
  obtain ⟨hfrom', hto', hport'⟩ := (linkOf?_eq_some_iff hu).1 hb
  have hkey := toLex_inj.1 hrank
  rw [Prod.mk.injEq, Int32.toInt_inj, Int32.toInt_inj] at hkey
  have hchild := htied p a.child b.child e (Array.mem_toList_iff.1 he) e'
    (Array.mem_toList_iff.1 he') hfrom hto hfrom' hto' hkey.1 (by rw [← hport, ← hport', hkey.2])
  cases a
  cases b
  cases hchild
  cases hkey.2
  rfl

/-- The warnings about edges come in another order only. -/
theorem warnings_of_perm (hone : g.Unrepeated) {positions : g.Positions}
    {positions' : ({ g with edges } : Graph).Positions} (hpos : g.Positioned positions)
    (hpos' : ({ g with edges } : Graph).Positioned positions') :
    (({ g with edges } : Graph).adjacency positions').2.toList.Perm
      (g.adjacency positions).2.toList := by
  rw [warnings_adjacency hpos, warnings_adjacency hpos', hone.filterMap_edgeWarning?,
    (hone.of_perm hperm).filterMap_edgeWarning?]
  exact hperm.filterMap _

/-- A graph that is accepted is accepted with its edges reordered. -/
theorem exists_bake_of_perm_edges {r : BakeResult} (h : bake g catalog = .ok r) :
    ∃ r', bake { g with edges } catalog = .ok r' := by
  obtain ⟨hu, hac, hone⟩ := forest_of_bake h
  rw [← resolves_of_perm hperm] at hac hone
  exact exists_bake_of_resolves catalog hu hac hone

theorem bakedRecord_of_perm (hu : g.UniqueIds) (hone : g.Unrepeated) (htied : g.Untied)
    (root p : Fin g.nodes.size) :
    ({ g with edges } : Graph).bakedRecord catalog root p = g.bakedRecord catalog root p := by
  unfold bakedRecord nextOf?
  rw [childrenOf_of_perm hperm hu hone htied]
  rfl

/-- The records are the same, if no children tie. -/
theorem nodes_of_perm (hone : g.Unrepeated) (htied : g.Untied) {root : Fin g.nodes.size}
    (hroot : g.Rooted root) (hroot' : ({ g with edges } : Graph).Rooted root)
    {positions : g.Positions} {positions' : ({ g with edges } : Graph).Positions}
    (hpos : g.Positioned positions) (hpos' : ({ g with edges } : Graph).Positioned positions') :
    (compile { g with edges } catalog (adjacency _ positions').1 root #[]).tree.nodes =
      (compile g catalog (g.adjacency positions).1 root #[]).tree.nodes := by
  refine Array.ext_getElem? fun i => ?_
  by_cases hi : i < g.nodes.size
  · obtain ⟨p, rfl⟩ := exists_bakedIndex_eq root hi
    have hrecord := hroot'.getElem?_compile hpos' catalog #[] p
    rw [bakedRecord_of_perm hperm hroot.uniqueIds hone htied] at hrecord
    exact hrecord.trans (hroot.getElem?_compile hpos catalog #[] p).symm
  · rw [Array.getElem?_eq_none, Array.getElem?_eq_none]
    · rwa [size_compile, ← not_lt]
    · rwa [size_compile, ← not_lt]

/-- What reordering the edges leaves of the outcome. -/
theorem results_of_perm (hone : g.Unrepeated) {r r' : BakeResult} (h : bake g catalog = .ok r)
    (h' : bake { g with edges } catalog = .ok r') :
    r'.warnings.toList.Perm r.warnings.toList ∧ (g.Untied → r'.tree = r.tree) := by
  obtain ⟨positions, hpos, hr⟩ := (bake_ends g catalog).of_ok h
  obtain ⟨positions', hpos', hr'⟩ := (bake_ends { g with edges } catalog).of_ok h'
  have hwarnings := warnings_of_perm hperm hone hpos hpos'
  rcases hr with ⟨hzero, rfl⟩ | ⟨root, hroot, rfl⟩ <;>
    rcases hr' with ⟨hzero', rfl⟩ | ⟨root', hroot', rfl⟩
  · exact ⟨hwarnings, fun _ => rfl⟩
  · exact absurd root'.pos hzero.not_gt
  · exact absurd root.pos hzero'.not_gt
  · have hu := hroot.uniqueIds
    have hsame : some root' = some root := by
      rw [← hroot'.root?, ← hroot.root?]
      exact root?_of_perm hperm hu
    cases hsame
    refine ⟨?_, fun htied => ?_⟩
    · rw [compile, compile, Array.toList_append, Array.toList_append]
      exact hwarnings.append_right _
    · exact congrArg (BakedTree.mk · (g.bakedIds root))
        (nodes_of_perm hperm hone htied hroot hroot' hpos hpos')

end

end Graph

/-- The order of the edges of a graph does not matter where no edge is repeated. With the edges in
another order a bake succeeds or fails as before, and with an error of the same variant; the
warnings come in another order at most; and if no two children of one parent have the same order
and port, the tree is the same. -/
theorem bake_of_perm_edges {g g' : Graph} (catalog : Catalog) (hnodes : g'.nodes = g.nodes)
    (hedges : g'.edges.toList.Perm g.edges.toList) (hone : g.Unrepeated) :
    (∃ r r', bake g catalog = .ok r ∧ bake g' catalog = .ok r' ∧
      r'.warnings.toList.Perm r.warnings.toList ∧ (g.Untied → r'.tree = r.tree)) ∨
    ∃ e e', bake g catalog = .error e ∧ bake g' catalog = .error e' ∧ e.SameVariant e' := by
  obtain ⟨nodes, edges⟩ := g'
  cases hnodes
  cases hr : bake g catalog with
  | ok r =>
    obtain ⟨r', hr'⟩ := Graph.exists_bake_of_perm_edges hedges hr
    exact .inl ⟨r, r', rfl, hr', Graph.results_of_perm hedges hone hr hr'⟩
  | error e =>
    cases hr' : bake { g with edges } catalog with
    | ok r' =>
      obtain ⟨r, hok⟩ := Graph.exists_bake_of_perm_edges hedges.symm hr'
      cases hr.symm.trans hok
    | error e' =>
      have htrue := (Graph.bake_ends g catalog).of_error hr
      have htrue' := (Graph.bake_ends { g with edges } catalog).of_error hr'
      exact .inr ⟨e, e', rfl, rfl, htrue.sameVariant ((Graph.refuses_of_perm hedges e').1 htrue')⟩

/-- `bake_of_perm_edges` for the nodes of `Graph.unsorted` and edges of which one leads nowhere,
and these in the reverse order. -/
theorem bake_of_perm_edges_reverse :
    let g : Graph := { Graph.unsorted with
      edges := #[{ fromId := "root", toId := "wait" }, { fromId := "root", toId := "guard" },
        { fromId := "guard", toId := "step" }, { fromId := "guard", toId := "nobody" }] }
    let g' : Graph := { g with edges := g.edges.reverse }
    g'.nodes = g.nodes ∧ g'.edges.toList.Perm g.edges.toList ∧ g.Unrepeated ∧ g.Untied ∧
      ∃ r r', bake g .empty = .ok r ∧ bake g' .empty = .ok r' ∧
        r'.warnings.toList.Perm r.warnings.toList ∧ r'.tree = r.tree := by
  intro g g'
  have hperm : g'.edges.toList.Perm g.edges.toList := by
    rw [Array.toList_reverse]
    exact List.reverse_perm _
  have hone : g.Unrepeated := by
    unfold Graph.Unrepeated
    decide
  have htied : g.Untied := by
    unfold Graph.Untied
    decide
  obtain ⟨r, hr⟩ : ∃ r, bake g .empty = .ok r := Graph.exists_bake_of_rank .empty
    (fun p => [2, 1, 0, 2].getD p.1 0) (by decide) (by decide) (by decide)
  refine ⟨rfl, hperm, hone, htied, ?_⟩
  rcases @bake_of_perm_edges g g' .empty rfl hperm hone with
    ⟨r, r', hok, hok', hwarnings, htree⟩ | ⟨e, -, herr, -⟩
  · exact ⟨r, r', hok, hok', hwarnings, htree htied⟩
  · cases hr.symm.trans herr

end BehaviorTree
