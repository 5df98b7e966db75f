import BehaviorTree.Proofs.Bake.Parents

/-!
# What a bake accepts

A graph is baked exactly if no two nodes share an id and the edges between nodes make up a
forest. `bake_ends` opens the passes of `bake` once: an accepted graph is `Rooted` and its tree is
the one that `compile` writes from the resolved edges, and an error is true of the graph
(`Graph.Refuses`). `bake_verdict` says which of the four outcomes a graph has.
-/

namespace BehaviorTree

open Relation

namespace Graph

/-! ## Edges between ids -/

/-- Some node has an id. -/
def HasId (g : Graph) (id : String) : Prop := ∃ n ∈ g.nodes, n.id = id

/-- Two nodes have an id. -/
def SharesId (g : Graph) (id : String) : Prop :=
  ∃ p q, p ≠ q ∧ (g.node p).id = id ∧ (g.node q).id = id

/-- An edge leads from one id to another, and nodes have them. -/
def Resolves (g : Graph) (a b : String) : Prop :=
  g.HasId a ∧ g.HasId b ∧ ∃ e ∈ g.edges, e.fromId = a ∧ e.toId = b

/-- A path of edges from a node back to it. -/
def ClosedPath (g : Graph) (path : List CycleStep) : Prop :=
  ∃ first inner, path = first :: inner ++ [first] ∧ (path.map (·.id)).IsChain g.Resolves

/-- What an error says of the graph. -/
def Refuses (g : Graph) : BakeError → Prop
  | .duplicateNodeId id => g.SharesId id
  | .cycle path => g.UniqueIds ∧ g.ClosedPath path
  | .multipleParents child first second =>
    g.UniqueIds ∧ Acyclic g.Resolves ∧ first ≠ second ∧ g.Resolves first child ∧
      g.Resolves second child

variable {g : Graph}

theorem hasId_iff {id : String} : g.HasId id ↔ ∃ p, (g.node p).id = id := by
  constructor
  · rintro ⟨n, hn, rfl⟩
    obtain ⟨i, hi, rfl⟩ := Array.mem_iff_getElem.1 hn
    exact ⟨⟨i, hi⟩, rfl⟩
  · rintro ⟨p, rfl⟩
    exact ⟨_, Array.getElem_mem p.2, rfl⟩

theorem uniqueIds_iff : g.UniqueIds ↔ ¬ ∃ id, g.SharesId id := by
  constructor
  · rintro hu ⟨id, p, q, hpq, hp, hq⟩
    exact hpq (hu p q (hp.trans hq.symm))
  · intro h p q hpq
    by_contra hne
    exact h ⟨_, p, q, hne, hpq, rfl⟩

theorem resolves_of_joins {p c : Fin g.nodes.size} (h : g.Joins p c) :
    g.Resolves (g.node p).id (g.node c).id := ⟨hasId_iff.2 ⟨p, rfl⟩, hasId_iff.2 ⟨c, rfl⟩, h⟩

theorem joins_of_resolves {a b : String} (h : g.Resolves a b) :
    ∃ p c, g.Joins p c ∧ (g.node p).id = a ∧ (g.node c).id = b := by
  obtain ⟨ha, hb, he⟩ := h
  obtain ⟨p, rfl⟩ := hasId_iff.1 ha
  obtain ⟨c, rfl⟩ := hasId_iff.1 hb
  exact ⟨p, c, he, rfl, rfl⟩

theorem UniqueIds.transGen_joins (hu : g.UniqueIds) {a b : String} (h : TransGen g.Resolves a b) :
    ∃ p c, TransGen g.Joins p c ∧ (g.node p).id = a ∧ (g.node c).id = b := by
  induction h with
  | single h =>
    obtain ⟨p, c, hj, hp, hc⟩ := joins_of_resolves h
    exact ⟨p, c, .single hj, hp, hc⟩
  | tail _ h ih =>
    obtain ⟨p, c, hpc, hp, hc⟩ := ih
    obtain ⟨c', d, hj, hc', hd⟩ := joins_of_resolves h
    cases hu c c' (hc.trans hc'.symm)
    exact ⟨p, d, hpc.tail hj, hp, hd⟩

theorem UniqueIds.acyclic_resolves (hu : g.UniqueIds) (h : Acyclic g.Joins) :
    Acyclic g.Resolves := by
  intro a ha
  obtain ⟨p, c, hpc, hp, hc⟩ := hu.transGen_joins ha
  cases hu p c (hp.trans hc.symm)
  exact h p hpc

theorem UniqueIds.leftUnique_resolves (hu : g.UniqueIds) (h : Relator.LeftUnique g.Joins) :
    Relator.LeftUnique g.Resolves := by
  intro a a' b hb hb'
  obtain ⟨p, c, hj, hp, hc⟩ := joins_of_resolves hb
  obtain ⟨p', c', hj', hp', hc'⟩ := joins_of_resolves hb'
  cases hu c c' (hc.trans hc'.symm)
  rw [← hp, ← hp', h hj hj']

theorem ClosedPath.cyclic {path : List CycleStep} (h : g.ClosedPath path) :
    ∃ a, TransGen g.Resolves a a := by
  obtain ⟨first, inner, rfl, hchain⟩ := h
  rw [List.map_append, List.map_cons, List.map_singleton] at hchain
  exact ⟨first.id, Adjacency.transGen_of_isChain hchain⟩

/-! ## Accepted graphs -/

/-- What baking needs of a graph: the edges make up a forest, of which `root` is the first root. -/
structure Rooted (g : Graph) (root : Fin g.nodes.size) : Prop where
  uniqueIds : g.UniqueIds
  acyclic : Acyclic g.Joins
  leftUnique : Relator.LeftUnique g.Joins
  root? : g.root? = some root

theorem mem_childrenOf_iff (hu : g.UniqueIds) {p c : Fin g.nodes.size} :
    c ∈ g.childrenOf p ↔ g.Joins p c := by
  rw [← mem_linksOf_iff hu, childrenOf]
  exact ((List.mergeSort_perm _ _).map _).mem_iff

theorem root?_eq_find? (hu : g.UniqueIds) {parents : Bake.Parents g.nodes.size}
    (h : ∀ c p, parents.get c = some p ↔ g.Joins p c) :
    g.root? = (List.finRange g.nodes.size).find? (parents.get · = none) := by
  unfold root?
  congr 1
  funext p
  rw [Bool.eq_iff_iff, decide_eq_true_iff, Option.eq_none_iff_forall_ne_some]
  simp only [List.all_eq_true, List.mem_finRange, forall_const, Bool.not_eq_true',
    List.contains_eq_mem, decide_eq_false_iff_not, mem_childrenOf_iff hu, ne_eq, h]

theorem Rooted.parentless {root : Fin g.nodes.size} (h : g.Rooted root) (p : Fin g.nodes.size) :
    ¬ g.Joins p root := by
  have hall := List.find?_some h.root?
  simp only [List.all_eq_true, List.mem_finRange, forall_const, Bool.not_eq_true',
    List.contains_eq_mem, decide_eq_false_iff_not, mem_childrenOf_iff h.uniqueIds] at hall
  exact hall p

/-- The root is the first node that no edge leads to from a node. -/
theorem root?_eq_some_iff (hu : g.UniqueIds) {p : Fin g.nodes.size} :
    g.root? = some p ↔ (¬ ∃ a, g.Resolves a (g.node p).id) ∧
      ∀ q < p, ∃ a, g.Resolves a (g.node q).id := by
  have hparentless : ∀ p, ((List.finRange g.nodes.size).all fun q =>
      !(g.childrenOf q).contains p) = true ↔ ¬ ∃ a, g.Resolves a (g.node p).id := by
    intro p
    simp only [List.all_eq_true, List.mem_finRange, forall_const, Bool.not_eq_true',
      List.contains_eq_mem, decide_eq_false_iff_not, mem_childrenOf_iff hu, not_exists]
    constructor
    · intro hno a ha
      obtain ⟨q, c, hj, -, hc⟩ := joins_of_resolves ha
      exact hno q (hu c p hc ▸ hj)
    · exact fun hno q hj => hno _ (resolves_of_joins hj)
  rw [root?, List.find?_eq_some_iff_getElem]
  simp only [hparentless, Bool.not_eq_true', Bool.eq_false_iff, ne_eq, not_not,
    List.getElem_finRange]
  refine and_congr_right fun _ => ⟨?_, fun hlt => ?_⟩
  · rintro ⟨i, hi, rfl, hlt⟩ q hq
    exact hlt q.1 hq
  · exact ⟨p.1, by simp, rfl, fun j hj => hlt ⟨j, hj.trans p.2⟩ hj⟩

/-! ## The passes of a bake -/

/-- A cycle of links is reported as a closed path of edges. -/
theorem closedPath_of_isCycle {positions : g.Positions} (hpos : g.Positioned positions)
    {path : List (Fin g.nodes.size)} (h : Adjacency.IsCycle (g.adjacency positions).1 path) :
    g.ClosedPath (path.map fun p => ⟨(g.node p).id, (g.node p).type, p.1⟩) := by
  obtain ⟨first, inner, rfl, -, hchain⟩ := h
  refine ⟨_, _, by rw [List.map_append, List.map_cons, List.map_singleton], ?_⟩
  rw [List.map_map, List.isChain_map]
  exact hchain.imp fun _ _ hl => resolves_of_joins ((linked_iff hpos).1 hl)

theorem bake_ends (g : Graph) (catalog : Catalog) :
    Ends (fun r => ∃ positions, g.Positioned positions ∧
        ((g.nodes.size = 0 ∧ r = ⟨.childless, (g.adjacency positions).2⟩) ∨
          ∃ root, g.Rooted root ∧
            r = Bake.compile g catalog (g.adjacency positions).1 root (g.adjacency positions).2))
      g.Refuses (bake g catalog) := by
  have hpositions : Ends g.Positioned g.Refuses g.positions := by
    refine (positions_ends g).mono (fun _ h => h) ?_
    rintro e ⟨p, q, hpq, hid, rfl⟩
    exact ⟨p, q, hpq, rfl, hid.symm⟩
  refine hpositions.bind fun positions hpos => ?_
  have hu := hpos.uniqueIds
  have hlinked : (g.adjacency positions).1.Linked = g.Joins := by
    funext p c
    exact propext (linked_iff hpos)
  dsimp only
  split
  · rename_i hsize
    split
    · rename_i path hpath
      exact ⟨hu, closedPath_of_isCycle hpos (Adjacency.isCycle_of_findCycle? hpath)⟩
    · rename_i hnone
      have hac := Adjacency.acyclic_of_findCycle? hnone
      refine Ends.bind ((Bake.findParents_ends (nodup_adjacency hpos)).mono (fun _ h => h) ?_)
        fun parents hpar => ?_
      · rintro e ⟨child, first, second, hne, h1, h2, rfl⟩
        rw [hlinked] at hac h1 h2
        exact ⟨hu, hu.acyclic_resolves hac, fun he => hne (hu _ _ he), resolves_of_joins h1,
          resolves_of_joins h2⟩
      · have hfind := Bake.find?_parentless hpar hac hsize
        have huniq := hpar.leftUnique
        rw [hlinked] at hac huniq
        have hroot := root?_eq_find? hu fun c p => (hpar c p).trans (linked_iff hpos)
        exact ⟨positions, hpos, .inr ⟨_, ⟨hu, hac, huniq, hroot.trans hfind⟩, rfl⟩⟩
  · rename_i hsize
    exact ⟨positions, hpos, .inl ⟨by omega, rfl⟩⟩

/-- A forest of edges between nodes with ids of their own is accepted. -/
theorem exists_bake (catalog : Catalog) (hu : g.UniqueIds) (hac : Acyclic g.Joins)
    (hone : Relator.LeftUnique g.Joins) : ∃ r, bake g catalog = .ok r := by
  have hno : ∀ e, ¬ g.Refuses e := by
    rintro (path | id | ⟨child, first, second⟩) he
    · obtain ⟨a, ha⟩ := he.2.cyclic
      exact hu.acyclic_resolves hac a ha
    · exact uniqueIds_iff.1 hu ⟨id, he⟩
    · exact he.2.2.1 (hu.leftUnique_resolves hone he.2.2.2.1 he.2.2.2.2)
  obtain ⟨r, hr, -⟩ := (bake_ends g catalog).exists_ok hno
  exact ⟨r, hr⟩

/-- An acyclic relation between the ids of nodes of their own and one parent for each are all that
baking needs. -/
theorem exists_bake_of_resolves (catalog : Catalog) (hu : g.UniqueIds) (hac : Acyclic g.Resolves)
    (hone : Relator.LeftUnique g.Resolves) : ∃ r, bake g catalog = .ok r := by
  refine exists_bake catalog hu (fun p hp => ?_) fun p q c hp hq => ?_
  · exact hac _ (hp.lift (fun p => (g.node p).id) fun _ _ => resolves_of_joins)
  · exact hu p q (hone (resolves_of_joins hp) (resolves_of_joins hq))

/-- A graph is accepted if a number grows along its edges and none of its nodes has two parents. -/
theorem exists_bake_of_rank (catalog : Catalog) (rank : Fin g.nodes.size → Nat)
    (hu : g.UniqueIds) (hrank : ∀ p c, g.Joins p c → rank p < rank c)
    (hone : ∀ p q c, g.Joins p c → g.Joins q c → p = q) : ∃ r, bake g catalog = .ok r :=
  exists_bake catalog hu (.of_rank rank hrank) fun p q c => hone p q c

/-- What a tree says of the graph that it was baked from. -/
theorem forest_of_bake {catalog : Catalog} {r : BakeResult} (h : bake g catalog = .ok r) :
    g.UniqueIds ∧ Acyclic g.Resolves ∧ Relator.LeftUnique g.Resolves := by
  obtain ⟨positions, hpos, ⟨hsize, -⟩ | ⟨root, hroot, -⟩⟩ := (bake_ends g catalog).of_ok h
  · have hnone : ∀ p : Fin g.nodes.size, False := fun p => absurd p.2 (by omega)
    have hu := hpos.uniqueIds
    exact ⟨hu, hu.acyclic_resolves fun p => (hnone p).elim,
      hu.leftUnique_resolves fun p => (hnone p).elim⟩
  · have hu := hroot.uniqueIds
    exact ⟨hu, hu.acyclic_resolves hroot.acyclic, hu.leftUnique_resolves hroot.leftUnique⟩

end Graph

/-- Which graphs a bake accepts, and with which error it refuses the others: of a shared id, a
cycle and a node with two parents, the first that a graph has. Every error is true of the graph. -/
theorem bake_verdict (g : Graph) (catalog : Catalog) :
    ((∃ id, bake g catalog = .error (.duplicateNodeId id)) ↔ ∃ id, g.SharesId id) ∧
    ((∃ path, bake g catalog = .error (.cycle path)) ↔
      (¬ ∃ id, g.SharesId id) ∧ ∃ a, TransGen g.Resolves a a) ∧
    ((∃ child first second,
        bake g catalog = .error (.multipleParents child first second)) ↔
      (¬ ∃ id, g.SharesId id) ∧ (¬ ∃ a, TransGen g.Resolves a a) ∧
        ∃ child first second, first ≠ second ∧ g.Resolves first child ∧
          g.Resolves second child) ∧
    ((∃ r, bake g catalog = .ok r) ↔
      (¬ ∃ id, g.SharesId id) ∧ (¬ ∃ a, TransGen g.Resolves a a) ∧
        ¬ ∃ child first second, first ≠ second ∧ g.Resolves first child ∧
          g.Resolves second child) ∧
    ∀ e, bake g catalog = .error e → g.Refuses e := by
  cases hbake : bake g catalog with
  | ok r =>
    obtain ⟨hu, hac, hone⟩ := Graph.forest_of_bake hbake
    have hshared : ¬ ∃ id, g.SharesId id := Graph.uniqueIds_iff.1 hu
    have hcyclic : ¬ ∃ a, TransGen g.Resolves a a := not_exists.2 hac
    have hparents : ¬ ∃ child first second, first ≠ second ∧ g.Resolves first child ∧
        g.Resolves second child := by
      rintro ⟨child, first, second, hne, h1, h2⟩
      exact hne (hone h1 h2)
    simp [hshared, hcyclic, hparents]
  | error e =>
    have htrue := (Graph.bake_ends g catalog).of_error hbake
    cases e with
    | duplicateNodeId id =>
      have hshared : ∃ id, g.SharesId id := ⟨id, htrue⟩
      simpa [hshared] using htrue
    | cycle path =>
      have hshared : ¬ ∃ id, g.SharesId id := Graph.uniqueIds_iff.1 htrue.1
      have hcyclic : ∃ a, TransGen g.Resolves a a := htrue.2.cyclic
      simpa [hshared, hcyclic] using htrue
    | multipleParents child first second =>
      have hshared : ¬ ∃ id, g.SharesId id := Graph.uniqueIds_iff.1 htrue.1
      have hcyclic : ¬ ∃ a, TransGen g.Resolves a a := not_exists.2 htrue.2.1
      have hparents : ∃ child first second, first ≠ second ∧ g.Resolves first child ∧
          g.Resolves second child := ⟨child, first, second, htrue.2.2⟩
      simpa [hshared, hcyclic, hparents] using htrue

end BehaviorTree
