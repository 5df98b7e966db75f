import BehaviorTree.Proofs.Bake.Order
import BehaviorTree.Proofs.Bake.Verdict

/-!
# Linked records

The loop that links the nodes writes into one array, parent by parent. `getElem?_compile` says
what it leaves: at the baked index of a position the record that the node resolves to, with links
to the first of its children and to the node after it among the children of its parent
(`Graph.bakedRecord`). The children come in the order that the graph gives them
(`sortedChildren_linksOf`), and no write is lost, for a node comes once among the children of one
parent and of no other.
-/

namespace BehaviorTree

/-! ## The next in a list -/

section
variable {α β : Type*} [DecidableEq α] [DecidableEq β]

/-- The element that comes after `a`. -/
def after? (a : α) : List α → Option α
  | b :: c :: l => if b = a then some c else after? a (c :: l)
  | _ => none

theorem after?_eq_none {a : α} {l : List α} (h : a ∉ l) : after? a l = none := by
  fun_induction after? a l with
  | case1 c l => exact absurd List.mem_cons_self h
  | case2 b c l hb ih => exact ih fun ha => h (List.mem_cons_of_mem _ ha)
  | case3 => rfl

theorem mem_of_after? {a b : α} {l : List α} (h : after? a l = some b) : a ∈ l ∧ b ∈ l := by
  fun_induction after? a l with
  | case1 c l =>
    cases h
    simp
  | case2 c d l hc ih => exact (ih h).imp (List.mem_cons_of_mem _) (List.mem_cons_of_mem _)
  | case3 => cases h

theorem after?_append {a : α} {before l : List α} (h : a ∉ before) :
    after? a (before ++ a :: l) = l.head? := by
  induction before with
  | nil => cases l <;> simp [after?]
  | cons b before ih =>
    rw [List.mem_cons, not_or] at h
    have := ih h.2
    cases before <;> simpa [after?, Ne.symm h.1] using this

theorem after?_map {f : α → β} (hf : Function.Injective f) (a : α) (l : List α) :
    after? (f a) (l.map f) = (after? a l).map f := by
  induction l with
  | nil => rfl
  | cons b l ih =>
    cases l with
    | nil => rfl
    | cons c l =>
      simp only [List.map_cons, after?, hf.eq_iff] at ih ⊢
      split
      · rfl
      · exact ih

theorem after?_ne_head {a b : α} {l : List α} (hl : l.Nodup) (h : after? a l = some b) :
    l.head? ≠ some b := by
  cases l with
  | nil => cases h
  | cons c l =>
    rintro hb
    cases hb
    cases l with
    | nil => cases h
    | cons d l =>
      have hb : b ∈ d :: l := by
        rw [after?] at h
        split at h
        · cases h
          exact List.mem_cons_self
        · exact (mem_of_after? h).2
      exact (List.nodup_cons.1 hl).1 hb

theorem after?_inj {a a' b : α} {l : List α} (hl : l.Nodup) (h : after? a l = some b)
    (h' : after? a' l = some b) : a = a' := by
  induction l with
  | nil => cases h
  | cons c l ih =>
    cases l with
    | nil => cases h
    | cons d l =>
      have hhead : ∀ x, after? x (d :: l) ≠ some d := fun x hx =>
        after?_ne_head (List.nodup_cons.1 hl).2 hx rfl
      rw [after?] at h h'
      split at h <;> split at h'
      · exact ‹c = a›.symm.trans ‹c = a'›
      · cases h
        exact absurd h' (hhead a')
      · cases h'
        exact absurd h (hhead a)
      · exact ih (List.nodup_cons.1 hl).2 h h'

end

/-! ## Writing links -/

/-- The link to an index, if there is one. -/
def linkTo (index : Option Nat) : Int32 := index.elim noNode Int32.ofNat

namespace BakedNode

/-- The record with the link to its first child replaced, if there is one to write. -/
def withFirst (n : BakedNode) (index : Option Nat) : BakedNode :=
  index.elim n fun i => { n with firstChild := Int32.ofNat i }

/-- The record with the link to its next sibling replaced, if there is one to write. -/
def withNext (n : BakedNode) (index : Option Nat) : BakedNode :=
  index.elim n fun i => { n with nextSibling := Int32.ofNat i }

/-- The record with both links replaced. -/
def linked (n : BakedNode) (first next : Option Nat) : BakedNode :=
  { n with firstChild := linkTo first, nextSibling := linkTo next }

theorem linked_none {n : BakedNode} (hfirst : n.firstChild = noNode)
    (hnext : n.nextSibling = noNode) : n.linked none none = n := by
  cases n
  cases hfirst
  cases hnext
  rfl

theorem withFirst_linked (n : BakedNode) (first next index : Option Nat) :
    (n.linked first next).withFirst index = n.linked (index.or first) next := by
  cases index <;> rfl

theorem withNext_linked (n : BakedNode) (first next index : Option Nat) :
    (n.linked first next).withNext index = n.linked first (index.or next) := by
  cases index <;> rfl

end BakedNode

namespace Bake

variable {nodes : Array BakedNode} {l : List Nat}

theorem getElem?_linkSiblings (hl : l.Nodup) (nodes : Array BakedNode) (i : Nat) :
    (linkSiblings nodes l)[i]? = nodes[i]?.map (·.withNext (after? i l)) := by
  fun_induction linkSiblings nodes l with
  | case1 nodes a b rest ih =>
    rw [ih (List.nodup_cons.1 hl).2, Array.getElem?_modify, after?]
    by_cases ha : a = i
    · subst ha
      rw [if_pos rfl, if_pos rfl, Option.map_map, after?_eq_none (List.nodup_cons.1 hl).1]
      rfl
    · rw [if_neg ha, if_neg ha]
  | case2 l nodes hshort =>
    have : after? i l = none := by
      rcases l with _ | ⟨a, _ | ⟨b, rest⟩⟩
      · rfl
      · rfl
      · exact absurd rfl (hshort a b rest)
    rw [this]
    exact Option.map_id'.symm

theorem getElem?_linkChildren (hl : l.Nodup) (nodes : Array BakedNode) (parent i : Nat) :
    (linkChildren nodes parent l)[i]? =
      nodes[i]?.map fun n =>
        (n.withFirst (if i = parent then l.head? else none)).withNext (after? i l) := by
  cases l with
  | nil =>
    rw [linkChildren, List.head?_nil, ite_self]
    exact Option.map_id'.symm
  | cons first rest =>
    rw [linkChildren, getElem?_linkSiblings hl, Array.getElem?_modify]
    by_cases hi : parent = i
    · subst hi
      rw [if_pos rfl, if_pos rfl, Option.map_map]
      rfl
    · rw [if_neg hi, if_neg (Ne.symm hi)]
      rfl

@[simp] theorem size_linkSiblings (nodes : Array BakedNode) (l : List Nat) :
    (linkSiblings nodes l).size = nodes.size := by
  fun_induction linkSiblings nodes l with
  | case1 nodes a b rest ih => rw [ih, Array.size_modify]
  | case2 => rfl

@[simp] theorem size_linkChildren (nodes : Array BakedNode) (parent : Nat) (l : List Nat) :
    (linkChildren nodes parent l).size = nodes.size := by
  cases l with
  | nil => rfl
  | cons first rest => rw [linkChildren, size_linkSiblings, Array.size_modify]

/-- The record of a node before it is linked has no links. -/
theorem resolveNode_links (catalog : Catalog) (node : AuthoredNode) :
    (resolveNode catalog node).1.firstChild = noNode ∧
      (resolveNode catalog node).1.nextSibling = noNode := by
  unfold resolveNode
  split
  · exact ⟨rfl, rfl⟩
  · exact ⟨rfl, rfl⟩
  · exact ⟨rfl, rfl⟩
  · split <;> exact ⟨rfl, rfl⟩

end Bake

namespace Graph

open Bake

variable {g : Graph}

/-! ## Children in order -/

theorem linkLe_iff {a b : Link g.nodes.size} :
    linkLe g a b = true ↔ g.linkRank a ≤ g.linkRank b := by
  simp [linkLe, linkRank, Prod.Lex.toLex_le_toLex, Int32.lt_iff_toInt_lt, Int32.le_iff_toInt_le,
    Int32.toInt_inj]

/-- The loop that links the nodes takes the children of a node in the order that the graph gives
them. -/
theorem sortedChildren_linksOf (p : Fin g.nodes.size) :
    sortedChildren g (g.linksOf p) = g.childrenOf p := by
  have hle : linkLe g = fun a b => decide (g.linkRank a ≤ g.linkRank b) := by
    funext a b
    rw [Bool.eq_iff_iff, linkLe_iff, decide_eq_true_iff]
  rw [sortedChildren, hle, childrenOf]

theorem nodup_childrenOf (p : Fin g.nodes.size) : (g.childrenOf p).Nodup :=
  ((List.mergeSort_perm _ _).map _).nodup_iff.2 (nodup_linksOf p)

/-! ## The records of a graph -/

/-- The node after `p` among the children of the same node. -/
def nextOf? (g : Graph) (p : Fin g.nodes.size) : Option (Fin g.nodes.size) :=
  (List.finRange g.nodes.size).findSome? fun q => after? p (g.childrenOf q)

/-- The record of a node once the children of the nodes `done` are linked. -/
def recordAmong (g : Graph) (catalog : Catalog) (root : Fin g.nodes.size)
    (done : List (Fin g.nodes.size)) (p : Fin g.nodes.size) : BakedNode :=
  (resolveNode catalog (g.node p)).1.linked
    ((if p ∈ done then (g.childrenOf p).head? else none).map (bakedIndex root))
    ((done.findSome? fun q => after? p (g.childrenOf q)).map (bakedIndex root))

/-- The record that a node is baked to. -/
def bakedRecord (g : Graph) (catalog : Catalog) (root p : Fin g.nodes.size) : BakedNode :=
  (resolveNode catalog (g.node p)).1.linked ((g.childrenOf p).head?.map (bakedIndex root))
    ((g.nextOf? p).map (bakedIndex root))

theorem recordAmong_nil (catalog : Catalog) (root p : Fin g.nodes.size) :
    g.recordAmong catalog root [] p = (resolveNode catalog (g.node p)).1 := by
  obtain ⟨hfirst, hnext⟩ := resolveNode_links catalog (g.node p)
  exact BakedNode.linked_none hfirst hnext

theorem recordAmong_finRange (catalog : Catalog) (root p : Fin g.nodes.size) :
    g.recordAmong catalog root (List.finRange _) p = g.bakedRecord catalog root p := by
  simp [recordAmong, bakedRecord, nextOf?]

namespace Rooted

variable {root : Fin g.nodes.size} (h : g.Rooted root)
include h

theorem parent_unique {p q c : Fin g.nodes.size} (hp : c ∈ g.childrenOf p)
    (hq : c ∈ g.childrenOf q) : p = q :=
  h.leftUnique ((mem_childrenOf_iff h.uniqueIds).1 hp) ((mem_childrenOf_iff h.uniqueIds).1 hq)

/-- The next sibling of a node is found with its parent only. -/
theorem findSome?_after {done : List (Fin g.nodes.size)} {p q : Fin g.nodes.size}
    (hp : p ∈ g.childrenOf q) :
    (done.findSome? fun q => after? p (g.childrenOf q)) =
      if q ∈ done then after? p (g.childrenOf q) else none := by
  induction done with
  | nil => rfl
  | cons q' done ih =>
    rw [List.findSome?_cons, ih]
    by_cases hq : q' = q
    · subst hq
      cases after? p (g.childrenOf q') <;> simp
    · rw [after?_eq_none fun hp' => hq (h.parent_unique hp' hp)]
      simp [Ne.symm hq]

theorem nextOf?_eq {p q : Fin g.nodes.size} (hp : p ∈ g.childrenOf q) :
    g.nextOf? p = after? p (g.childrenOf q) := by
  rw [nextOf?, h.findSome?_after hp, if_pos (List.mem_finRange q)]

theorem recordAmong_concat (catalog : Catalog) {done : List (Fin g.nodes.size)}
    {q : Fin g.nodes.size} (hq : q ∉ done) (p : Fin g.nodes.size) :
    ((g.recordAmong catalog root done p).withFirst
        (if p = q then (g.childrenOf q).head?.map (bakedIndex root) else none)).withNext
        ((after? p (g.childrenOf q)).map (bakedIndex root)) =
      g.recordAmong catalog root (done ++ [q]) p := by
  rw [recordAmong, BakedNode.withFirst_linked, BakedNode.withNext_linked, recordAmong]
  congr 1
  · by_cases hpq : p = q
    · subst hpq
      simp [hq]
    · simp [hpq]
  · rw [List.findSome?_append, List.findSome?_singleton]
    by_cases hp : p ∈ g.childrenOf q
    · rw [h.findSome?_after hp, if_neg hq]
      simp
    · rw [after?_eq_none hp]
      simp

/-- The loop that links the nodes. -/
theorem getElem?_linkAll {positions : g.Positions} (hpos : g.Positioned positions)
    (catalog : Catalog) {nodes : Array BakedNode}
    (hnodes : ∀ p, nodes[bakedIndex root p]? = some (resolveNode catalog (g.node p)).1)
    (p : Fin g.nodes.size) :
    (linkAll g (g.adjacency positions).1 root nodes)[bakedIndex root p]? =
      some (g.bakedRecord catalog root p) := by
  rw [← recordAmong_finRange]
  refine foldl_keeps (I := fun done (nodes : Array BakedNode) =>
    ∀ p, nodes[bakedIndex root p]? = some (g.recordAmong catalog root done p))
    (List.finRange g.nodes.size) (fun p => ?_) (fun done q rest nodes hl hnodes p => ?_) p
  · rw [recordAmong_nil, hnodes p]
  · have hq : q ∉ done := not_mem_done (List.nodup_finRange _) hl
    have hinj := bakedIndex_injective root
    have hnodup := (nodup_childrenOf (g := g) q).map hinj
    rw [adjacency_get hpos, sortedChildren_linksOf, getElem?_linkChildren hnodup, hnodes p,
      Option.map_some, ← h.recordAmong_concat catalog hq p, after?_map hinj, List.head?_map]
    simp only [bakedIndex_inj]

/-- The record of every node of a baked tree. -/
theorem getElem?_compile {positions : g.Positions} (hpos : g.Positioned positions)
    (catalog : Catalog) (warnings : Array BakeWarning) (p : Fin g.nodes.size) :
    (compile g catalog (g.adjacency positions).1 root warnings).tree.nodes[bakedIndex root p]? =
      some (g.bakedRecord catalog root p) := by
  refine h.getElem?_linkAll hpos catalog (fun p => ?_) p
  rw [Array.getElem?_map, Array.getElem?_map, List.getElem?_toArray, getElem?_bakedOrder]
  rfl

end Rooted

@[simp] theorem size_linkAll (adjacency : Adjacency g.nodes.size) (root : Fin g.nodes.size)
    (nodes : Array BakedNode) : (linkAll g adjacency root nodes).size = nodes.size := by
  refine foldl_keeps (I := fun _ (nodes' : Array BakedNode) => nodes'.size = nodes.size) _ rfl ?_
  intro _ _ _ nodes' _ hsize
  rw [size_linkChildren, hsize]

@[simp] theorem size_compile (catalog : Catalog) (adjacency : Adjacency g.nodes.size)
    (root : Fin g.nodes.size) (warnings : Array BakeWarning) :
    (compile g catalog adjacency root warnings).tree.nodes.size = g.nodes.size := by
  rw [compile, size_linkAll, Array.size_map, Array.size_map, List.size_toArray,
    length_bakedOrder]

end Graph

end BehaviorTree
