import BehaviorTree.Proofs.Baked.Links

/-!
# Children

The children of a node are the chain of siblings from its first child on (`Chained`). In a forest
`BakedTree.children` follows that chain to its end (`children_chained`); no child comes twice
(`nodup_children`), and the relation `Child` of parents to children has one parent at most for
every node and no loop (`child_leftUnique`, `child_acyclic`). `BakedTree.Below` is what a tick from
a root can come to.
-/

namespace BehaviorTree

open Relation

variable {nodes : Array BakedNode}

/-- The list holds the indices from `o` on along the sibling links, to the last one. -/
def Chained (nodes : Array BakedNode) : Option Nat → List Nat → Prop
  | o, [] => o = none
  | o, j :: js => o = some j ∧ Chained nodes (siblingOf nodes j) js

theorem Chained.unique {o : Option Nat} {l l' : List Nat} (h : Chained nodes o l)
    (h' : Chained nodes o l') : l = l' := by
  induction l generalizing o l' with
  | nil =>
    cases h
    cases l' with
    | nil => rfl
    | cons _ _ => cases h'.1
  | cons j js ih =>
    obtain ⟨rfl, h⟩ := h
    cases l' with
    | nil => cases h'
    | cons j' js' =>
      obtain ⟨hj, h'⟩ := h'
      cases hj
      rw [ih h h']

/-- One step along the sibling links. -/
def Follows (nodes : Array BakedNode) (i j : Nat) : Prop := siblingOf nodes i = some j

theorem Chained.mem_iff {o : Option Nat} {l : List Nat} (h : Chained nodes o l) {j : Nat} :
    j ∈ l ↔ ∃ i, o = some i ∧ ReflTransGen (Follows nodes) i j := by
  induction l generalizing o with
  | nil =>
    cases h
    simp
  | cons i is ih =>
    obtain ⟨rfl, h⟩ := h
    rw [List.mem_cons, ih h]
    constructor
    · rintro (rfl | ⟨k, hk, hkj⟩)
      · exact ⟨j, rfl, .refl⟩
      · exact ⟨i, rfl, .head hk hkj⟩
    · rintro ⟨k, hk, hkj⟩
      cases hk
      rcases hkj.cases_head with rfl | ⟨k, hk, hkj⟩
      · exact .inl rfl
      · exact .inr ⟨k, hk, hkj⟩

theorem Chained.nodup (hac : Acyclic (Follows nodes)) {o : Option Nat} {l : List Nat}
    (h : Chained nodes o l) : l.Nodup := by
  induction l generalizing o with
  | nil => exact List.nodup_nil
  | cons i is ih =>
    refine List.nodup_cons.2 ⟨fun hi => ?_, ih h.2⟩
    obtain ⟨k, hk, hki⟩ := h.2.mem_iff.1 hi
    exact hac i (.head' hk hki)

/-- `j` is a child of `i`. -/
def Child (nodes : Array BakedNode) (i j : Nat) : Prop :=
  ∃ c, firstChildOf nodes i = some c ∧ ReflTransGen (Follows nodes) c j

theorem leads_of_follows {i j : Nat} (h : Follows nodes i j) : Leads nodes i j :=
  leads_iff.2 (.inr h)

theorem Child.leads {i j : Nat} (h : Child nodes i j) : TransGen (Leads nodes) i j := by
  obtain ⟨c, hc, hcj⟩ := h
  exact .head' (leads_iff.2 (.inl hc)) (ReflTransGen.mono (fun _ _ => leads_of_follows) _ _ hcj)

/-! ## Forests -/

namespace IsForest

variable (h : IsForest nodes)
include h

theorem follows_acyclic : Acyclic (Follows nodes) := h.loopless.mono fun _ _ => leads_of_follows

theorem child_acyclic : Acyclic (Child nodes) := h.loopless.of_transGen fun _ _ hc => hc.leads

theorem child_lt {i j : Nat} (hc : Child nodes i j) : j < nodes.size := by
  obtain ⟨k, -, hk⟩ := TransGen.tail'_iff.1 hc.leads
  exact h.target_lt hk

/-- A node has one parent at most: of two sibling chains that meet, both came from the same
first child. -/
theorem child_leftUnique : Relator.LeftUnique (Child nodes) := by
  rintro i i' j ⟨c, hc, hcj⟩ ⟨c', hc', hcj'⟩
  induction hcj with
  | refl =>
    rcases hcj'.cases_tail with rfl | ⟨k, -, hk⟩
    · exact h.links.first hc hc'
    · exact absurd hk (h.links.apart hc)
  | @tail j k _ hjk ih =>
    rcases hcj'.cases_tail with rfl | ⟨m, hcm, hmk⟩
    · exact absurd hjk (h.links.apart hc')
    · cases h.links.sibling hjk hmk
      exact ih hcm

end IsForest

namespace BakedTree

variable {t : BakedTree} (h : IsForest t.nodes)
include h

theorem siblings_chained {o : Option Nat} (ho : ∀ j, o = some j → j < t.size) :
    Chained t.nodes o (t.siblings t.size o) := by
  cases o with
  | none => cases t.size <;> rfl
  | some j =>
    have := h.follows_acyclic.of_depth (s := Finset.range t.size)
      (P := fun d i => Chained t.nodes (some i) (t.siblings d (some i)))
      (fun i k hk => Finset.mem_range.2 (h.target_lt (leads_of_follows hk))) ?_ j
      (Finset.mem_range.2 (ho j rfl))
    · rwa [Finset.card_range] at this
    · intro d i ih
      refine ⟨rfl, ?_⟩
      change Chained t.nodes (siblingOf t.nodes i) (t.siblings d (siblingOf t.nodes i))
      cases hs : siblingOf t.nodes i with
      | none => cases d <;> rfl
      | some k => exact ih k hs

theorem children_chained (i : Nat) : Chained t.nodes (firstChildOf t.nodes i) (t.children i) :=
  siblings_chained h fun _ hj => h.target_lt (leads_iff.2 (.inl hj))

theorem mem_children {i j : Nat} : j ∈ t.children i ↔ Child t.nodes i j :=
  (children_chained h i).mem_iff

theorem nodup_children (i : Nat) : (t.children i).Nodup :=
  (children_chained h i).nodup h.follows_acyclic

theorem disjoint_children {i j : Nat} (hij : i ≠ j) : (t.children i).Disjoint (t.children j) := by
  intro c hi hj
  exact hij (h.child_leftUnique ((mem_children h).1 hi) ((mem_children h).1 hj))

end BakedTree

/-! ## The nodes below a root -/

namespace BakedTree

/-- The index is that of the root or is below it. -/
def Reaches (t : BakedTree) (root : Int32) (i : Nat) : Prop :=
  ∃ r, linkTarget? root = some r ∧ ReflTransGen (Child t.nodes) r i

/-- The record is one of the subtree of the root, and stands at the index. -/
structure Below (t : BakedTree) (root : Int32) (i : Nat) (n : BakedNode) : Prop where
  reached : t.Reaches root i
  record : t.get? i = some n

theorem Reaches.child {t : BakedTree} {root : Int32} {i j : Nat} (h : t.Reaches root i)
    (hij : Child t.nodes i j) : t.Reaches root j := by
  obtain ⟨r, hr, hri⟩ := h
  exact ⟨r, hr, hri.tail hij⟩

end BakedTree

end BehaviorTree
