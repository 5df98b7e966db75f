import BehaviorTree.Baked.Forest
import BehaviorTree.Proofs.Acyclic

/-!
# Links between records

`firstChildOf` and `siblingOf` read the two links of the record at an index. `Unshared` splits
"no index is the target of two links" into what later proofs use: an index is first child of one
node or next sibling of one node, never both.
-/

namespace BehaviorTree

open Relation

/-! ## Link words -/

@[simp] theorem linkTarget?_noNode : linkTarget? noNode = none := by decide

theorem toInt_ofNat_of_lt {k : Nat} (h : k < 2147483648) : (Int32.ofNat k).toInt = k := by
  rw [Int32.toInt_ofNat_of_lt]
  exact h

theorem linkTarget?_eq_some_iff {link : Int32} {i : Nat} :
    linkTarget? link = some i ↔ link.toInt = i := by
  unfold linkTarget?
  split <;> rename_i h <;> rw [Int32.lt_iff_toInt_lt, Int32.toInt_zero] at h
  · simp only [reduceCtorEq, false_iff]
    omega
  · rw [Option.some.injEq]
    omega

theorem linkTarget?_ofNat {k : Nat} (h : k < 2147483648) :
    linkTarget? (Int32.ofNat k) = some k := linkTarget?_eq_some_iff.2 (toInt_ofNat_of_lt h)

/-! ## The links of a record in an array -/

variable {nodes : Array BakedNode}

/-- The first child of the node at an index. -/
def firstChildOf (nodes : Array BakedNode) (i : Nat) : Option Nat := nodes[i]?.bind (·.firstChild?)

/-- The next sibling of the node at an index. -/
def siblingOf (nodes : Array BakedNode) (i : Nat) : Option Nat := nodes[i]?.bind (·.nextSibling?)

theorem BakedNode.targets_eq (n : BakedNode) :
    n.targets = n.firstChild?.toList ++ n.nextSibling?.toList := by
  simp only [targets, links, firstChild?, nextSibling?, List.filterMap_cons, List.filterMap_nil]
  cases linkTarget? n.firstChild <;> cases linkTarget? n.nextSibling <;> rfl

theorem BakedNode.mem_targets {n : BakedNode} {j : Nat} :
    j ∈ n.targets ↔ n.firstChild? = some j ∨ n.nextSibling? = some j := by
  simp [targets_eq]

theorem leads_iff {i j : Nat} :
    Leads nodes i j ↔ firstChildOf nodes i = some j ∨ siblingOf nodes i = some j := by
  simp only [Leads, BakedNode.mem_targets, firstChildOf, siblingOf, Option.bind_eq_some_iff]
  grind

theorem lt_of_leads {i j : Nat} (h : Leads nodes i j) : i < nodes.size := by
  obtain ⟨n, hn, -⟩ := h
  exact (Array.getElem?_eq_some_iff.1 hn).1

theorem mem_linkTargets {j : Nat} : j ∈ linkTargets nodes ↔ ∃ i, Leads nodes i j := by
  simp only [linkTargets, List.mem_flatMap, Leads, Array.mem_toList_iff]
  constructor
  · rintro ⟨n, hn, hj⟩
    obtain ⟨i, hi⟩ := Array.mem_iff_getElem?.1 hn
    exact ⟨i, n, hi, hj⟩
  · rintro ⟨i, n, hi, hj⟩
    exact ⟨n, Array.mem_of_getElem? hi, hj⟩

/-- Links that lead nowhere or into the array lead into it. -/
theorem target_lt_of_inRange (h : ∀ n ∈ nodes, ∀ link ∈ n.links,
    link = noNode ∨ ∃ target < nodes.size, linkTarget? link = some target) {i j : Nat}
    (hl : Leads nodes i j) : j < nodes.size := by
  obtain ⟨n, hn, hj⟩ := hl
  obtain ⟨link, hlink, ht⟩ := List.mem_filterMap.1 hj
  rcases h n (Array.mem_of_getElem? hn) link hlink with rfl | ⟨t, hlt, ht'⟩
  · simp at ht
  · rw [ht] at ht'
    cases ht'
    exact hlt

/-- No index is the target of two links, link by link. -/
structure Unshared (nodes : Array BakedNode) : Prop where
  first : ∀ {i i' j}, firstChildOf nodes i = some j → firstChildOf nodes i' = some j → i = i'
  sibling : ∀ {i i' j}, siblingOf nodes i = some j → siblingOf nodes i' = some j → i = i'
  apart : ∀ {i i' j}, firstChildOf nodes i = some j → siblingOf nodes i' ≠ some j

namespace Unshared

theorem leftUnique (h : Unshared nodes) : Relator.LeftUnique (Leads nodes) := by
  intro i i' j hi hi'
  rw [leads_iff] at hi hi'
  rcases hi with hi | hi <;> rcases hi' with hi' | hi'
  · exact h.first hi hi'
  · exact absurd hi' (h.apart hi)
  · exact absurd hi (h.apart hi')
  · exact h.sibling hi hi'

end Unshared

theorem unshared_of_nodup (h : (linkTargets nodes).Nodup) : Unshared nodes := by
  obtain ⟨hown, hpair⟩ := List.nodup_flatMap.1 h
  rw [List.pairwise_iff_getElem] at hpair
  have huniq : Relator.LeftUnique (Leads nodes) := by
    rintro i i' j ⟨n, hn, hj⟩ ⟨n', hn', hj'⟩
    obtain ⟨hi, rfl⟩ := Array.getElem?_eq_some_iff.1 hn
    obtain ⟨hi', rfl⟩ := Array.getElem?_eq_some_iff.1 hn'
    rcases Nat.lt_trichotomy i i' with hlt | rfl | hlt
    · exact absurd hj' (hpair i i' (by simpa) (by simpa) hlt hj)
    · rfl
    · exact absurd hj (hpair i' i (by simpa) (by simpa) hlt hj')
  refine ⟨fun hi hi' => huniq (leads_iff.2 (.inl hi)) (leads_iff.2 (.inl hi')),
    fun hi hi' => huniq (leads_iff.2 (.inr hi)) (leads_iff.2 (.inr hi')), fun {i i' j} hi hi' => ?_⟩
  cases huniq (leads_iff.2 (.inl hi)) (leads_iff.2 (.inr hi'))
  obtain ⟨n, hn, hfirst⟩ := Option.bind_eq_some_iff.1 hi
  obtain ⟨n', hn', hnext⟩ := Option.bind_eq_some_iff.1 hi'
  cases hn.symm.trans hn'
  have := hown n (Array.mem_toList_iff.2 (Array.mem_of_getElem? hn))
  rw [BakedNode.targets_eq, hfirst, hnext] at this
  simp at this

theorem nodup_of_unshared (h : Unshared nodes) : (linkTargets nodes).Nodup := by
  refine List.nodup_flatMap.2 ⟨fun n hn => ?_, ?_⟩
  · obtain ⟨i, hi⟩ := Array.mem_iff_getElem?.1 (Array.mem_toList_iff.1 hn)
    rw [BakedNode.targets_eq]
    cases hfirst : n.firstChild? with
    | none => cases n.nextSibling? <;> simp
    | some j =>
      have hapart : siblingOf nodes i ≠ some j :=
        h.apart (i := i) (by simp [firstChildOf, hi, hfirst])
      cases hnext : n.nextSibling? with
      | none => simp
      | some k => simpa [siblingOf, hi, hnext, eq_comm] using hapart
  · rw [List.pairwise_iff_getElem]
    intro i i' hi hi' hlt j hj hj'
    have hlead : ∀ k (hk : k < nodes.toList.length), j ∈ nodes.toList[k].targets →
        Leads nodes k j := fun k hk hj =>
      ⟨nodes.toList[k], by simp, hj⟩
    have := h.leftUnique (hlead i hi hj) (hlead i' hi' hj')
    omega

/-! ## Forests -/

namespace IsForest

variable (h : IsForest nodes)
include h

theorem links : Unshared nodes := unshared_of_nodup h.unshared

theorem target_lt {i j : Nat} (hl : Leads nodes i j) : j < nodes.size :=
  target_lt_of_inRange h.inRange hl

theorem loopless : Acyclic (Leads nodes) := h.acyclic

end IsForest

end BehaviorTree
