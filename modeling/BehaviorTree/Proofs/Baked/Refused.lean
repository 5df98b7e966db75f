import BehaviorTree.Proofs.Baked.Check
import BehaviorTree.Stored.Tree

/-!
# Refused records

`ofNodes_blames`: an index that records are refused for is the target of two links, or it is on a
loop of links, or behind one whose indices are greater. `looped` shows the third: its leaf is
blamed for the loop that the elder sibling makes (`looped_blames_leaf`).
-/

namespace BehaviorTree.BakedTree

open Relation

variable {nodes : Array BakedNode} {ids : Array IdEntry} {k : Nat}

/-- The links of an array without a fault but, it may be, a loop. -/
structure WellLinked (nodes : Array BakedNode) : Prop where
  nonempty : 0 < nodes.size
  inRange : ∀ n ∈ nodes, ∀ link ∈ n.links, LinkFits nodes.size link
  unshared : (linkTargets nodes).Nodup
  rootUnlinked : 0 ∉ linkTargets nodes
  rootAlone : ∀ n, nodes[0]? = some n → n.nextSibling = noNode

/-- An index behind a loop is on it, or a loop leads to it from outside. -/
theorem BehindLoop.onLoop_or (h : BehindLoop nodes k) :
    TransGen (Leads nodes) k k ∨
      ∃ i, i ≠ k ∧ TransGen (Leads nodes) i i ∧ TransGen (Leads nodes) i k := by
  obtain ⟨i, hloop, hik⟩ := h
  rcases reflTransGen_iff_eq_or_transGen.1 hik with rfl | hik
  · exact .inl hloop
  by_cases hk : i = k
  · exact .inl (hk ▸ hik)
  · exact .inr ⟨i, hk, hloop, hik⟩

/-- Links whose only fault is a loop are refused for one. -/
theorem WellLinked.exists_blamed (h : WellLinked nodes) (ids : Array IdEntry)
    (hk : BehindLoop nodes k) : ∃ j, ofNodes nodes ids = .error (.sharedOrCyclic j) := by
  have hno : ¬ IsForest nodes := fun hf => by
    obtain ⟨i, hloop, -⟩ := hk
    exact hf.acyclic i hloop
  have hends := ofNodes_ends nodes ids
  cases hof : ofNodes nodes ids with
  | ok t => exact absurd (hends.of_ok hof).1.forest hno
  | error e =>
    have he := hends.of_error hof
    cases e with
    | empty => exact absurd he h.nonempty.ne'
    | linkOutOfRange source link size =>
      obtain ⟨rfl, hfit, n, hn, hlink⟩ := he
      exact absurd (h.inRange n (Array.mem_of_getElem? hn) link hlink) hfit
    | rootIsLinked source => exact absurd (mem_linkTargets.2 ⟨source, he⟩) h.rootUnlinked
    | sharedOrCyclic j => exact ⟨j, rfl⟩
    | rootHasSibling =>
      obtain ⟨n, hn, hnext⟩ := he
      exact absurd (h.rootAlone n hn) hnext
    | idOutOfRange id index size => exact absurd he.1 hno

/-- The index that such links are refused for. -/
theorem WellLinked.isLeast_of_blamed (h : WellLinked nodes)
    (hk : ofNodes nodes ids = .error (.sharedOrCyclic k)) : IsLeast {j | BehindLoop nodes j} k := by
  rcases (ofNodes_ends nodes ids).of_error hk with hcount | ⟨-, hleast⟩
  · have := List.nodup_iff_count_le_one.1 h.unshared k
    omega
  · exact hleast

/-- An index that records are refused for is the target of two links, or it is on a loop of links,
or links lead to it from a loop of a greater index. Where the links have no fault but loops, it is
the least index that is on a loop or behind one. -/
theorem ofNodes_blames :
    (ofNodes nodes ids = .error (.sharedOrCyclic k) →
      2 ≤ (linkTargets nodes).count k ∨ TransGen (Leads nodes) k k ∨
        ∃ i > k, TransGen (Leads nodes) i i ∧ TransGen (Leads nodes) i k) ∧
    (WellLinked nodes →
      (ofNodes nodes ids = .error (.sharedOrCyclic k) ↔ IsLeast {j | BehindLoop nodes j} k)) := by
  refine ⟨fun h => ?_, fun hwell => ⟨hwell.isLeast_of_blamed, fun hleast => ?_⟩⟩
  · rcases (ofNodes_ends nodes ids).of_error h with hcount | ⟨-, hbehind, hleast⟩
    · exact .inl hcount
    · rcases BehindLoop.onLoop_or hbehind with hloop | ⟨i, hne, hloop, hik⟩
      · exact .inr (.inl hloop)
      · have hle : k ≤ i := hleast ⟨i, hloop, .refl⟩
        exact .inr (.inr ⟨i, lt_of_le_of_ne hle hne.symm, hloop, hik⟩)
  · obtain ⟨j, hj⟩ := hwell.exists_blamed ids hleast.1
    rwa [hleast.unique (hwell.isLeast_of_blamed hj)]

/-- A node that is its own first child, with a leaf as its sibling. -/
def looped : Array BakedNode :=
  #[{}, .action 5, { kind := .sequence, firstChild := 2, nextSibling := 1 }]

theorem wellLinked_looped : WellLinked looped where
  nonempty := by decide
  inRange := by
    intro n hn link hlink
    simp only [looped, List.mem_toArray, List.mem_cons, List.not_mem_nil, or_false] at hn
    rcases hn with rfl | rfl | rfl <;> rcases List.mem_pair.1 hlink with rfl | rfl
    case inr.inr.inl => exact .inr ⟨2, by decide, by decide⟩
    case inr.inr.inr => exact .inr ⟨1, by decide, by decide⟩
    all_goals exact .inl rfl
  unshared := by decide
  rootUnlinked := by decide
  rootAlone := by decide

theorem ofNodes_looped : ofNodes looped #[] = .error (.sharedOrCyclic 1) := by cbv

/-- `ofNodes_blames` for `looped`: its leaf is the least index behind the loop. -/
theorem ofNodes_blames_looped :
    ofNodes looped #[] = .error (.sharedOrCyclic 1) ∧ WellLinked looped ∧
      (2 ≤ (linkTargets looped).count 1 ∨ TransGen (Leads looped) 1 1 ∨
        ∃ i > 1, TransGen (Leads looped) i i ∧ TransGen (Leads looped) i 1) ∧
      IsLeast {j | BehindLoop looped j} 1 := by
  obtain ⟨hblamed, hleast⟩ := @ofNodes_blames looped #[] 1
  exact ⟨ofNodes_looped, wellLinked_looped, hblamed ofNodes_looped,
    (hleast wellLinked_looped).1 ofNodes_looped⟩

/-- The node that is blamed for a loop may be the target of one link, lead nowhere, and so be on no
loop. -/
theorem looped_blames_leaf :
    ofNodes looped #[] = .error (.sharedOrCyclic 1) ∧
      (TreeError.sharedOrCyclic 1).message = "node 1 is reached twice while walking the links" ∧
      (linkTargets looped).count 1 = 1 ∧ ¬ TransGen (Leads looped) 1 1 ∧
      TransGen (Leads looped) 2 2 := by
  refine ⟨ofNodes_looped, by decide, by decide, fun h => ?_, .single ?_⟩
  · obtain ⟨j, hj, -⟩ := TransGen.head'_iff.1 h
    rcases leads_iff.1 hj with hj | hj
    · cases hj
    · cases hj
  · exact leads_iff.2 (.inl (by decide))

end BehaviorTree.BakedTree
