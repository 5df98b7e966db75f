import BehaviorTree.Proofs.Bake.Cycle
import BehaviorTree.Proofs.Bake.Edges

/-!
# Parents

`findParents_ends`: the pass over the links gives every node its parent (`IsParents`), or names a
node with two. Among acyclic links some node has no parent, and the root that a bake chooses is
the first such node (`find?_parentless`).
-/

namespace BehaviorTree

open Relation

/-! ## The pass over the links -/

/-- The table holds the parent of every node that has one. -/
def IsParents {n : Nat} (adjacency : Adjacency n) (parents : Bake.Parents n) : Prop :=
  ∀ c p, parents.get c = some p ↔ adjacency.Linked p c

theorem IsParents.leftUnique {n : Nat} {adjacency : Adjacency n} {parents : Bake.Parents n}
    (h : IsParents adjacency parents) : Relator.LeftUnique adjacency.Linked :=
  fun p q c hp hq => Option.some.inj (((h c p).2 hp).symm.trans ((h c q).2 hq))

namespace Bake

variable {g : Graph} {adjacency : Adjacency g.nodes.size}

/-- An error that names a node and two parents of it. -/
def TwoParents (adjacency : Adjacency g.nodes.size) (e : BakeError) : Prop :=
  ∃ child first second, first ≠ second ∧ adjacency.Linked first child ∧
    adjacency.Linked second child ∧
    e = .multipleParents (g.node child).id (g.node first).id (g.node second).id

/-- What the table holds once the links of the nodes `done` and the links `links` of `p` are
taken in. -/
def ParentsAmong (adjacency : Adjacency g.nodes.size) (done : List (Fin g.nodes.size))
    (p : Fin g.nodes.size) (links : List (Link g.nodes.size)) (parents : Parents g.nodes.size) :
    Prop :=
  ∀ c q, parents.get c = some q ↔
    (q ∈ done ∧ adjacency.Linked q c) ∨ (q = p ∧ c ∈ links.map (·.child))

theorem addParent_ends {done : List (Fin g.nodes.size)} {p : Fin g.nodes.size}
    {links : List (Link g.nodes.size)} {link : Link g.nodes.size} {parents : Parents g.nodes.size}
    (hp : p ∉ done) (hlink : link ∈ adjacency.get p) (hnew : link.child ∉ links.map (·.child))
    (h : ParentsAmong adjacency done p links parents) :
    Ends (ParentsAmong adjacency done p (links ++ [link])) (TwoParents adjacency)
      (addParent g parents p link) := by
  unfold addParent
  split
  · rename_i first hfirst
    rcases (h _ _).1 hfirst with ⟨hmem, hlinked⟩ | ⟨-, hmem⟩
    · exact ⟨link.child, first, p, fun he => hp (he ▸ hmem), hlinked, ⟨link, hlink, rfl⟩, rfl⟩
    · exact absurd hmem hnew
  · rename_i hnone
    intro c q
    rw [get_setIfInBounds, List.map_append, List.map_singleton, List.mem_append,
      List.mem_singleton]
    by_cases hc : link.child = c
    · subst hc
      have hno : ¬(q ∈ done ∧ adjacency.Linked q link.child) := fun hq => by
        rw [(h _ _).2 (.inl hq)] at hnone
        cases hnone
      simp [hno, hnew, eq_comm]
    · rw [if_neg hc, h c q, or_iff_left (Ne.symm hc)]

theorem findParents_ends (hnd : ∀ p, ((adjacency.get p).map (·.child)).Nodup) :
    Ends (IsParents adjacency) (TwoParents adjacency) (findParents g adjacency) := by
  have key := Ends.foldlM (E := TwoParents adjacency)
    (I := fun done (parents : Parents g.nodes.size) => ∀ c q, parents.get c = some q ↔
      q ∈ done ∧ adjacency.Linked q c)
    (f := fun parents p =>
      (adjacency.get p).foldlM (fun parents link => addParent g parents p link) parents)
    (List.finRange g.nodes.size) (b := Vector.replicate _ none) (by simp [Vector.get]) ?_
  · exact key.mono (fun parents h c q => by simpa using h c q) fun _ he => he
  intro done p rest parents hl h
  have hp : p ∉ done := not_mem_done (List.nodup_finRange _) hl
  have inner := Ends.foldlM (E := TwoParents adjacency) (I := ParentsAmong adjacency done p)
    (f := fun parents link => addParent g parents p link) (adjacency.get p) (b := parents)
    (by simpa [ParentsAmong] using h) ?_
  · refine inner.mono (fun parents h c q => ?_) fun _ he => he
    rw [h c q, List.mem_append, List.mem_singleton, or_and_right, List.mem_map]
    refine or_congr_right (and_congr_right ?_)
    rintro rfl
    rfl
  · intro links link rest parents hl h
    have hsplit : (adjacency.get p).map (·.child) =
        links.map (·.child) ++ link.child :: rest.map (·.child) := by
      rw [hl, List.map_append, List.map_cons]
    exact addParent_ends hp (by simp [hl]) (not_mem_done (hnd p) hsplit) h

/-! ## The root -/

theorem exists_parentless {n : Nat} {adjacency : Adjacency n} (hac : Acyclic adjacency.Linked)
    (h : 0 < n) : ∃ x, ∀ p, ¬ adjacency.Linked p x := by
  obtain ⟨x, -, hx⟩ := hac.above_wf.has_min Set.univ ⟨⟨0, h⟩, trivial⟩
  exact ⟨x, fun p hp => hx p trivial hp⟩

theorem find?_parentless {n : Nat} {adjacency : Adjacency n} {parents : Parents n}
    (hparents : IsParents adjacency parents) (hac : Acyclic adjacency.Linked) (h : 0 < n) :
    (List.finRange n).find? (parents.get · = none) = some (rootPosition parents h) := by
  unfold rootPosition
  cases hfind : (List.finRange n).find? (parents.get · = none) with
  | some root => rfl
  | none =>
    obtain ⟨x, hx⟩ := exists_parentless hac h
    have hsome := List.find?_eq_none.1 hfind x (List.mem_finRange x)
    obtain ⟨p, hp⟩ := Option.ne_none_iff_exists'.1 (by simpa using hsome)
    exact absurd ((hparents x p).1 hp) (hx p)

end Bake

end BehaviorTree
