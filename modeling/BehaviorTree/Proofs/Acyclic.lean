import Mathlib

/-!
# Acyclic relations

The links of a baked tree, the relation of parents to children and the resolved edges of a graph
are acyclic, and no node has two parents. What follows from that alone is here:

* `Acyclic.of_depth`: on a finite set, what holds of a node at depth `d + 1` once it holds below
  it at depth `d`, holds at the depth of the number of nodes. A recursion with fuel that follows
  the relation ends with that much fuel.
* `Acyclic.below_wf`, `Acyclic.above_wf`: induction from the leaves up, and from the roots down.
* `eq_of_below`: nothing is below two children of one node.
-/

namespace BehaviorTree

open Relation

variable {α : Type*} {R S : α → α → Prop}

/-- No element leads back to itself. -/
def Acyclic (R : α → α → Prop) : Prop := ∀ a, ¬ TransGen R a a

namespace Acyclic

theorem mono (h : Acyclic S) (hRS : ∀ a b, R a b → S a b) : Acyclic R :=
  fun a ha => h a (TransGen.mono hRS a a ha)

/-- A relation whose steps are paths of an acyclic one is acyclic. -/
theorem of_transGen (h : Acyclic S) (hRS : ∀ a b, R a b → TransGen S a b) : Acyclic R :=
  fun a ha => h a (transGen_minimal hRS a a ha)

/-- A relation without endless paths is acyclic. -/
theorem of_acc (h : ∀ a, Acc (fun b a => R a b) a) : Acyclic R := by
  intro a ha
  have hwf : WellFounded fun b a => R a b := ⟨h⟩
  exact hwf.transGen.irrefl.irrefl a (transGen_swap.2 ha)

/-- A relation along which a number grows is acyclic. -/
theorem of_rank (rank : α → Nat) (h : ∀ a b, R a b → rank a < rank b) : Acyclic R := by
  have hlt : ∀ a b, TransGen R a b → rank a < rank b := by
    intro a b hab
    induction hab with
    | single hab => exact h _ _ hab
    | tail _ hbc ih => exact ih.trans (h _ _ hbc)
  exact fun a ha => Nat.lt_irrefl _ (hlt a a ha)

/-- Two acyclic relations, neither of which goes on where the other one has led to. -/
theorem or (h : Acyclic R) (h' : Acyclic S) (hRS : ∀ a b c, R a b → ¬ S b c)
    (hSR : ∀ a b c, S a b → ¬ R b c) : Acyclic fun a b => R a b ∨ S a b := by
  have key : ∀ a b, TransGen (fun a b => R a b ∨ S a b) a b → TransGen R a b ∨ TransGen S a b := by
    intro a b hab
    induction hab with
    | single hab => exact hab.imp .single .single
    | tail _ hbc ih =>
      rcases ih with hab | hab <;> obtain ⟨d, -, hdb⟩ := TransGen.tail'_iff.1 hab
      · exact .inl (hab.tail (hbc.resolve_right (hRS d _ _ hdb)))
      · exact .inr (hab.tail (hbc.resolve_left (hSR d _ _ hdb)))
  exact fun a ha => (key a a ha).elim (h a) (h' a)

theorem not_back (h : Acyclic R) {a b : α} (hab : R a b) : ¬ ReflTransGen R b a :=
  fun hba => h a (TransGen.head' hab hba)

theorem below_wf [Finite α] (h : Acyclic R) : WellFounded fun b a => R a b := by
  have : Std.Irrefl (Function.swap (TransGen R)) := ⟨h⟩
  have hwf : WellFounded (Function.swap (TransGen R)) := Finite.wellFounded_of_trans_of_irrefl _
  exact Subrelation.wf (fun hab => TransGen.single hab) hwf

theorem above_wf [Finite α] (h : Acyclic R) : WellFounded R := by
  have : Std.Irrefl (TransGen R) := ⟨h⟩
  have hwf : WellFounded (TransGen R) := Finite.wellFounded_of_trans_of_irrefl _
  exact Subrelation.wf (fun hab => TransGen.single hab) hwf

/-- Induction on the depth, which the number of elements bounds. -/
theorem of_depth {s : Finset α} {P : Nat → α → Prop} (h : Acyclic R)
    (hs : ∀ a b, R a b → b ∈ s) (step : ∀ d a, (∀ b, R a b → P d b) → P (d + 1) a) :
    ∀ a ∈ s, P s.card a := by
  classical
  -- the fuel bounds the number of elements that can still be met
  have key : ∀ d a, a ∈ s → (s.filter (ReflTransGen R a)).card ≤ d → P d a := by
    intro d
    induction d with
    | zero =>
      intro a ha hd
      have : a ∈ s.filter (ReflTransGen R a) := Finset.mem_filter.2 ⟨ha, .refl⟩
      have := Finset.card_pos.2 ⟨a, this⟩
      omega
    | succ d ih =>
      intro a ha hd
      refine step d a fun b hab => ih b (hs a b hab) ?_
      have hsub : s.filter (ReflTransGen R b) ⊂ s.filter (ReflTransGen R a) := by
        rw [Finset.ssubset_iff_of_subset fun x hx => ?_]
        · refine ⟨a, Finset.mem_filter.2 ⟨ha, .refl⟩, fun hx => ?_⟩
          exact h.not_back hab (Finset.mem_filter.1 hx).2
        · rw [Finset.mem_filter] at hx ⊢
          exact ⟨hx.1, .head hab hx.2⟩
      have := Finset.card_lt_card hsub
      omega
  intro a ha
  exact key _ a ha (Finset.card_filter_le _ _)

end Acyclic

/-! ## Nodes with one parent -/

/-- Of two nodes above a third, one is above the other. -/
theorem total_of_leftUnique (hu : Relator.LeftUnique R) {a b x : α} (ha : ReflTransGen R a x)
    (hb : ReflTransGen R b x) : ReflTransGen R a b ∨ ReflTransGen R b a := by
  have hu' : Relator.RightUnique (Function.swap R) := fun _ _ _ h₁ h₂ => hu h₁ h₂
  rcases ReflTransGen.total_of_right_unique hu' (reflTransGen_swap.2 ha) (reflTransGen_swap.2 hb)
    with hab | hba
  · exact .inr (reflTransGen_swap.1 hab)
  · exact .inl (reflTransGen_swap.1 hba)

/-- A loop is not entered from outside: what is above a node on a loop is on one. -/
theorem loop_of_above (hu : Relator.LeftUnique R) {a b : α} (hb : TransGen R b b)
    (hab : ReflTransGen R a b) : TransGen R a a := by
  induction hab with
  | refl => exact hb
  | @tail c b _ hcb ih =>
    obtain ⟨d, hbd, hdb⟩ := TransGen.tail'_iff.1 hb
    cases hu hcb hdb
    exact ih (.head' hcb hbd)

/-- A node that is above a child of `p` is the child itself or above `p`. -/
theorem eq_or_above_parent (hu : Relator.LeftUnique R) {p a b : α} (hb : R p b)
    (hab : ReflTransGen R a b) : a = b ∨ ReflTransGen R a p := by
  rcases hab.cases_tail with rfl | ⟨q, haq, hqb⟩
  · exact .inl rfl
  · cases hu hqb hb
    exact .inr haq

/-- Nothing is below two children of one node. -/
theorem eq_of_below (hu : Relator.LeftUnique R) (hac : Acyclic R) {p a b x : α} (ha : R p a)
    (hb : R p b) (hax : ReflTransGen R a x) (hbx : ReflTransGen R b x) : a = b := by
  rcases total_of_leftUnique hu hax hbx with hab | hba
  · rcases eq_or_above_parent hu hb hab with rfl | hap
    · rfl
    · exact absurd hap (hac.not_back ha)
  · rcases eq_or_above_parent hu ha hba with rfl | hbp
    · rfl
    · exact absurd hbp (hac.not_back hb)

end BehaviorTree
