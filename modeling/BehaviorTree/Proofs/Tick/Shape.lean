import BehaviorTree.Proofs.Baked.Children
import BehaviorTree.Proofs.Tick.Rules

/-!
# The behaviour that links make

`Behavior.Fits nodes b`: the records of `nodes` and their links below `b.index` are those of `b`.
In a forest every index has such a behaviour (`exists_behavior`), which holds every node once
(`Fits.nodup_indices`), so no more nodes than there are records (`Fits.length_indices_le`).
-/

namespace BehaviorTree

open Relation

theorem mapM_eq_some_iff {α β : Type*} {f : α → Option β} {l : List α} {bs : List β} :
    l.mapM f = some bs ↔ List.Forall₂ (fun a b => f a = some b) l bs := by
  induction l generalizing bs with
  | nil => cases bs <;> simp
  | cons a l ih =>
    rw [List.mapM_cons, List.forall₂_cons_left_iff]
    simp only [← ih]
    cases f a <;> cases l.mapM f <;> simp [eq_comm]

theorem exists_mapM {α β : Type*} {f : α → Option β} {l : List α}
    (h : ∀ a ∈ l, ∃ b, f a = some b) : ∃ bs, l.mapM f = some bs := by
  induction l with
  | nil => exact ⟨[], rfl⟩
  | cons a l ih =>
    obtain ⟨b, hb⟩ := h a (by simp)
    obtain ⟨bs, hbs⟩ := ih fun c hc => h c (List.mem_cons_of_mem _ hc)
    exact ⟨b :: bs, by simp [hb, hbs]⟩

namespace Behavior

mutual

/-- The records below the index of a behaviour are those of the behaviour. -/
def Fits (nodes : Array BakedNode) : Behavior → Prop
  | node i record bs =>
    nodes[i]? = some record ∧ Chained nodes record.firstChild? (bs.map index) ∧ FitsAll nodes bs

/-- `Fits` for each of the behaviours. -/
def FitsAll (nodes : Array BakedNode) : List Behavior → Prop
  | [] => True
  | b :: bs => Fits nodes b ∧ FitsAll nodes bs

end

variable {nodes : Array BakedNode}

theorem fitsAll_iff {bs : List Behavior} : FitsAll nodes bs ↔ ∀ b ∈ bs, Fits nodes b := by
  induction bs with
  | nil => simp [FitsAll]
  | cons b bs ih => simp [FitsAll, ih]

theorem fits_node {i : Nat} {record : BakedNode} {bs : List Behavior} :
    Fits nodes (.node i record bs) ↔ nodes[i]? = some record ∧
      Chained nodes record.firstChild? (bs.map index) ∧ ∀ b ∈ bs, Fits nodes b := by
  rw [Fits, fitsAll_iff]

/-- The children of a behaviour that fits are those of its index. -/
theorem child_iff {i : Nat} {record : BakedNode} {bs : List Behavior}
    (h : Fits nodes (.node i record bs)) {j : Nat} : Child nodes i j ↔ j ∈ bs.map index := by
  obtain ⟨hr, hch, -⟩ := fits_node.1 h
  rw [hch.mem_iff, Child, firstChildOf, hr]
  rfl

/-! ## The indices -/

theorem mem_indicesOfAll {bs : List Behavior} {i : Nat} :
    i ∈ indicesOfAll bs ↔ ∃ b ∈ bs, i ∈ b.indices := by
  induction bs with
  | nil => simp [indicesOfAll]
  | cons b bs ih => simp [indicesOfAll, ih]

/-- The indices of a behaviour are the nodes below its own. -/
theorem Fits.mem_indices {b : Behavior} (h : Fits nodes b) {j : Nat} :
    j ∈ b.indices ↔ ReflTransGen (Child nodes) b.index j := by
  induction b with
  | node i record bs ih =>
    have hbs := (fits_node.1 h).2.2
    rw [indices, List.mem_append, mem_indicesOfAll, List.mem_singleton, index,
      ReflTransGen.cases_head_iff]
    constructor
    · rintro (⟨b, hb, hj⟩ | rfl)
      · exact .inr ⟨b.index, (child_iff h).2 (List.mem_map_of_mem hb), (ih b hb (hbs b hb)).1 hj⟩
      · exact .inl rfl
    · rintro (rfl | ⟨k, hk, hkj⟩)
      · exact .inr rfl
      · obtain ⟨b, hb, rfl⟩ := List.mem_map.1 ((child_iff h).1 hk)
        exact .inl ⟨b, hb, (ih b hb (hbs b hb)).2 hkj⟩

theorem Fits.index_lt {b : Behavior} (h : Fits nodes b) : b.index < nodes.size := by
  cases b with
  | node i record bs => exact (Array.getElem?_eq_some_iff.1 (fits_node.1 h).1).1

section
variable (hf : IsForest nodes)
include hf

theorem nodup_indicesOfAll {i : Nat} {bs : List Behavior} (hbs : ∀ b ∈ bs, Fits nodes b)
    (hch : ∀ b ∈ bs, Child nodes i b.index) (hnd : (bs.map index).Nodup)
    (ih : ∀ b ∈ bs, b.indices.Nodup) : (indicesOfAll bs).Nodup := by
  induction bs with
  | nil => exact List.nodup_nil
  | cons b bs ihl =>
    rw [List.map_cons, List.nodup_cons] at hnd
    have hsub : ∀ c ∈ bs, c ∈ b :: bs := fun c hc => List.mem_cons_of_mem _ hc
    refine List.nodup_append.2 ⟨ih b (by simp), ihl (fun c hc => hbs c (hsub c hc))
      (fun c hc => hch c (hsub c hc)) hnd.2 (fun c hc => ih c (hsub c hc)), ?_⟩
    -- what is below two siblings makes them the same one
    rintro j hj j' hj' rfl
    obtain ⟨c, hc, hjc⟩ := mem_indicesOfAll.1 hj'
    have heq := eq_of_below hf.child_leftUnique hf.child_acyclic (hch b (by simp))
      (hch c (hsub c hc)) ((hbs b (by simp)).mem_indices.1 hj)
      ((hbs c (hsub c hc)).mem_indices.1 hjc)
    exact hnd.1 (heq ▸ List.mem_map_of_mem hc)

theorem Fits.nodup_indices {b : Behavior} (h : Fits nodes b) : b.indices.Nodup := by
  induction b with
  | node i record bs ih =>
    obtain ⟨hr, hch, hbs⟩ := fits_node.1 h
    have hchild : ∀ b ∈ bs, Child nodes i b.index := fun b hb =>
      (child_iff h).2 (List.mem_map_of_mem hb)
    refine List.nodup_append.2 ⟨nodup_indicesOfAll hf hbs hchild (hch.nodup hf.follows_acyclic)
      fun b hb => ih b hb (hbs b hb), List.nodup_singleton i, ?_⟩
    rintro j hj j' hj' rfl
    rw [List.mem_singleton] at hj'
    subst hj'
    obtain ⟨b, hb, hjb⟩ := mem_indicesOfAll.1 hj
    exact hf.child_acyclic.not_back (hchild b hb) ((hbs b hb).mem_indices.1 hjb)

theorem Fits.indices_lt {b : Behavior} (h : Fits nodes b) : ∀ j ∈ b.indices, j < nodes.size := by
  intro j hj
  rcases (h.mem_indices.1 hj).cases_tail with rfl | ⟨k, -, hk⟩
  · exact h.index_lt
  · exact hf.child_lt hk

theorem Fits.length_indices_le {b : Behavior} (h : Fits nodes b) :
    b.indices.length ≤ nodes.size := by
  have hsub : b.indices ⊆ List.range nodes.size := fun j hj =>
    List.mem_range.2 (h.indices_lt hf j hj)
  simpa using ((h.nodup_indices hf).subperm hsub).length_le

end

theorem children_of_fits {t : BakedTree} (hf : IsForest t.nodes) {i : Nat} {record : BakedNode}
    {bs : List Behavior} (h : (node i record bs).Fits t.nodes) :
    t.children i = bs.map index := by
  obtain ⟨hr, hch, -⟩ := fits_node.1 h
  have hchildren := BakedTree.children_chained hf i
  rw [firstChildOf, hr] at hchildren
  exact hchildren.unique hch

end Behavior

/-! ## Reading the behaviour off the links -/

namespace BakedTree

variable {t : BakedTree} (hf : IsForest t.nodes)
include hf

theorem fits_of_behaviorWithin {depth i : Nat} {b : Behavior}
    (h : t.behaviorWithin? depth i = some b) : b.index = i ∧ b.Fits t.nodes := by
  induction depth generalizing i b with
  | zero => cases h
  | succ depth ih =>
    rw [behaviorWithin?] at h
    obtain ⟨record, hr, h⟩ := Option.bind_eq_some_iff.1 h
    obtain ⟨bs, hbs, h⟩ := Option.bind_eq_some_iff.1 h
    cases h
    have hall : bs.Forall₂ (fun b j => b.Fits t.nodes ∧ b.index = j) (t.children i) :=
      (mapM_eq_some_iff.1 hbs).flip.imp fun b j hj => (ih hj).symm
    obtain ⟨hfit, hidx⟩ := (List.forall₂_and_left _ _).1 hall
    have hidx : bs.map Behavior.index = t.children i := by
      rwa [← List.forall₂_eq_eq_eq, List.forall₂_map_left_iff]
    have hch := children_chained hf i
    rw [firstChildOf, show t.nodes[i]? = some record from hr] at hch
    exact ⟨rfl, Behavior.fits_node.2 ⟨hr, hidx ▸ hch, hfit⟩⟩

/-- Every index of a forest has a behaviour: a path down is no longer than there are nodes. -/
theorem exists_behavior {i : Nat} (hi : i < t.size) : ∃ b, t.behavior? i = some b := by
  have := hf.child_acyclic.of_depth (s := Finset.range t.size)
    (P := fun d i => i < t.size → ∃ b, t.behaviorWithin? d i = some b)
    (fun i j hj => Finset.mem_range.2 (hf.child_lt hj)) ?_ i (Finset.mem_range.2 hi) hi
  · rwa [Finset.card_range] at this
  · intro d i ih hi
    obtain ⟨bs, hbs⟩ := exists_mapM fun j hj =>
      ih j ((mem_children hf).1 hj) (hf.child_lt ((mem_children hf).1 hj))
    refine ⟨.node i t.nodes[i] bs, ?_⟩
    rw [behaviorWithin?, hbs, get?, Array.getElem?_eq_getElem hi]
    rfl

theorem fits_of_behavior {i : Nat} {b : Behavior} (h : t.behavior? i = some b) :
    b.index = i ∧ b.Fits t.nodes := fits_of_behaviorWithin hf h

end BakedTree

end BehaviorTree
