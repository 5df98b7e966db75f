import BehaviorTree.Proofs.Baked.Check
import BehaviorTree.Proofs.Baked.Children
import BehaviorTree.Proofs.Json.Parts
import BehaviorTree.Stored.Tree

/-!
# Accepted trees

`ofNodes_exact` says which records and ids make up a tree, and what the links of an accepted one
give: every list of children is read to its end, without repetition, and no node is a child of two.
A stored tree is accepted under the same condition: a JSON text gives a tree exactly if it gives
records and ids (`BakedTree.shape`) that make up one (`decoder_eq_ok_iff`).
-/

namespace BehaviorTree

namespace BakedTree

open Json

theorem decoder_eq_ok_iff {v : Value} {t : BakedTree} :
    decoder v = .ok t ↔ Decoder.record shape v = .ok t ∧ IsTree t.nodes t.ids := by
  unfold decoder
  cases hraw : Decoder.record shape v with
  | error e => simp [bind, Except.bind]
  | ok raw =>
    simp only [bind, Except.bind, pure, Except.pure, Except.ok.injEq]
    cases hof : ofNodes raw.nodes raw.ids with
    | error e =>
      have hno : ¬ IsTree raw.nodes raw.ids := by
        intro h
        rw [ofNodes_eq_ok_iff.2 ⟨h, rfl⟩] at hof
        cases hof
      simp only [reduceCtorEq, false_iff, not_and]
      rintro rfl
      exact hno
    | ok t' =>
      obtain ⟨htree, rfl⟩ := ofNodes_eq_ok_iff.1 hof
      simp only [Except.ok.injEq]
      constructor
      · rintro rfl
        exact ⟨rfl, htree⟩
      · exact fun h => h.1

theorem decode_decoder_eq_ok_iff {text : String} {t : BakedTree} :
    decode decoder text = .ok t ↔
      decode (Decoder.record shape) text = .ok t ∧ IsTree t.nodes t.ids := by
  rw [decode_eq_ok_iff, decode_eq_ok_iff, decoder_eq_ok_iff]
  tauto

/-- Records and ids are accepted exactly if they make up a tree, built in memory or read from a
JSON text. In an accepted tree the children of every node are the whole chain of siblings from its
first child on, which ends, repeats nothing, and meets no other node's. -/
theorem ofNodes_exact (nodes : Array BakedNode) (ids : Array IdEntry) :
    ((∃ t, ofNodes nodes ids = .ok t) ↔ IsTree nodes ids) ∧
    (∀ t, ofNodes nodes ids = .ok t → t = ⟨nodes, ids⟩ ∧
      (∀ i, Chained nodes (firstChildOf nodes i) (t.children i) ∧ (t.children i).Nodup) ∧
      ∀ i j, i ≠ j → (t.children i).Disjoint (t.children j)) ∧
    ∀ text, decode decoder text = .ok ⟨nodes, ids⟩ ↔
      decode (Decoder.record shape) text = .ok ⟨nodes, ids⟩ ∧ IsTree nodes ids := by
  refine ⟨?_, ?_, fun text => decode_decoder_eq_ok_iff⟩
  · constructor
    · rintro ⟨t, ht⟩
      exact (ofNodes_eq_ok_iff.1 ht).1
    · intro h
      exact ⟨_, ofNodes_eq_ok_iff.2 ⟨h, rfl⟩⟩
  · intro t ht
    obtain ⟨⟨hf, -⟩, rfl⟩ := ofNodes_eq_ok_iff.1 ht
    refine ⟨rfl, fun i => ⟨?_, ?_⟩, fun i j hij => ?_⟩
    · exact children_chained (t := ⟨nodes, ids⟩) hf i
    · exact nodup_children hf i
    · exact disjoint_children hf hij

/-- A sequence above one action. -/
def single : BakedTree where
  nodes := #[{ BakedNode.ofKind .sequence with firstChild := 1 }, .action 5]
  ids := #[⟨"root", 0⟩]

/-- A JSON text of `single`, its records as lists of their fields. -/
def storedSingle : String :=
  "[[[\"Sequence\",1,-1,[0,0,0],[0,0,0,0]],[\"Action\",-1,-1,[5,0,0],[0,0,0,0]]],[[\"root\",0]]]"

/-- `ofNodes_exact` for `single`, built in memory and read from a JSON text. -/
theorem ofNodes_exact_single :
    IsTree single.nodes single.ids ∧ decode decoder storedSingle = .ok single ∧
      (∀ i, (single.children i).Nodup) ∧ ∀ i j, i ≠ j →
        (single.children i).Disjoint (single.children j) := by
  have hbuilt : ofNodes single.nodes single.ids = .ok single := by cbv
  have hread : decode (Decoder.record shape) storedSingle = .ok single := by decide +kernel
  obtain ⟨hiff, hchildren, hstored⟩ := ofNodes_exact single.nodes single.ids
  have htree : IsTree single.nodes single.ids := hiff.1 ⟨single, hbuilt⟩
  obtain ⟨-, hnodup, hdisjoint⟩ := hchildren single hbuilt
  exact ⟨htree, (hstored storedSingle).2 ⟨hread, htree⟩, fun i => (hnodup i).2, hdisjoint⟩

end BakedTree

end BehaviorTree
