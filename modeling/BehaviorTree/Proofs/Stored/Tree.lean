import BehaviorTree.Proofs.Bake.Meaning
import BehaviorTree.Proofs.Catalog
import BehaviorTree.Proofs.Json.Reread
import BehaviorTree.Stored.Tree

/-!
# Baked trees survive JSON

A baked tree is read back from the JSON that is written for it, unless one of its number slots holds
an infinity or NaN: these are written as `null`, which is no number (`BakedTree.reads`,
`BakedTree.fails`). `stored_of_bake` says so of every graph; with the standard catalog only a
parameter that reads as such a number puts one into a slot (`finite_of_bake`), as in
`stored_endless`.
-/

namespace BehaviorTree

open Json Bake

/-- Why a number slot without a finite number cannot be read. -/
def nullNumber : Failure := .data "invalid type: null, expected f32"

/-! ## Records -/

theorem NodeKind.reads (k : NodeKind) : Reads NodeKind.decoder k.toDocument k :=
  .choice (ofName?_name k)

namespace BakedNode

/-- No number slot holds an infinity or NaN. -/
def Finite (n : BakedNode) : Prop := ∀ x ∈ n.floats, x.isFinite = true

theorem reads {n : BakedNode} (h : n.Finite) : Reads decoder n.toDocument n := by
  have ints := Reads.vector (fun i => .int i.toInt) n.ints fun i _ => .int32 i
  have floats := Reads.vector Document.float n.floats fun x hx => .float32 (h x hx)
  exact .record
    (.cons rfl (by decide) (.bind_pure n.kind.reads _)
      (.cons rfl (by decide) (.bind_pure (.int32 n.firstChild) _)
        (.cons rfl (by decide) (.bind_pure (.int32 n.nextSibling) _)
          (.cons rfl (by decide) (.bind_pure ints _)
            (.cons rfl (by decide) (.bind_pure floats _) .nil))))) rfl

theorem fails {n : BakedNode} (h : ¬ n.Finite) : Fails decoder n.toDocument nullNumber := by
  have ints := Reads.vector (fun i => .int i.toInt) n.ints fun i _ => .int32 i
  have slot (x : Float32) : Reads Decoder.float32 (.float x) x ∨
      Fails Decoder.float32 (.float x) nullNumber := by
    cases hx : x.isFinite with
    | true => exact .inl (.float32 hx)
    | false => exact .inr (float32_of_not_isFinite hx)
  have bad : ∃ x ∈ n.floats, Fails Decoder.float32 (.float x) nullNumber := by
    unfold Finite at h
    push Not at h
    obtain ⟨x, hx, hbad⟩ := h
    exact ⟨x, hx, float32_of_not_isFinite (Bool.eq_false_iff.2 hbad)⟩
  have floats := Fails.vector Document.float n.floats (fun x _ => slot x) bad
  exact .record
    (.later rfl (by decide) (.bind_pure n.kind.reads _)
      (.later rfl (by decide) (.bind_pure (.int32 n.firstChild) _)
        (.later rfl (by decide) (.bind_pure (.int32 n.nextSibling) _)
          (.later rfl (by decide) (.bind_pure ints _)
            (.here rfl (by decide) (.bind_pure floats _))))))

end BakedNode

theorem IdEntry.reads {e : IdEntry} (h : e.index < UInt64.size) :
    Reads decoder e.toDocument e :=
  .record (.cons rfl (by decide) (.bind_pure (.text e.id) _)
    (.cons rfl (by decide) (.bind_pure (.index h) _) .nil)) rfl

/-! ## Trees -/

namespace BakedTree

/-- No number slot of any node holds an infinity or NaN. -/
def Finite (t : BakedTree) : Prop := ∀ n ∈ t.nodes, n.Finite

variable {t : BakedTree}

/-- A tree that passes the checks is read back if its numbers are finite. -/
theorem reads (h : t.Finite) (ht : ofNodes t.nodes t.ids = .ok t)
    (hids : ∀ e ∈ t.ids, e.index < UInt64.size) : Reads decoder t.toDocument t := by
  have nodes := Reads.array BakedNode.toDocument t.nodes fun n hn => BakedNode.reads (h n hn)
  have ids := Reads.array IdEntry.toDocument t.ids fun e he => IdEntry.reads (hids e he)
  have raw : Reads (Decoder.record shape) t.toDocument t :=
    .record (.cons rfl (by decide) (.bind_pure nodes _)
      (.cons rfl (by decide) (.bind_pure ids _) .nil)) rfl
  have raw : Decoder.record shape t.toDocument.value = .ok t := raw
  unfold Reads decoder
  rw [raw]
  simp only [bind, Except.bind, ht]
  rfl

theorem fails (h : ¬ t.Finite) : Fails decoder t.toDocument nullNumber := by
  have bad : ∃ n ∈ t.nodes, Fails BakedNode.decoder n.toDocument nullNumber := by
    unfold Finite at h
    push Not at h
    obtain ⟨n, hn, hbad⟩ := h
    exact ⟨n, hn, BakedNode.fails hbad⟩
  have nodes := Fails.array BakedNode.toDocument t.nodes
    (fun n _ => (Classical.em n.Finite).imp BakedNode.reads BakedNode.fails) bad
  have raw : Fails (Decoder.record shape) t.toDocument nullNumber :=
    .record (.here rfl (by decide) (.bind_pure nodes _))
  have raw : Decoder.record shape t.toDocument.value = .error nullNumber := raw
  unfold Fails decoder
  rw [raw]
  rfl

end BakedTree

/-- A baked tree is read back from its text, or its text has a `null` in the place of a number. -/
theorem decode_of_bake {g : Graph} {catalog : Catalog} {r : BakeResult}
    (h : bake g catalog = .ok r) (hsize : g.nodes.size < 2147483648) :
    (r.tree.Finite → decode BakedTree.decoder r.tree.toDocument.toJson = .ok r.tree) ∧
      (¬ r.tree.Finite →
        decode BakedTree.decoder r.tree.toDocument.toJson = .error nullNumber) := by
  obtain ⟨hok, htree⟩ := ofNodes_of_bake h hsize
  refine ⟨fun hfinite => decode_toJson (BakedTree.reads hfinite hok fun e he => ?_),
    fun hbad => decode_toJson_error (BakedTree.fails hbad)⟩
  have hlt : r.tree.nodes.size < UInt64.size := by
    rw [Graph.size_of_bake h]
    exact max_lt (by decide) (hsize.trans (by decide))
  exact (htree.idsInRange e he).trans hlt

/-! ## Finite numbers -/

/-- No parameter reads as an infinity or NaN. -/
def Params.FiniteNumbers (p : Params) : Prop :=
  ∀ name x, (p.get? name).bind Literal.number? = some x → x.isFinite = true

theorem Params.FiniteNumbers.numberD {p : Params} (h : p.FiniteNumbers) (name : String)
    {default : Float32} (hd : default.isFinite = true) :
    (p.numberD name default).isFinite = true := by
  unfold Params.numberD
  cases hx : (p.get? name).bind Literal.number? with
  | none => exact hd
  | some x => exact h name x hx

theorem finite_set {floats : Vector Float32 4} (h : ∀ x ∈ floats, x.isFinite = true) (i : Fin 4)
    {value : Float32} (hv : value.isFinite = true) :
    ∀ x ∈ floats.set i value i.isLt, x.isFinite = true := by
  intro x hx
  rcases Vector.mem_or_eq_of_mem_set hx with hx | rfl
  · exact h x hx
  · exact hv

theorem finite_replicate : ∀ x ∈ Vector.replicate 4 (0 : Float32), x.isFinite = true := by
  intro x hx
  rw [(Vector.mem_replicate.1 hx).2]
  decide +kernel

namespace Bake

/-- The standard definitions put finite numbers into slots, if they are given such. -/
theorem finite_map {d : ActionDefinition} (hd : d ∈ ActionDefinition.standard) {p : Params}
    (hp : p.FiniteNumbers) : (d.map p).toRecord.Finite := by
  have slot (name : String) {default : Float32} (h : default.isFinite = true) :
      ∀ x ∈ (Vector.replicate 4 (0 : Float32)).set 0 (p.numberD name default), x.isFinite = true :=
    finite_set finite_replicate 0 (hp.numberD name h)
  -- a standard definition sets the first number slot at most: to a parameter or to 0 or 1
  simp only [ActionDefinition.standard, List.mem_cons, List.not_mem_nil, or_false] at hd
  rcases hd with rfl | rfl | rfl | rfl | rfl | rfl | rfl | rfl | rfl
  · exact slot "seconds" (by decide +kernel)
  · exact slot "fade" (by decide +kernel)
  · exact slot "value" (by decide +kernel)
  · exact slot "value" (by decide +kernel)
  · exact finite_set finite_replicate 0 (by split <;> decide +kernel)
  · exact finite_replicate
  · exact finite_replicate
  · exact slot "value" (by decide +kernel)
  · exact finite_replicate

theorem finite_resolveNode {node : AuthoredNode} (hp : node.params.FiniteNumbers) :
    (resolveNode .standard node).1.Finite := by
  unfold resolveNode
  split
  · exact finite_replicate
  · exact finite_replicate
  · exact finite_replicate
  · split
    · next d hd =>
      rw [Catalog.get?_standard] at hd
      exact finite_map (List.mem_reverse.1 (List.mem_of_find?_eq_some hd)) hp
    · exact finite_replicate

end Bake

/-- Slots hold finite numbers if parameters do. -/
theorem finite_of_bake {g : Graph} {r : BakeResult} (h : bake g .standard = .ok r)
    (hp : ∀ n ∈ g.nodes, n.params.FiniteNumbers) : r.tree.Finite := by
  intro n hn
  rcases Graph.sameSlots_of_mem_bake h hn with rfl | ⟨p, hslots⟩
  · exact finite_replicate
  · unfold BakedNode.Finite
    rw [hslots.floats]
    exact finite_resolveNode (hp _ (Array.getElem_mem _))

/-- A tree that is baked with the standard catalog is read back from its text exactly if its
numbers are finite, which they are if every parameter is that reads as a number. -/
theorem stored_of_bake {g : Graph} {r : BakeResult} (h : bake g .standard = .ok r)
    (hsize : g.nodes.size < 2147483648) :
    (r.tree.Finite → decode BakedTree.decoder r.tree.toDocument.toJson = .ok r.tree) ∧
      (¬ r.tree.Finite →
        decode BakedTree.decoder r.tree.toDocument.toJson =
          .error (.data "invalid type: null, expected f32")) ∧
      ((∀ n ∈ g.nodes, n.params.FiniteNumbers) → r.tree.Finite) :=
  ⟨(decode_of_bake h hsize).1, (decode_of_bake h hsize).2, finite_of_bake h⟩

/-- `stored_of_bake` for `Graph.unsorted`. -/
theorem stored_of_bake_unsorted :
    ∃ r, bake .unsorted .standard = .ok r ∧ Graph.unsorted.nodes.size < 2147483648 ∧
      r.tree.Finite ∧ decode BakedTree.decoder r.tree.toDocument.toJson = .ok r.tree := by
  obtain ⟨r, hr⟩ := Graph.exists_bake_unsorted .standard
  have hsize : Graph.unsorted.nodes.size < 2147483648 := by decide
  obtain ⟨hread, -, hfinite⟩ := stored_of_bake hr hsize
  have hp : ∀ n ∈ Graph.unsorted.nodes, n.params.FiniteNumbers := by
    intro n hn
    have hnone : ∀ n ∈ Graph.unsorted.nodes, n.params = .empty := by decide
    rw [hnone n hn]
    intro name x hx
    cases hx
  exact ⟨r, hr, hsize, hfinite hp, hread (hfinite hp)⟩

/-- A node that waits for ever. -/
def Graph.endless : Graph where
  nodes := #[{ id := "wait", type := "Wait", params := .ofList [("seconds", "inf")] }]

/-- `Graph.endless` is baked to a tree whose text is not read back. -/
theorem stored_endless :
    ∃ r, bake .endless .standard = .ok r ∧
      decode BakedTree.decoder r.tree.toDocument.toJson =
        .error (.data "invalid type: null, expected f32") := by
  obtain ⟨r, hr⟩ : ∃ r, bake .endless .standard = .ok r :=
    Graph.exists_bake_of_rank .standard (fun _ => 0) (by decide) (by decide) (by decide)
  obtain ⟨i, n, -, hn, hslots⟩ := Graph.exists_record_of_bake hr ⟨0, by decide⟩
  refine ⟨r, hr, (decode_of_bake hr (by decide)).2 fun hfinite => ?_⟩
  have hslot := hfinite n (Array.mem_of_getElem? hn) n.floats[0] (by simp)
  have hwait : (resolveNode .standard (Graph.endless.node ⟨0, by decide⟩)).1 =
      (ActionDefinition.wait.map (.ofList [("seconds", "inf")])).toRecord := by
    have htag : NodeKind.ofControlTag? "Wait" = none := by decide
    have hname : Catalog.standard.get? "Wait" = some .wait := by
      rw [Catalog.get?_standard]
      rfl
    simp [resolveNode, Graph.node, Graph.endless, actionName, genericActionTag, htag, hname]
  rw [hslots.floats, hwait] at hslot
  exact absurd hslot (by decide +kernel)

end BehaviorTree
