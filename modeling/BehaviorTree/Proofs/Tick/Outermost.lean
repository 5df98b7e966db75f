import BehaviorTree.Proofs.Tick.Summary
import BehaviorTree.Proofs.Tick.Traced

/-!
# The running nodes that a summary names

In a post-order no node comes before one below it (`IsPostOrder.not_below`). So of the running
entries of a traced tick the last is above none that runs, and the first is above no running node:
`LastOf.not_below` and `FirstOf.not_below` say this of any selection of entries. As no node settles
twice in a tick (`Trace.statusOf?_of_nodup`), both nodes still have the status that they are named
for. `BakedTree.tickTraced_outermost` puts this together; parallel nodes are no exception, where
several branches run side by side.
-/

namespace BehaviorTree

open Relation

/-! ## Nodes in post-order -/

/-- In a list without repetitions no two elements come in both orders. -/
theorem not_sublist_swap {is : List Nat} (h : is.Nodup) {i j : Nat} (hij : [i, j].Sublist is) :
    ¬ [j, i].Sublist is := by
  intro hji
  obtain ⟨before, after, rfl, hi, hj⟩ := List.cons_sublist_iff.1 hij
  obtain ⟨before', after', heq, hj', hi'⟩ := List.cons_sublist_iff.1 hji
  rw [List.singleton_sublist] at hj hi'
  obtain ⟨-, -, hapart⟩ := List.nodup_append.1 h
  rcases List.append_eq_append_iff.1 heq with ⟨is, -, rfl⟩ | ⟨is, rfl, -⟩
  · exact hapart i hi i (List.mem_append_right _ hi') rfl
  · exact hapart j (List.mem_append_left _ hj') j hj rfl

theorem IsPostOrder.not_below {t : BakedTree} {root : Nat} {is : List Nat}
    (h : IsPostOrder t root is) : is.Pairwise fun i j => ¬ TransGen (Child t.nodes) i j := by
  rw [List.pairwise_iff_forall_sublist]
  intro i j hij hbelow
  have hi : i ∈ is := hij.subset (by simp)
  have hj : j ∈ is := hij.subset (by simp)
  have hne : j ≠ i := by
    have hnodup := h.nodup.sublist hij
    rintro rfl
    simp at hnodup
  obtain ⟨before, inner, after, his, hblock⟩ := h.block i hi
  -- the block of `i` ends with it, so what is below it has come before
  have hinner : j ∈ inner := by simpa [hne] using (hblock j hj).2 hbelow.to_reflTransGen
  refine not_sublist_swap h.nodup hij ?_
  have hblock : [j, i].Sublist (inner ++ [i]) :=
    (List.singleton_sublist.2 hinner).append (List.Sublist.refl _)
  rw [his]
  exact (hblock.trans (List.sublist_append_right _ _)).trans (List.sublist_append_left _ _)

/-! ## First and last entries of a post-order -/

section
variable {t : BakedTree} {root : Nat} {p : TraceEntry → Prop} {e : TraceEntry}

/-- What comes before an entry is not above it, and what comes behind is not below it. -/
theorem IsPostOrder.around {before after : List TraceEntry}
    (h : IsPostOrder t root ((before ++ e :: after).map (·.index))) :
    (∀ e' ∈ before, ¬ TransGen (Child t.nodes) e'.index e.index) ∧
      ∀ e' ∈ after, ¬ TransGen (Child t.nodes) e.index e'.index := by
  have hpairs := List.pairwise_map.1 h.not_below
  rw [List.pairwise_append, List.pairwise_cons] at hpairs
  obtain ⟨-, ⟨hafter, -⟩, hbefore⟩ := hpairs
  exact ⟨fun e' he' => hbefore e' he' e (by simp), hafter⟩

variable (hf : IsForest t.nodes) {es : List TraceEntry}
  (h : IsPostOrder t root (es.map (·.index)))
include hf h

/-- Above the last of some entries there is no other of them. -/
theorem LastOf.not_below (he : LastOf p es e) :
    ∀ e' ∈ es, p e' → ¬ TransGen (Child t.nodes) e'.index e.index := by
  obtain ⟨before, after, rfl, -, hafter⟩ := he
  intro e' he' hp
  rcases List.mem_append.1 he' with he' | he'
  · exact h.around.1 e' he'
  · rcases List.mem_cons.1 he' with rfl | he'
    · exact hf.child_acyclic _
    · exact absurd hp (hafter e' he')

/-- Below the first of some entries there is no other of them. -/
theorem FirstOf.not_below (he : FirstOf p es e) :
    ∀ e' ∈ es, p e' → ¬ TransGen (Child t.nodes) e.index e'.index := by
  obtain ⟨before, after, rfl, -, hbefore⟩ := he
  intro e' he' hp
  rcases List.mem_append.1 he' with he' | he'
  · exact absurd hp (hbefore e' he')
  · rcases List.mem_cons.1 he' with rfl | he'
    · exact hf.child_acyclic _
    · exact h.around.2 e' he'

end

/-! ## Running nodes of a trace -/

section
variable {trace : Trace}

/-- Where no node has two entries, an entry has the last status of its node. -/
theorem Trace.statusOf?_of_nodup (h : (trace.entries.toList.map (·.index)).Nodup) {e : TraceEntry}
    (he : e ∈ trace.entries.toList) : trace.statusOf? e.index = some e.status := by
  obtain ⟨before, after, hes⟩ := List.append_of_mem he
  rw [Trace.statusOf?_eq_some_iff]
  refine ⟨before, after, hes, rfl, fun e' he' heq => ?_⟩
  rw [hes, List.map_append, List.map_cons, List.nodup_append, List.nodup_cons] at h
  exact h.2.1.1 (heq ▸ List.mem_map_of_mem he')

/-- The running node `outer` has no running node above it, and `leaf` none below it. -/
structure RunningEnds (t : BakedTree) (trace : Trace) (outer leaf : Nat) : Prop where
  outerRuns : trace.statusOf? outer = some .running
  leafRuns : trace.statusOf? leaf = some .running
  outermost : ∀ e ∈ trace.entries.toList, e.status = .running →
    ¬ TransGen (Child t.nodes) e.index outer
  innermost : ∀ e ∈ trace.entries.toList, e.status = .running →
    ¬ TransGen (Child t.nodes) leaf e.index

/-- Of a trace in post-order the summary names an outermost and an innermost running node, if any
node runs. -/
theorem Trace.exists_runningEnds {t : BakedTree} (hf : IsForest t.nodes) {root : Nat}
    (h : IsPostOrder t root (trace.entries.toList.map (·.index))) {e : TraceEntry}
    (he : e ∈ trace.entries.toList) (hrun : e.status = .running) :
    ∃ outer leaf, trace.summary.lastRunning = some outer ∧
      trace.summary.runningLeaf = some leaf ∧ RunningEnds t trace outer leaf := by
  have hsummary := trace.isSummary_summary
  have hlast : trace.summary.lastRunning ≠ none := fun hnone => hsummary.noLast.1 hnone e he hrun
  have hleaf : trace.summary.runningLeaf ≠ none := fun hnone => hsummary.noLeaf.1 hnone e he hrun
  obtain ⟨outer, houter⟩ := Option.ne_none_iff_exists'.1 hlast
  obtain ⟨leaf, hleaf⟩ := Option.ne_none_iff_exists'.1 hleaf
  have hlastOf := (hsummary.lastRunning outer).1 houter
  have hfirstOf := (hsummary.runningLeaf leaf).1 hleaf
  refine ⟨outer, leaf, houter, hleaf, ?_, ?_, hlastOf.not_below hf h, hfirstOf.not_below hf h⟩
  · exact statusOf?_of_nodup h.nodup hlastOf.mem
  · exact statusOf?_of_nodup h.nodup hfirstOf.mem

end

/-! ## Ticks -/

namespace BakedTree

variable {ε : Type} {t : BakedTree} {nodes : Array BakedNode} {ids : Array IdEntry}

/-- Where a node of a tick runs, the summary of the trace names two nodes that do: the one named
last has no running node above it, and is the root if the tick runs, and the leaf has none below. -/
theorem tickTraced_outermost (ht : ofNodes nodes ids = .ok t) (actions : ActionTable ε)
    (root : Int32) (dt : Float32) (w : World ε) :
    let traced := t.tickTraced actions root dt w .empty
    let trace := traced.seen
    ((∃ e ∈ trace.entries.toList, e.status = .running) → ∃ outer leaf,
      trace.summary.lastRunning = some outer ∧ trace.summary.runningLeaf = some leaf ∧
        RunningEnds t trace outer leaf) ∧
    (traced.status = .running → trace.summary.lastRunning = linkTarget? root) := by
  have hf : IsForest t.nodes := forest_of_ofNodes ht
  intro traced trace
  obtain ⟨hstatus, hes⟩ | ⟨b, r, hroot, hfits, hr, hentry, hes⟩ :=
    traced_cases hf actions root dt w
  · have hes : trace.entries.toList = [] := hes
    have hstatus : traced.status = .failure := hstatus
    simp [hes, hstatus]
  · have hes : trace.entries.toList = r.entries := hes
    constructor
    · rintro ⟨e, he, hrun⟩
      have hpost : IsPostOrder t b.index (trace.entries.toList.map (·.index)) := by
        rw [hes]
        exact hr.isPostOrder hf hfits
      exact Trace.exists_runningEnds hf hpost he hrun
    · intro hrun
      have hlast : r.entries.getLast? = some ⟨b.index, .running⟩ := by
        rw [r.getLast?_entries, hentry, ← hrun]
      rw [hroot, trace.isSummary_summary.lastRunning, hes]
      exact lastOf_of_getLast? hlast rfl

/-- A parallel node over two repeaters, one of them turned around. -/
def forking : BakedTree where
  nodes := #[
    { BakedNode.ofKind .parallel with firstChild := 1 },
    { BakedNode.ofKind .invert with firstChild := 2, nextSibling := 4 },
    { BakedNode.repeater 2 with firstChild := 3 },
    .setBlackboard 7 1,
    { BakedNode.repeater 2 with firstChild := 5 },
    .setBlackboard 8 1]
  ids := #[⟨"root", 0⟩]

/-- `tickTraced_outermost` at the root of `forking`, where two branches run side by side. -/
theorem tickTraced_outermost_forking :
    let traced := forking.tickTraced counting 0 0.5 ⟨.empty, 0⟩ .empty
    let trace := traced.seen
    ofNodes forking.nodes forking.ids = .ok forking ∧
      (∃ e ∈ trace.entries.toList, e.status = .running) ∧ traced.status = .running ∧
      trace.summary.lastRunning = some 0 ∧ trace.summary.runningLeaf = some 2 ∧
      RunningEnds forking trace 0 2 := by
  intro traced trace
  have ht : ofNodes forking.nodes forking.ids = .ok forking := by cbv
  have hruns : ∃ e ∈ trace.entries.toList, e.status = .running := by decide +kernel
  have hstatus : traced.status = .running := by decide +kernel
  have h := tickTraced_outermost ht counting 0 0.5 ⟨.empty, 0⟩
  obtain ⟨outer, leaf, houter, hleaf, hends⟩ := h.1 hruns
  have hroot : trace.summary.lastRunning = some 0 := h.2 hstatus
  have hfirst : trace.summary.runningLeaf = some 2 := by decide +kernel
  cases houter.symm.trans hroot
  cases hleaf.symm.trans hfirst
  exact ⟨ht, hruns, hstatus, hroot, hfirst, hends⟩

end BakedTree

end BehaviorTree
