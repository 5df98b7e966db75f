import BehaviorTree.Proofs.Tick.Observe
import BehaviorTree.Proofs.Tick.PostOrder
import BehaviorTree.Proofs.Tick.Termination

/-!
# Traced ticks

The trace of a tick lists the report of an evaluation (`exists_traced`, and `traced_cases` for any
root). So it is a post-order of the part of the tree that was evaluated, which ends with the root
(`tickTraced_isPostOrder`), and the status of every entry follows from the entries of its node's
children (`tickTraced_explains`).
-/

namespace BehaviorTree.BakedTree

open Behavior Machine

variable {ε τ : Type} {t : BakedTree}

theorem entries_tellAll (trace : Trace) (es : List TraceEntry) :
    (tellAll record trace es).entries.toList = trace.entries.toList ++ es := by
  induction es generalizing trace with
  | nil => simp [tellAll]
  | cons e es ih =>
    have h := ih (record e.index e.status trace)
    simpa [tellAll, record, Trace.push] using h

section
variable (hf : IsForest t.nodes) (actions : ActionTable ε) {root : Int32} {i : Nat}
  (hroot : linkTarget? root = some i) (hi : i < t.size) (dt : Float32) (w : World ε)
include hf hroot hi

/-- An observer changes neither the status nor the world of a tick. -/
theorem tick_eq_tickReporting (observe : Observer τ) (seen : τ) :
    t.tick actions root dt w = ((t.tickReporting actions root dt w observe seen).status,
      (t.tickReporting actions root dt w observe seen).world) := by
  obtain ⟨b, hb⟩ := exists_behavior hf hi
  obtain ⟨rfl, hfits⟩ := fits_of_behavior hf hb
  have hview : b.evaluate actions dt (fun _ _ seen => seen) (w, ()) =
      viewed (fun _ => ()) (b.evaluate actions dt observe (w, seen)) :=
    evaluate_viewed observe (fun _ _ seen => seen) (fun _ => ()) (fun _ _ _ => rfl) b w seen
  rw [tick, tickReporting_of_fits hf hfits actions hroot, hview,
    tickReporting_of_fits hf hfits actions hroot]
  rfl

/-- The trace of a tick lists a report on the behaviour that was evaluated. -/
theorem exists_traced :
    let traced := t.tickTraced actions root dt w .empty
    ∃ b r, b.index = i ∧ b.Fits t.nodes ∧ Accounts b r ∧ r.entry = ⟨i, traced.status⟩ ∧
      traced.seen.entries.toList = r.entries := by
  obtain ⟨b, hb⟩ := exists_behavior hf hi
  obtain ⟨rfl, hfits⟩ := fits_of_behavior hf hb
  have hreports : HasReports actions dt record b := exists_report b
  obtain ⟨r, hr, hstatus, hseen⟩ := hreports w .empty
  intro traced
  have htraced : traced = _ := tickReporting_of_fits hf hfits actions hroot dt w record .empty
  rw [htraced]
  refine ⟨b, r, rfl, hfits, hr, ?_, ?_⟩
  · rw [← hstatus, ← hr.index_entry]
  · rw [hseen, entries_tellAll]
    rfl

end

/-- A tick from a root outside of the tree fails with nothing traced; from any other root its trace
lists a report. -/
theorem traced_cases (hf : IsForest t.nodes) (actions : ActionTable ε) (root : Int32)
    (dt : Float32) (w : World ε) :
    let traced := t.tickTraced actions root dt w .empty
    (traced.status = .failure ∧ traced.seen.entries.toList = []) ∨
      ∃ b r, linkTarget? root = some b.index ∧ b.Fits t.nodes ∧ Accounts b r ∧
        r.entry = ⟨b.index, traced.status⟩ ∧ traced.seen.entries.toList = r.entries := by
  intro traced
  by_cases hout : root.toInt < 0 ∨ t.size ≤ root.toInt
  · have htraced : traced = ⟨.failure, w, .empty⟩ := tickReporting_outside hout ..
    rw [htraced]
    exact .inl ⟨rfl, rfl⟩
  · have hroot : linkTarget? root = some root.toInt.toNat := linkTarget?_eq_some_iff.2 (by omega)
    obtain ⟨b, r, hb, hreport⟩ := exists_traced hf actions hroot (by omega) dt w
    rw [← hb] at hroot hreport
    exact .inr ⟨b, r, hroot, hreport⟩

variable {nodes : Array BakedNode} {ids : Array IdEntry}

/-- The trace of a tick is a post-order of a part of the tree below the root, and ends with the
root and the status of the tick; tracing changes nothing. -/
theorem tickTraced_isPostOrder (ht : ofNodes nodes ids = .ok t) (actions : ActionTable ε)
    {root : Int32} {i : Nat} (hroot : linkTarget? root = some i) (hi : i < t.size) (dt : Float32)
    (w : World ε) :
    let traced := t.tickTraced actions root dt w .empty
    let es := traced.seen.entries.toList
    IsPostOrder t i (es.map (·.index)) ∧ es.getLast? = some ⟨i, traced.status⟩ ∧
      t.tick actions root dt w = (traced.status, traced.world) := by
  have hf : IsForest t.nodes := forest_of_ofNodes ht
  intro traced es
  obtain ⟨b, r, rfl, hfits, hr, hentry, hes⟩ := exists_traced hf actions hroot hi dt w
  have hes : es = r.entries := hes
  refine ⟨?_, ?_, tick_eq_tickReporting hf actions hroot hi dt w record .empty⟩
  · rw [hes]
    exact hr.isPostOrder hf hfits
  · rw [hes, r.getLast?_entries, hentry]

/-- The status of every entry of a trace follows from the entries of the children of its node. -/
theorem tickTraced_explains (ht : ofNodes nodes ids = .ok t) (actions : ActionTable ε)
    (root : Int32) (dt : Float32) (w : World ε) :
    let es := (t.tickTraced actions root dt w .empty).seen.entries.toList
    ∀ e ∈ es, ∃ n, t.get? e.index = some n ∧ Explains n.kind (t.children e.index)
      (es.filter (·.index ∈ t.children e.index)) e.status := by
  have hf : IsForest t.nodes := forest_of_ofNodes ht
  intro es e he
  obtain ⟨-, hes⟩ | ⟨b, r, -, hfits, hr, -, hes⟩ :=
    traced_cases hf actions root dt w
  · have hes : es = [] := hes
    simp [hes] at he
  · have hes : es = r.entries := hes
    rw [hes] at he ⊢
    exact hr.explains hf hfits he

/-- `tickTraced_isPostOrder` below the root of `guarded`. -/
theorem tickTraced_isPostOrder_guarded :
    let traced := guarded.tickTraced counting 2 0.5 ⟨.empty, 0⟩ .empty
    let es := traced.seen.entries.toList
    ofNodes guarded.nodes guarded.ids = .ok guarded ∧ linkTarget? 2 = some 2 ∧
      2 < guarded.size ∧ IsPostOrder guarded 2 (es.map (·.index)) ∧
      es.getLast? = some ⟨2, traced.status⟩ ∧
      guarded.tick counting 2 0.5 ⟨.empty, 0⟩ = (traced.status, traced.world) := by
  have hroot : linkTarget? 2 = some 2 := by decide
  have hi : 2 < guarded.size := by decide
  exact ⟨ofNodes_guarded, hroot, hi,
    tickTraced_isPostOrder ofNodes_guarded counting hroot hi 0.5 ⟨.empty, 0⟩⟩

/-- `tickTraced_explains` for `guarded`. -/
theorem tickTraced_explains_guarded :
    let es := (guarded.tickTraced counting 0 0.5 ⟨.empty, 0⟩ .empty).seen.entries.toList
    ofNodes guarded.nodes guarded.ids = .ok guarded ∧
      ∀ e ∈ es, ∃ n, guarded.get? e.index = some n ∧ Explains n.kind (guarded.children e.index)
        (es.filter (·.index ∈ guarded.children e.index)) e.status := by
  exact ⟨ofNodes_guarded, tickTraced_explains ofNodes_guarded counting 0 0.5 ⟨.empty, 0⟩⟩

end BehaviorTree.BakedTree
