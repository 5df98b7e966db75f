import BehaviorTree.Proofs.Tick.Simulation
import BehaviorTree.Tick.Trace

/-!
# Ticks end inside the tree

`Inside t root is s`: up to the state `s`, which follows the entering of `is`, nothing was entered
twice or outside of `t` but the root, and every open node is one of `t`. `tick_ends_inside`: every
tick of an accepted tree comes to an end, at any root, and each of its states is `Inside`. That
open nodes are in the tree needs no forest, for a node opens only when its record is found
(`step_keeps_opened`); that nothing is entered twice is read off the whole run, of which every
state is on the way (`Steps.isPrefix`).
-/

namespace BehaviorTree.Machine

variable {ε τ : Type} {t : BakedTree} {actions : ActionTable ε} {dt : Float32}
  {observe : Observer τ}

/-! ## Open nodes -/

/-- Every open node is one of the tree. -/
def Opened (t : BakedTree) (s : State ε τ) : Prop := ∀ frame ∈ s.stack, frame.index < t.size

theorem lt_size_of_get {i : Nat} {record : BakedNode} (h : t.get? i = some record) :
    i < t.size := (Array.getElem?_eq_some_iff.1 h).1

theorem step_keeps_opened {s s' : State ε τ} (h : Opened t s)
    (hs : step t actions dt observe s = .inl s') : Opened t s' := by
  cases stepped_of_step hs with
  | outside hn => exact h
  | opened hn he => exact List.forall_mem_cons.2 ⟨lt_size_of_get hn, h⟩
  | settled hn he => exact h
  | reported => exact h
  | dropped hn => exact fun f hf => h f (List.mem_cons_of_mem _ hf)
  | sibling hn hr =>
    refine List.forall_mem_cons.2 ⟨?_, fun f hf => h f (List.mem_cons_of_mem _ hf)⟩
    rw [index_of_resume hr]
    exact lt_size_of_get hn
  | closed hn hr => exact fun f hf => h f (List.mem_cons_of_mem _ hf)

namespace Steps

theorem keeps_opened {is : List Nat} {n : Nat} {s s' : State ε τ}
    (h : Steps t actions dt observe is n s s') (hs : Opened t s) : Opened t s' := by
  induction h with
  | refl s => exact hs
  | next hstep _ ih => exact ih (step_keeps_opened hs hstep)

/-! ## Every state is on the way to the outcome -/

/-- What was entered up to a state is entered on the way to the outcome. -/
theorem isPrefix {is js : List Nat} {n m : Nat} {s last s' : State ε τ} {outcome : Outcome ε τ}
    (hall : Steps t actions dt observe is n s last)
    (hend : step t actions dt observe last = .inr outcome)
    (h : Steps t actions dt observe js m s s') : js ++ s'.entering <+: is := by
  induction h generalizing is n with
  | refl s =>
    cases hall with
    | refl =>
      rw [state_of_outcome hend]
      exact List.nil_prefix
    | next _ _ => exact List.prefix_append _ _
  | next hs _ ih =>
    cases hall with
    | refl => rw [hs] at hend; cases hend
    | next hs' hall =>
      cases hs.symm.trans hs'
      rw [List.append_assoc, List.prefix_append_right_inj]
      exact ih hall

end Steps

/-! ## Whole ticks -/

/-- What holds of every state of a tick from `root`, when the indices `is` were entered before. -/
structure Inside (t : BakedTree) (root : Nat) (is : List Nat) (s : State ε τ) : Prop where
  once : (is ++ s.entering).Nodup
  entered : ∀ i ∈ is ++ s.entering, i = root ∨ i < t.size
  opened : Opened t s

/-- From an index outside of the tree the machine fails at once. -/
theorem steps_outside {root : Nat} (h : t.size ≤ root) (w : World ε) (seen : τ) :
    Steps t actions dt observe [root] 1 ⟨[], .enter root, w, seen⟩
      ⟨[], .resume .failure, w, seen⟩ := by
  have hget : t.get? root = none := Array.getElem?_eq_none h
  exact Steps.one rfl (.outside hget)

variable (actions) (dt) (observe) in
/-- From every index the machine comes to an outcome, and enters nothing twice on the way. -/
theorem exists_steps_to_outcome (hf : IsForest t.nodes) (root : Nat) (w : World ε) (seen : τ) :
    ∃ is n last outcome, Steps t actions dt observe is n ⟨[], .enter root, w, seen⟩ last ∧
      step t actions dt observe last = .inr outcome ∧ n < enoughSteps t ∧ is.Nodup ∧
      ∀ i ∈ is, i = root ∨ i < t.size := by
  by_cases hroot : root < t.size
  · obtain ⟨b, hb⟩ := BakedTree.exists_behavior hf hroot
    obtain ⟨rfl, hfits⟩ := BakedTree.fits_of_behavior hf hb
    obtain ⟨is, n, hsub, hn, hsteps⟩ := steps_of_fits hf hfits w seen
    refine ⟨is, n, _, _, hsteps, rfl, hn, ?_, fun i hi => .inr ?_⟩
    · obtain ⟨js, hperm, hjs⟩ := hsub
      exact hperm.nodup_iff.1 ((hfits.nodup_indices hf).sublist hjs)
    · exact hfits.indices_lt hf i (hsub.subset hi)
  · refine ⟨[root], 1, _, _, steps_outside (not_lt.1 hroot) w seen, rfl, ?_,
      List.nodup_singleton root, by simp⟩
    unfold enoughSteps
    omega

end BehaviorTree.Machine

namespace BehaviorTree.BakedTree

open Machine

variable {ε τ : Type} {t : BakedTree}

theorem tickReporting_of_steps {actions : ActionTable ε} {root : Int32} {dt : Float32}
    {w : World ε} {observe : Observer τ} {seen : τ} {i n : Nat} {is : List Nat}
    {last : State ε τ} {outcome : Outcome ε τ} (hroot : linkTarget? root = some i)
    (hsteps : Steps t actions dt observe is n ⟨[], .enter i, w, seen⟩ last)
    (hend : step t actions dt observe last = .inr outcome) (hn : n < enoughSteps t) :
    t.tickReporting actions root dt w observe seen = outcome := by
  rw [tickReporting, hroot]
  dsimp only
  rw [hsteps.run_eq_some hend hn]
  rfl

theorem tickReporting_outside {root : Int32} (h : root.toInt < 0 ∨ t.size ≤ root.toInt)
    (actions : ActionTable ε) (dt : Float32) (w : World ε) (observe : Observer τ) (seen : τ) :
    t.tickReporting actions root dt w observe seen = ⟨.failure, w, seen⟩ := by
  cases hroot : linkTarget? root with
  | none => rw [tickReporting, hroot]
  | some i =>
    have hi := linkTarget?_eq_some_iff.1 hroot
    refine tickReporting_of_steps hroot (steps_outside (by omega) w seen) rfl ?_
    unfold enoughSteps
    omega

/-- A tick of an accepted tree comes to an outcome. On the way no node is entered twice, nothing
outside of the tree is entered but the root, and every open node is in the tree. From a root
outside of the tree the tick fails, changes nothing and reports nothing. -/
theorem tick_ends_inside {nodes : Array BakedNode} {ids : Array IdEntry}
    (ht : ofNodes nodes ids = .ok t) (actions : ActionTable ε) (root : Int32) (dt : Float32)
    (w : World ε) (observe : Observer τ) (seen : τ) :
    (∀ i, linkTarget? root = some i →
      (∀ fuel ≥ enoughSteps t, run t actions dt observe fuel ⟨[], .enter i, w, seen⟩ =
        some (t.tickReporting actions root dt w observe seen)) ∧
      ∀ is n s, Steps t actions dt observe is n ⟨[], .enter i, w, seen⟩ s → Inside t i is s) ∧
    (root.toInt < 0 ∨ t.size ≤ root.toInt →
      t.tick actions root dt w = (.failure, w) ∧
        t.tickTraced actions root dt w .empty = ⟨.failure, w, .empty⟩) := by
  have hf : IsForest t.nodes := forest_of_ofNodes ht
  constructor
  · intro i hroot
    obtain ⟨is, n, last, outcome, hsteps, hend, hn, hnodup, hin⟩ :=
      exists_steps_to_outcome actions dt observe hf i w seen
    rw [tickReporting_of_steps hroot hsteps hend hn]
    refine ⟨fun fuel hfuel => hsteps.run_eq_some hend (by omega), fun js m s hs => ?_⟩
    have hpre := hsteps.isPrefix hend hs
    refine ⟨hnodup.sublist hpre.sublist, fun j hj => hin j (hpre.subset hj), ?_⟩
    exact hs.keeps_opened fun frame hframe => absurd hframe List.not_mem_nil
  · intro hroot
    refine ⟨?_, tickReporting_outside hroot ..⟩
    rw [tick, tickReporting_outside hroot]

/-- The observer of a traced tick. -/
def record : Observer Trace := fun index status trace => trace.push index status

/-- An action that succeeds and counts its runs. -/
def counting : ActionTable Nat :=
  ActionTable.empty.registerKey 5 fun _ _ w => (.success, { w with env := w.env + 1 })

/-- `tick_ends_inside` below the root of `guarded`, and outside of it. -/
theorem tick_ends_inside_guarded :
    let w : World Nat := ⟨.empty, 0⟩
    let start : State Nat Trace := ⟨[], .enter 2, w, .empty⟩
    ofNodes guarded.nodes guarded.ids = .ok guarded ∧ linkTarget? 2 = some 2 ∧
      (∀ fuel ≥ enoughSteps guarded, run guarded counting 0.5 record fuel start =
        some (guarded.tickTraced counting 2 0.5 w .empty)) ∧
      (∀ is n s, Steps guarded counting 0.5 record is n start s →
        Inside guarded 2 is s) ∧
      guarded.tick counting (-1) 0.5 w = (.failure, w) ∧
      guarded.tickTraced counting 5 0.5 w .empty = ⟨.failure, w, .empty⟩ := by
  intro w start
  have hroot : linkTarget? 2 = some 2 := by decide
  have hends := fun root => tick_ends_inside ofNodes_guarded counting root 0.5 w record .empty
  obtain ⟨hrun, hinside⟩ := (hends 2).1 2 hroot
  obtain ⟨hnegative, -⟩ := (hends (-1)).2 (.inl (by decide))
  obtain ⟨-, hbeyond⟩ := (hends 5).2 (.inr (by decide))
  exact ⟨ofNodes_guarded, hroot, hrun, hinside, hnegative, hbeyond⟩

end BehaviorTree.BakedTree
