import BehaviorTree.Proofs.Baked.Check
import BehaviorTree.Proofs.Tick.Shape
import BehaviorTree.Proofs.Tick.Step

/-!
# The machine evaluates behaviours

`Steps is n s s'`: `n` steps of the machine lead from `s` to `s'` and enter the indices `is`, in
this order. `evaluates_of_fits`: entered at the index of a behaviour, with any open nodes, the
machine comes to hand on what `Behavior.evaluate` gives, and the same nodes are open. A node that
is open goes from child to child in this way until it settles (`Closes`). Every node takes three
steps (it is entered, it is reported, its status is handed on), so what is entered also counts the
steps, and the bound `enoughSteps` is enough.
-/

namespace BehaviorTree.Machine

open Behavior

variable {ε τ : Type}

/-- The index that a state is about to enter. -/
def State.entering (s : State ε τ) : List Nat :=
  match s.phase with
  | .enter i => [i]
  | _ => []

section
variable (t : BakedTree) (actions : ActionTable ε) (dt : Float32) (observe : Observer τ)

/-- `n` steps lead from one state to another and enter the indices on the list, in order. -/
inductive Steps : List Nat → Nat → State ε τ → State ε τ → Prop
  | refl (s : State ε τ) : Steps [] 0 s s
  | next {is : List Nat} {n : Nat} {s s' s'' : State ε τ} :
      step t actions dt observe s = .inl s' → Steps is n s' s'' →
      Steps (s.entering ++ is) (n + 1) s s''

/-- Entered at the index of a behaviour, the machine comes to hand on what evaluating it gives;
on the way it enters each index of the behaviour once at most. -/
def Runs (b : Behavior) (stack : List Frame) (w : World ε) (seen : τ) : Prop :=
  ∃ is n, is.Subperm b.indices ∧ n + 1 = 3 * is.length ∧
    Steps t actions dt observe is n ⟨stack, .enter b.index, w, seen⟩
      ⟨stack, .resume (b.evaluate actions dt observe (w, seen)).1,
        (b.evaluate actions dt observe (w, seen)).2.1,
        (b.evaluate actions dt observe (w, seen)).2.2⟩

/-- `Runs` from every state. -/
def Evaluates (b : Behavior) : Prop :=
  ∀ (stack : List Frame) (w : World ε) (seen : τ), Runs t actions dt observe b stack w seen

end

variable {t : BakedTree} {actions : ActionTable ε} {dt : Float32} {observe : Observer τ}

namespace Steps

theorem one {is : List Nat} {s s' : State ε τ} (he : s.entering = is)
    (h : Stepped t actions dt observe s s') : Steps t actions dt observe is 1 s s' := by
  simpa [he] using Steps.next h.step_eq (.refl s')

theorem trans {is js : List Nat} {n m : Nat} {s s' s'' : State ε τ}
    (h : Steps t actions dt observe is n s s') (h' : Steps t actions dt observe js m s' s'') :
    Steps t actions dt observe (is ++ js) (n + m) s s'' := by
  induction h with
  | refl s => simpa using h'
  | next hs _ ih =>
    rw [List.append_assoc, Nat.add_right_comm]
    exact .next hs (ih h')

theorem run_eq {is : List Nat} {n : Nat} {s s' : State ε τ}
    (h : Steps t actions dt observe is n s s') (fuel : Nat) :
    run t actions dt observe (n + fuel) s = run t actions dt observe fuel s' := by
  induction h with
  | refl s => rw [Nat.zero_add]
  | next hs _ ih =>
    rw [Nat.add_right_comm, run, hs]
    exact ih

/-- Steps to an outcome, run with fuel enough for them. -/
theorem run_eq_some {is : List Nat} {n : Nat} {s last : State ε τ} {outcome : Outcome ε τ}
    (h : Steps t actions dt observe is n s last)
    (hend : step t actions dt observe last = .inr outcome) {fuel : Nat} (hfuel : n < fuel) :
    run t actions dt observe fuel s = some outcome := by
  obtain ⟨rest, rfl⟩ : ∃ rest, fuel = n + (rest + 1) := ⟨fuel - n - 1, by omega⟩
  rw [h.run_eq, run, hend]

end Steps

/-! ## Single steps -/

section
variable {i : Nat} {record : BakedNode} {stack : List Frame} {w w' : World ε} {seen : τ}

theorem steps_report (status : Status) :
    Steps t actions dt observe [] 1 ⟨stack, .report i status, w, seen⟩
      ⟨stack, .resume status, w, observe i status seen⟩ := Steps.one rfl .reported

/-- A node that settles when it is entered. -/
theorem steps_settled (hr : t.get? i = some record) {status : Status}
    (he : enter actions dt i record w = (.settled status, w')) :
    Steps t actions dt observe [i] 2 ⟨stack, .enter i, w, seen⟩
      ⟨stack, .resume status, w', observe i status seen⟩ := by
  have h1 : Steps t actions dt observe [i] 1 ⟨stack, .enter i, w, seen⟩
      ⟨stack, .report i status, w', seen⟩ := Steps.one rfl (.settled hr he)
  exact h1.trans (steps_report status)

variable {frame frame' : Frame} {status : Status}

/-- An open node goes on to another child. -/
theorem steps_sibling (hr : t.get? frame.index = some record) {c : Nat}
    (hres : resume record (siblingOf t.nodes frame.child) frame status w =
      (.child c, frame', w')) :
    Steps t actions dt observe [] 1 ⟨frame :: stack, .resume status, w, seen⟩
      ⟨{ frame' with child := c } :: stack, .enter c, w', seen⟩ := Steps.one rfl (.sibling hr hres)

/-- An open node settles. -/
theorem steps_closed (hr : t.get? frame.index = some record) {status' : Status}
    (hres : resume record (siblingOf t.nodes frame.child) frame status w =
      (.settled status', frame', w')) :
    Steps t actions dt observe [] 1 ⟨frame :: stack, .resume status, w, seen⟩
      ⟨stack, .report frame'.index status', w', seen⟩ := Steps.one rfl (.closed hr hres)

end

/-! ## Children in order -/

section
variable (t actions dt observe)

/-- From an open node that waits for the first of its children `bs`, about to be entered, the
machine comes to report the node with `r`; on the way it enters each index of the children once at
most. -/
def Closes (bs : List Behavior) (frame : Frame) (stack : List Frame) (w : World ε) (seen : τ)
    (r : Status × Scene ε τ) : Prop :=
  ∃ is n, is.Subperm (indicesOfAll bs) ∧ n = 3 * is.length ∧
    Steps t actions dt observe is n ⟨frame :: stack, .enter frame.child, w, seen⟩
      ⟨stack, .report frame.index r.1, r.2.1, r.2.2⟩

end

section
variable {record : BakedNode} {b : Behavior} {bs : List Behavior} {frame frame' : Frame}
  {stack : List Frame} {w w' : World ε} {seen : τ} {r : Status × Scene ε τ}

/-- The node settles after its first child. -/
theorem Closes.settle (hb : Evaluates t actions dt observe b) (hframe : frame.child = b.index)
    (hr : t.get? frame.index = some record) {status : Status}
    (hres : resume record (siblingOf t.nodes b.index) frame
        (b.evaluate actions dt observe (w, seen)).1 (b.evaluate actions dt observe (w, seen)).2.1 =
      (.settled status, frame', w')) :
    Closes t actions dt observe (b :: bs) frame stack w seen
      (status, w', (b.evaluate actions dt observe (w, seen)).2.2) := by
  obtain ⟨is, n, hsub, hn, hsteps⟩ := hb (frame :: stack) w seen
  rw [← hframe] at hsteps hres
  have hclosed := hsteps.trans (steps_closed hr hres)
  rw [List.append_nil, index_of_resume hres] at hclosed
  exact ⟨is, n + 1, hsub.trans (List.sublist_append_left _ _).subperm, hn, hclosed⟩

/-- The node goes on to its next child. -/
theorem Closes.next (hb : Evaluates t actions dt observe b) (hframe : frame.child = b.index)
    (hr : t.get? frame.index = some record) {c : Nat}
    (hres : resume record (siblingOf t.nodes b.index) frame
        (b.evaluate actions dt observe (w, seen)).1 (b.evaluate actions dt observe (w, seen)).2.1 =
      (.child c, frame', w'))
    (h : Closes t actions dt observe bs { frame' with child := c } stack w'
      (b.evaluate actions dt observe (w, seen)).2.2 r) :
    Closes t actions dt observe (b :: bs) frame stack w seen r := by
  obtain ⟨is, n, hsub, hn, hsteps⟩ := hb (frame :: stack) w seen
  obtain ⟨js, m, hsub', hm, hsteps'⟩ := h
  rw [← hframe] at hsteps hres
  have hclosed := (hsteps.trans (steps_sibling hr hres)).trans hsteps'
  rw [List.append_nil, index_of_resume hres] at hclosed
  have hcount : n + 1 + m = 3 * (is ++ js).length := by
    rw [List.length_append]
    omega
  exact ⟨is ++ js, n + 1 + m, hsub.append hsub', hcount, hclosed⟩

/-- A node that goes on to the next child after a certain status evaluates them as
`evaluateWhile` does. -/
theorem closes_evaluateWhile {status : Status}
    (hres : ∀ sibling frame result (w : World ε), resume record sibling frame result w =
      (if result = status then .childOr sibling status else .settled result, frame, w))
    (hbs : ∀ b ∈ bs, Evaluates t actions dt observe b) (hr : t.get? frame.index = some record)
    (hc : Chained t.nodes (some frame.child) (bs.map index)) (stack : List Frame) (w : World ε)
    (seen : τ) : Closes t actions dt observe bs frame stack w seen
      (evaluateWhile actions dt observe status bs (w, seen)) := by
  induction bs generalizing frame w seen with
  | nil => cases hc
  | cons b bs ih =>
    obtain ⟨hfirst, hc⟩ := hc
    have hframe : frame.child = b.index := Option.some.inj hfirst
    have hb := hbs b (by simp)
    have hgoes := hres (siblingOf t.nodes b.index) frame
      (b.evaluate actions dt observe (w, seen)).1 (b.evaluate actions dt observe (w, seen)).2.1
    rw [evaluateWhile_cons]
    dsimp only
    split
    · rename_i hpass
      rw [if_pos hpass] at hgoes
      cases bs with
      | nil =>
        have hs : siblingOf t.nodes b.index = none := hc
        rw [hs] at hgoes
        rw [evaluateWhile_nil]
        exact .settle hb hframe hr (by rwa [hs])
      | cons b' bs =>
        rw [hc.1] at hgoes
        have hrest := @ih { frame with child := b'.index }
          (fun b hb => hbs b (List.mem_cons_of_mem _ hb)) hr ⟨rfl, hc.2⟩
        exact .next hb hframe hr (by rwa [hc.1]) (hrest ..)
    · rename_i hstop
      rw [if_neg hstop] at hgoes
      exact .settle hb hframe hr hgoes

/-- A parallel node evaluates its children as `evaluateAll` does, and its frame notes what their
statuses come to. -/
theorem closes_evaluateAll (hk : record.kind = .parallel)
    (hbs : ∀ b ∈ bs, Evaluates t actions dt observe b) (hr : t.get? frame.index = some record)
    (hc : Chained t.nodes (some frame.child) (bs.map index)) (stack : List Frame) (w : World ε)
    (seen : τ) :
    let rs := evaluateAll actions dt observe bs (w, seen)
    Closes t actions dt observe bs frame stack w seen
      (parallelAfter frame.failed frame.running rs.1, rs.2) := by
  induction bs generalizing frame w seen with
  | nil => cases hc
  | cons b bs ih =>
    obtain ⟨hfirst, hc⟩ := hc
    have hframe : frame.child = b.index := Option.some.inj hfirst
    have hb := hbs b (by simp)
    rw [evaluateAll_cons]
    dsimp only
    rw [parallelAfter_cons]
    have hgoes := resume_parallel hk (siblingOf t.nodes b.index) frame
      (b.evaluate actions dt observe (w, seen)).1 (b.evaluate actions dt observe (w, seen)).2.1
    cases bs with
    | nil =>
      have hs : siblingOf t.nodes b.index = none := hc
      rw [hs] at hgoes
      rw [evaluateAll_nil, parallelAfter_nil]
      exact .settle hb hframe hr (by rwa [hs])
    | cons b' bs =>
      rw [hc.1] at hgoes
      have hrest := @ih { frame.noting (b.evaluate actions dt observe (w, seen)).1 with
        child := b'.index } (fun b hb => hbs b (List.mem_cons_of_mem _ hb)) hr ⟨rfl, hc.2⟩
      exact .next hb hframe hr (by rwa [hc.1]) (hrest ..)

end

/-! ## The machine and the recursion -/

section
variable {i : Nat} {record : BakedNode} {bs : List Behavior} {stack : List Frame}
  {w w' : World ε} {seen : τ}

theorem runs_of_settled (hr : t.get? i = some record) {status : Status}
    (he : enter actions dt i record w = (.settled status, w'))
    (heq : (Behavior.node i record bs).evaluate actions dt observe (w, seen) =
      told observe i (status, w', seen)) :
    Runs t actions dt observe (.node i record bs) stack w seen := by
  rw [Runs, heq, indices]
  exact ⟨[i], 2, (List.sublist_append_right _ _).subperm, rfl, steps_settled hr he⟩

/-- The node is entered, opened, closed and reported: three steps are its own. -/
theorem runs_of_opened (hr : t.get? i = some record) {c : Nat}
    (he : enter actions dt i record w = (.child c, w')) {r : Status × Scene ε τ}
    (heq : (Behavior.node i record bs).evaluate actions dt observe (w, seen) = told observe i r)
    (h : Closes t actions dt observe bs ⟨i, c, false, false⟩ stack w' seen r) :
    Runs t actions dt observe (.node i record bs) stack w seen := by
  obtain ⟨is, n, hsub, hn, hsteps⟩ := h
  rw [Runs, heq, indices]
  have hperm : (i :: is).Subperm (indicesOfAll bs ++ [i]) :=
    ((List.subperm_cons i).2 hsub).trans (List.perm_append_singleton i _).symm.subperm
  have hopened : Steps t actions dt observe [i] 1 ⟨stack, .enter i, w, seen⟩
      ⟨⟨i, c, false, false⟩ :: stack, .enter c, w', seen⟩ := Steps.one rfl (.opened hr he)
  have hclosed := (hopened.trans hsteps).trans (steps_report r.1)
  rw [List.append_nil] at hclosed
  exact ⟨i :: is, 1 + n + 1, hperm, by rw [List.length_cons]; omega, hclosed⟩

end

section
variable {i : Nat} {record : BakedNode} {b : Behavior} {bs : List Behavior}
  (hr : t.get? i = some record) (ih : ∀ c ∈ b :: bs, Evaluates t actions dt observe c)
  (hc : Chained t.nodes record.firstChild? ((b :: bs).map index))
include hr ih hc

theorem runs_selector (hk : record.kind = .selector) :
    Evaluates t actions dt observe (.node i record (b :: bs)) := by
  intro stack w seen
  refine runs_of_opened hr (enter_first (.inl hk) hc.1 i) (evaluate_selector _ hk) ?_
  exact closes_evaluateWhile (by simp [resume, hk]) ih hr (hc.1 ▸ hc) stack w seen

theorem runs_sequence (hk : record.kind = .sequence) :
    Evaluates t actions dt observe (.node i record (b :: bs)) := by
  intro stack w seen
  refine runs_of_opened hr (enter_first (.inr (.inl hk)) hc.1 i) (evaluate_sequence _ hk) ?_
  exact closes_evaluateWhile (by simp [resume, hk]) ih hr (hc.1 ▸ hc) stack w seen

theorem runs_parallel (hk : record.kind = .parallel) :
    Evaluates t actions dt observe (.node i record (b :: bs)) := by
  intro stack w seen
  refine runs_of_opened hr (enter_first (.inr (.inr (.inl hk))) hc.1 i)
    (evaluate_parallel _ hk) ?_
  exact closes_evaluateAll hk ih hr (hc.1 ▸ hc) stack w seen

theorem runs_decorator (hk : IsDecorator record.kind) :
    Evaluates t actions dt observe (.node i record (b :: bs)) := by
  intro stack w seen
  refine runs_of_opened hr (enter_first hk.descends hc.1 i) (evaluate_decorator _ hk) ?_
  exact Closes.settle (ih b (by simp)) rfl hr (resume_decorator hk ..)

theorem runs_interrupt (hk : record.kind = .interrupt) :
    Evaluates t actions dt observe (.node i record (b :: bs)) := by
  intro stack w seen
  by_cases hfire : record.key ≠ 0 ∧ w.get record.key != 0
  · refine runs_of_settled hr (enter_armed hk hc.1 hfire i) ?_
    rw [evaluate_interrupt _ hk, if_pos hfire]
  · refine runs_of_opened hr (enter_unarmed hk hc.1 hfire i)
      (r := b.evaluate actions dt observe (w, seen)) ?_ ?_
    · rw [evaluate_interrupt _ hk, if_neg hfire]
    · exact Closes.settle (ih b (by simp)) rfl hr (resume_interrupt hk ..)

end

/-- Entered at the index of a behaviour that fits, the machine evaluates it. -/
theorem evaluates_of_fits {b : Behavior} (h : b.Fits t.nodes) :
    Evaluates t actions dt observe b := by
  induction b with
  | node i record bs ih =>
    obtain ⟨hr, hc, hbs⟩ := fits_node.1 h
    have ih : ∀ b ∈ bs, Evaluates t actions dt observe b := fun b hb => ih b hb (hbs b hb)
    by_cases hleaf : Descends record.kind ∨ record.kind = .interrupt
    · cases bs with
      | nil =>
        have hfirst : record.firstChild? = none := hc
        refine fun stack w seen => runs_of_settled hr ?_ (evaluate_childless _ hleaf)
        rcases hleaf with hk | hk
        · rw [enter_descends actions dt hk, hfirst]
          rfl
        · simp only [enter, hk, hfirst, emptyStatus]
      | cons b bs =>
        rcases hleaf with (hk | hk | hk | hk) | hk
        · exact runs_selector hr ih hc hk
        · exact runs_sequence hr ih hc hk
        · exact runs_parallel hr ih hc hk
        · exact runs_decorator hr ih hc hk
        · exact runs_interrupt hr ih hc hk
    · intro stack w seen
      cases hk : record.kind with
      | action => exact runs_of_settled hr (by simp only [enter, hk]) (evaluate_action _ hk)
      | setBlackboard =>
        exact runs_of_settled hr (by simp only [enter, hk]) (evaluate_setBlackboard _ hk)
      | clearBlackboard =>
        exact runs_of_settled hr (by simp only [enter, hk]) (evaluate_clearBlackboard _ hk)
      | _ => simp [hk, Descends, IsDecorator] at hleaf

/-! ## Ticks -/

/-- From the index of a behaviour on, without open nodes, fewer than `enoughSteps` lead to the
status of the behaviour, and enter each of its indices once at most. -/
theorem steps_of_fits (hf : IsForest t.nodes) {b : Behavior} (hb : b.Fits t.nodes) (w : World ε)
    (seen : τ) : ∃ is n, is.Subperm b.indices ∧ n < enoughSteps t ∧
      Steps t actions dt observe is n ⟨[], .enter b.index, w, seen⟩
        ⟨[], .resume (b.evaluate actions dt observe (w, seen)).1,
          (b.evaluate actions dt observe (w, seen)).2.1,
          (b.evaluate actions dt observe (w, seen)).2.2⟩ := by
  obtain ⟨is, n, hsub, hn, hsteps⟩ := evaluates_of_fits hb [] w seen
  have hle : is.length ≤ t.size := hsub.length_le.trans (hb.length_indices_le hf)
  refine ⟨is, n, hsub, ?_, hsteps⟩
  unfold enoughSteps
  omega

/-- From the index of a behaviour on, the machine ends within `enoughSteps` with what evaluating
the behaviour gives. -/
theorem run_of_fits (hf : IsForest t.nodes) {b : Behavior} (hb : b.Fits t.nodes) (w : World ε)
    (seen : τ) {fuel : Nat} (hfuel : enoughSteps t ≤ fuel) :
    run t actions dt observe fuel ⟨[], .enter b.index, w, seen⟩ =
      some ⟨(b.evaluate actions dt observe (w, seen)).1,
        (b.evaluate actions dt observe (w, seen)).2.1,
        (b.evaluate actions dt observe (w, seen)).2.2⟩ := by
  obtain ⟨is, n, -, hn, hsteps⟩ := steps_of_fits hf hb w seen
  exact hsteps.run_eq_some rfl (hn.trans_le hfuel)

end BehaviorTree.Machine

namespace BehaviorTree.BakedTree

open Machine

variable {ε τ : Type}

theorem tickReporting_of_fits {t : BakedTree} (hf : IsForest t.nodes) {b : Behavior}
    (hb : b.Fits t.nodes) (actions : ActionTable ε) {root : Int32}
    (hroot : linkTarget? root = some b.index) (dt : Float32) (w : World ε)
    (observe : Observer τ) (seen : τ) :
    t.tickReporting actions root dt w observe seen =
      ⟨(b.evaluate actions dt observe (w, seen)).1,
        (b.evaluate actions dt observe (w, seen)).2.1,
        (b.evaluate actions dt observe (w, seen)).2.2⟩ := by
  rw [tickReporting, hroot]
  dsimp only
  rw [run_of_fits hf hb w seen (Nat.le_refl _)]
  rfl

theorem tick_of_fits {t : BakedTree} (hf : IsForest t.nodes) {b : Behavior}
    (hb : b.Fits t.nodes) (actions : ActionTable ε) {root : Int32}
    (hroot : linkTarget? root = some b.index) (dt : Float32) (w : World ε) :
    t.tick actions root dt w =
      let r := b.evaluate actions dt (fun _ _ seen => seen) (w, ())
      (r.1, r.2.1) := by
  rw [tick, tickReporting_of_fits hf hb actions hroot dt w (fun _ _ seen => seen) ()]

/-- Ticking an accepted tree at an index evaluates the behaviour there: the machine comes to an
end, and with the status, the memory and the environment that the recursion gives. -/
theorem tick_eq_evaluate {nodes : Array BakedNode} {ids : Array IdEntry} {t : BakedTree}
    (ht : ofNodes nodes ids = .ok t) (actions : ActionTable ε) {root : Int32} {i : Nat}
    (hroot : linkTarget? root = some i) (hi : i < t.size) (dt : Float32) (w : World ε) :
    ∃ b, t.behavior? i = some b ∧
      let r := b.evaluate actions dt (fun _ _ seen => seen) (w, ())
      (∀ fuel ≥ enoughSteps t, run t actions dt (fun _ _ seen => seen) fuel
        ⟨[], .enter i, w, ()⟩ = some ⟨r.1, r.2.1, ()⟩) ∧
      t.tick actions root dt w = (r.1, r.2.1) := by
  have hf : IsForest t.nodes := forest_of_ofNodes ht
  obtain ⟨b, hb⟩ := exists_behavior hf hi
  obtain ⟨rfl, hfits⟩ := fits_of_behavior hf hb
  refine ⟨b, hb, fun fuel hfuel => run_of_fits hf hfits w () hfuel, ?_⟩
  rw [tick, tickReporting_of_fits hf hfits actions hroot dt w (fun _ _ seen => seen) ()]

/-- A guard with a repeater below it, beside a leaf that arms the guard. -/
def guarded : BakedTree where
  nodes := #[
    { kind := .parallel, firstChild := 2 },
    .setBlackboard 7 1,
    { BakedNode.interrupt 7 with firstChild := 3, nextSibling := 1 },
    { BakedNode.repeater 2 with firstChild := 4 },
    .action 5]
  ids := #[⟨"guard", 2⟩, ⟨"root", 0⟩]

theorem ofNodes_guarded : ofNodes guarded.nodes guarded.ids = .ok guarded := by cbv

/-- `tick_eq_evaluate` below the root of `guarded`, with an action that counts in memory. -/
theorem tick_guarded :
    let actions : ActionTable Nat := ActionTable.empty.registerKey 5 fun _ ctx w =>
      (.success, ⟨w.blackboard.set 9 ctx.deltaTime, w.env + 1⟩)
    let w : World Nat := ⟨.empty, 0⟩
    ofNodes guarded.nodes guarded.ids = .ok guarded ∧ linkTarget? 2 = some 2 ∧
      2 < guarded.size ∧ ∃ b, guarded.behavior? 2 = some b ∧
        let r := b.evaluate actions 0.5 (fun _ _ seen => seen) (w, ())
        (∀ fuel ≥ enoughSteps guarded, run guarded actions 0.5 (fun _ _ seen => seen) fuel
          ⟨[], .enter 2, w, ()⟩ = some ⟨r.1, r.2.1, ()⟩) ∧
        guarded.tick actions 2 0.5 w = (r.1, r.2.1) := by
  intro actions w
  have hroot : linkTarget? 2 = some 2 := by decide
  have hi : 2 < guarded.size := by decide
  exact ⟨ofNodes_guarded, hroot, hi, tick_eq_evaluate ofNodes_guarded actions hroot hi 0.5 w⟩

end BehaviorTree.BakedTree
