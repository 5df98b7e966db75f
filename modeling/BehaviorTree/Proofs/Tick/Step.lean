import BehaviorTree.Proofs.Baked.Links
import BehaviorTree.Proofs.Tick.Rules
import BehaviorTree.Tick.Machine

/-!
# One step of the machine

`Stepped t actions dt observe s s'` has one constructor for each kind of step. The machine takes
exactly these steps (`stepped_of_step` and `Stepped.step_eq`) and ends where it hands a status on
and no node is open (`state_of_outcome`). Later proofs go by the kinds of step and do not open
`step`. What a kind says of the node comes from the rules for `enter` and `resume`: a node that
goes on to a child goes to its first child or to the next sibling and leaves the world as it is
(`child_of_enter`, `child_of_resume`).
-/

namespace BehaviorTree.Machine

open Behavior

variable {ε τ : Type} {t : BakedTree} {actions : ActionTable ε} {dt : Float32}
  {observe : Observer τ}

/-! ## Entering a node -/

theorem enter_descends (actions : ActionTable ε) (dt : Float32) {record : BakedNode}
    (hk : Descends record.kind) (i : Nat) (w : World ε) :
    enter actions dt i record w =
      (.childOr record.firstChild? (emptyStatus record.kind), w) := by
  unfold enter emptyStatus
  rcases hk with hk | hk | hk | hk | hk | hk <;> rw [hk]

section
variable {n : BakedNode} {c : Nat} {w : World ε}

theorem enter_first (hk : Descends n.kind) (hc : n.firstChild? = some c) (i : Nat) :
    enter actions dt i n w = (.child c, w) := by
  rw [enter_descends actions dt hk, hc]
  rfl

/-- An interrupt with a child fires where its key does not read 0: it fails, and the key is 0. -/
theorem enter_armed (hk : n.kind = .interrupt) (hc : n.firstChild? = some c)
    (harmed : n.key ≠ 0 ∧ w.get n.key != 0) (i : Nat) :
    enter actions dt i n w = (.settled .failure, w.set n.key 0) := by
  simp only [enter, hk, hc, if_pos harmed]

/-- An interrupt that does not fire goes on to its child. -/
theorem enter_unarmed (hk : n.kind = .interrupt) (hc : n.firstChild? = some c)
    (harmed : ¬(n.key ≠ 0 ∧ w.get n.key != 0)) (i : Nat) :
    enter actions dt i n w = (.child c, w) := by
  simp only [enter, hk, hc, if_neg harmed]

end

/-- A node that goes on to a child when it is entered goes to the first, and does nothing else. -/
theorem child_of_enter {i c : Nat} {n : BakedNode} {w w' : World ε}
    (h : enter actions dt i n w = (.child c, w')) : n.firstChild? = some c ∧ w' = w := by
  cases hkind : n.kind with
  | interrupt =>
    cases hc : n.firstChild? with
    | none => simp [enter, hkind, hc] at h
    | some child =>
      by_cases harmed : n.key ≠ 0 ∧ w.get n.key != 0
      · rw [enter_armed hkind hc harmed] at h
        cases h
      · rw [enter_unarmed hkind hc harmed] at h
        cases h
        exact ⟨rfl, rfl⟩
  | action | setBlackboard | clearBlackboard => simp [enter, hkind] at h
  | _ =>
    rw [enter_descends actions dt (by simp [Descends, IsDecorator, hkind])] at h
    cases hc : n.firstChild? with
    | none =>
      rw [hc] at h
      cases h
    | some child =>
      rw [hc] at h
      cases h
      exact ⟨rfl, rfl⟩

/-! ## Going on after a child -/

theorem resume_decorator {record : BakedNode} (hk : IsDecorator record.kind)
    (sibling : Option Nat) (frame : Frame) (result : Status) (w : World ε) :
    resume record sibling frame result w =
      (.settled (settleBy record frame.child result w).1, frame,
        (settleBy record frame.child result w).2) := by
  unfold resume settleBy
  rcases hk with hk | hk | hk <;> rw [hk]

/-- The frame of a parallel node that has seen one more status. -/
def Frame.noting (frame : Frame) (result : Status) : Frame :=
  { frame with
    failed := frame.failed || result = .failure
    running := frame.running || result = .running }

theorem resume_parallel {record : BakedNode} (hk : record.kind = .parallel)
    (sibling : Option Nat) (frame : Frame) (result : Status) (w : World ε) :
    resume record sibling frame result w =
      (.childOr sibling
          (parallelStatus (frame.noting result).failed (frame.noting result).running),
        frame.noting result, w) := by
  simp only [resume, hk, Frame.noting]

theorem resume_interrupt {record : BakedNode} (hk : record.kind = .interrupt)
    (sibling : Option Nat) (frame : Frame) (result : Status) (w : World ε) :
    resume record sibling frame result w = (.settled result, frame, w) := by
  simp only [resume, hk]

/-- A node that goes on keeps its place. -/
theorem index_of_resume {n : BakedNode} {sibling : Option Nat} {frame frame' : Frame}
    {status : Status} {visit : Visit} {w w' : World ε}
    (h : resume n sibling frame status w = (visit, frame', w')) : frame'.index = frame.index := by
  have hindex : (resume n sibling frame status w).2.1.index = frame.index := by
    unfold resume
    cases n.kind <;> rfl
  rwa [h] at hindex

/-- A node that goes on to another child goes to the next sibling, and does nothing else; a repeater
never does. -/
theorem child_of_resume {n : BakedNode} {sibling : Option Nat} {frame frame' : Frame}
    {status : Status} {c : Nat} {w w' : World ε}
    (h : resume n sibling frame status w = (.child c, frame', w')) :
    sibling = some c ∧ w' = w ∧ n.kind ≠ .repeater := by
  have hchild : ∀ {status : Status},
      Visit.childOr sibling status = .child c → sibling = some c := by
    intro status hs
    cases sibling with
    | none => cases hs
    | some j =>
      cases hs
      rfl
  unfold resume at h
  cases hk : n.kind <;> simp only [hk, Prod.mk.injEq, reduceCtorEq, false_and] at h
  case selector | sequence =>
    obtain ⟨hvisit, -, rfl⟩ := h
    split at hvisit
    · exact ⟨hchild hvisit, rfl, by decide⟩
    · cases hvisit
  case parallel =>
    obtain ⟨hvisit, -, rfl⟩ := h
    exact ⟨hchild hvisit, rfl, by decide⟩

/-! ## The kinds of step -/

section
variable (t actions dt observe)

/-- The steps of the machine, one constructor for each kind. -/
inductive Stepped : State ε τ → State ε τ → Prop
  | outside {stack : List Frame} {i : Nat} {w : World ε} {seen : τ} (hn : t.get? i = none) :
      Stepped ⟨stack, .enter i, w, seen⟩ ⟨stack, .resume .failure, w, seen⟩
  | opened {stack : List Frame} {i c : Nat} {n : BakedNode} {w w' : World ε} {seen : τ}
      (hn : t.get? i = some n) (he : enter actions dt i n w = (.child c, w')) :
      Stepped ⟨stack, .enter i, w, seen⟩ ⟨⟨i, c, false, false⟩ :: stack, .enter c, w', seen⟩
  | settled {stack : List Frame} {i : Nat} {n : BakedNode} {status : Status} {w w' : World ε}
      {seen : τ} (hn : t.get? i = some n) (he : enter actions dt i n w = (.settled status, w')) :
      Stepped ⟨stack, .enter i, w, seen⟩ ⟨stack, .report i status, w', seen⟩
  | reported {stack : List Frame} {i : Nat} {status : Status} {w : World ε} {seen : τ} :
      Stepped ⟨stack, .report i status, w, seen⟩
        ⟨stack, .resume status, w, observe i status seen⟩
  | dropped {frame : Frame} {stack : List Frame} {status : Status} {w : World ε} {seen : τ}
      (hn : t.get? frame.index = none) :
      Stepped ⟨frame :: stack, .resume status, w, seen⟩ ⟨stack, .resume status, w, seen⟩
  | sibling {frame frame' : Frame} {stack : List Frame} {n : BakedNode} {status : Status} {c : Nat}
      {w w' : World ε} {seen : τ} (hn : t.get? frame.index = some n)
      (hr : resume n (siblingOf t.nodes frame.child) frame status w = (.child c, frame', w')) :
      Stepped ⟨frame :: stack, .resume status, w, seen⟩
        ⟨{ frame' with child := c } :: stack, .enter c, w', seen⟩
  | closed {frame frame' : Frame} {stack : List Frame} {n : BakedNode} {status status' : Status}
      {w w' : World ε} {seen : τ} (hn : t.get? frame.index = some n)
      (hr : resume n (siblingOf t.nodes frame.child) frame status w =
        (.settled status', frame', w')) :
      Stepped ⟨frame :: stack, .resume status, w, seen⟩
        ⟨stack, .report frame'.index status', w', seen⟩

end

theorem stepped_of_step {s s' : State ε τ} (h : step t actions dt observe s = .inl s') :
    Stepped t actions dt observe s s' := by
  obtain ⟨stack, phase, w, seen⟩ := s
  cases phase with
  | enter i =>
    cases hn : t.get? i with
    | none =>
      simp only [step, hn, Sum.inl.injEq] at h
      subst h
      exact .outside hn
    | some n =>
      rcases he : enter actions dt i n w with ⟨c | status, w'⟩
      · simp only [step, hn, he, Sum.inl.injEq] at h
        subst h
        exact .opened hn he
      · simp only [step, hn, he, Sum.inl.injEq] at h
        subst h
        exact .settled hn he
  | report i status =>
    cases h
    exact .reported
  | resume status =>
    cases stack with
    | nil => cases h
    | cons frame stack =>
      cases hn : t.get? frame.index with
      | none =>
        simp only [step, hn, Sum.inl.injEq] at h
        subst h
        exact .dropped hn
      | some n =>
        have hs : siblingOf t.nodes frame.child =
            (t.get? frame.child).bind (·.nextSibling?) := rfl
        rcases hr : resume n (siblingOf t.nodes frame.child) frame status w with
          ⟨c | status', frame', w'⟩
        · simp only [step, hn, ← hs, hr, Sum.inl.injEq] at h
          subst h
          exact .sibling hn hr
        · simp only [step, hn, ← hs, hr, Sum.inl.injEq] at h
          subst h
          exact .closed hn hr

/-- The machine takes every step of a kind: there is one kind for each state at most. -/
theorem Stepped.step_eq {s s' : State ε τ} (h : Stepped t actions dt observe s s') :
    step t actions dt observe s = .inl s' := by
  have hs : ∀ c, (t.get? c).bind (·.nextSibling?) = siblingOf t.nodes c := fun _ => rfl
  cases h with
  | outside hn => simp only [step, hn]
  | opened hn he => simp only [step, hn, he]
  | settled hn he => simp only [step, hn, he]
  | reported => rfl
  | dropped hn => simp only [step, hn]
  | sibling hn hr => simp only [step, hn, hs, hr]
  | closed hn hr => simp only [step, hn, hs, hr]

/-- A step changes the world where a node is entered, as `enter` does, and where an open node gets
the status of its child, as `resume` does. -/
theorem world_of_step {s s' : State ε τ} (h : step t actions dt observe s = .inl s') :
    s'.world = s.world ∨
    (∃ i n, s.phase = .enter i ∧ t.get? i = some n ∧
      s'.world = (enter actions dt i n s.world).2) ∨
    (∃ frame n status, s.stack.head? = some frame ∧ s.phase = .resume status ∧
      t.get? frame.index = some n ∧
      s'.world = (resume n (siblingOf t.nodes frame.child) frame status s.world).2.2) := by
  cases stepped_of_step h with
  | outside hn => exact .inl rfl
  | opened hn he => exact .inr (.inl ⟨_, _, rfl, hn, by rw [he]⟩)
  | settled hn he => exact .inr (.inl ⟨_, _, rfl, hn, by rw [he]⟩)
  | reported => exact .inl rfl
  | dropped hn => exact .inl rfl
  | sibling hn hr => exact .inr (.inr ⟨_, _, _, rfl, rfl, hn, by rw [hr]⟩)
  | closed hn hr => exact .inr (.inr ⟨_, _, _, rfl, rfl, hn, by rw [hr]⟩)

/-- The machine ends where it hands a status on and no node is open. -/
theorem state_of_outcome {s : State ε τ} {outcome : Outcome ε τ}
    (h : step t actions dt observe s = .inr outcome) :
    s = ⟨[], .resume outcome.status, outcome.world, outcome.seen⟩ := by
  obtain ⟨stack, phase, w, seen⟩ := s
  cases phase with
  | enter i =>
    simp only [step] at h
    split at h
    · cases h
    · split at h <;> cases h
  | report i status => cases h
  | resume status =>
    cases stack with
    | nil =>
      cases h
      rfl
    | cons frame stack =>
      simp only [step] at h
      split at h
      · cases h
      · split at h <;> cases h

end BehaviorTree.Machine
