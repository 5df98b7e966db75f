import Mathlib
import BehaviorTree.Tick.Behavior

/-!
# The rules of evaluation

One equation for each kind of node, with `told` for what all of them end with: the observer is
told the status. Later proofs evaluate a behaviour by these and do not unfold `evaluate`. Here the
rules that `evaluate` has written out meet the functions of the machine: what a parallel node
settles with (`parallelAfter`), what a node makes of the status of its only child (`settleBy`), and
what an action does (`evaluate_action`).
-/

namespace BehaviorTree.Behavior

open Machine

/-- Induction on behaviours, the children at once. -/
@[elab_as_elim, induction_eliminator]
theorem induct {P : Behavior → Prop}
    (node : ∀ index record children, (∀ b ∈ children, P b) → P (.node index record children)) :
    ∀ b, P b
  | .node i r bs => node i r bs fun b _ => induct node b

variable {ε τ : Type}

/-- What evaluation gives once the observer is told the status of the node at `i`. -/
def told (observe : Observer τ) (i : Nat) (r : Status × Scene ε τ) : Status × Scene ε τ :=
  (r.1, r.2.1, observe i r.1 r.2.2)

variable {actions : ActionTable ε} {dt : Float32} {observe : Observer τ} {i : Nat}
  {record : BakedNode} {b : Behavior} {bs : List Behavior} (scene : Scene ε τ)

/-! ## Composites -/

theorem evaluate_selector (hk : record.kind = .selector) :
    (node i record bs).evaluate actions dt observe scene =
      told observe i (evaluateWhile actions dt observe .failure bs scene) := by
  rw [evaluate.eq_def]
  dsimp only
  rw [hk]
  rfl

theorem evaluate_sequence (hk : record.kind = .sequence) :
    (node i record bs).evaluate actions dt observe scene =
      told observe i (evaluateWhile actions dt observe .success bs scene) := by
  rw [evaluate.eq_def]
  dsimp only
  rw [hk]
  rfl

/-- What a parallel node settles with after the statuses of its last children, given what those
before them have shown. -/
def parallelAfter (failed running : Bool) (statuses : List Status) : Status :=
  parallelStatus (failed || .failure ∈ statuses) (running || .running ∈ statuses)

@[simp] theorem parallelAfter_nil (failed running : Bool) :
    parallelAfter failed running [] = parallelStatus failed running := by
  simp [parallelAfter]

theorem parallelAfter_cons (failed running : Bool) (status : Status) (statuses : List Status) :
    parallelAfter failed running (status :: statuses) =
      parallelAfter (failed || status = .failure) (running || status = .running) statuses := by
  simp [parallelAfter, Bool.or_assoc, eq_comm]

theorem parallelAfter_none (statuses : List Status) :
    parallelAfter false false statuses =
      if .failure ∈ statuses then .failure
      else if .running ∈ statuses then .running
      else .success := by
  simp [parallelAfter, parallelStatus]

theorem evaluate_parallel (hk : record.kind = .parallel) :
    (node i record bs).evaluate actions dt observe scene =
      let rs := evaluateAll actions dt observe bs scene
      told observe i (parallelAfter false false rs.1, rs.2) := by
  rw [evaluate.eq_def]
  dsimp only
  rw [hk, parallelAfter_none]
  rfl

@[simp] theorem evaluateWhile_nil (status : Status) :
    evaluateWhile actions dt observe status [] scene = (status, scene) := by
  rw [evaluateWhile]

theorem evaluateWhile_cons (status : Status) :
    evaluateWhile actions dt observe status (b :: bs) scene =
      let r := b.evaluate actions dt observe scene
      if r.1 = status then evaluateWhile actions dt observe status bs r.2 else r := by
  rw [evaluateWhile]

@[simp] theorem evaluateAll_nil : evaluateAll actions dt observe [] scene = ([], scene) := by
  rw [evaluateAll]

theorem evaluateAll_cons :
    evaluateAll actions dt observe (b :: bs) scene =
      let r := b.evaluate actions dt observe scene
      let rs := evaluateAll actions dt observe bs r.2
      (r.1 :: rs.1, rs.2) := by
  rw [evaluateAll]

/-! ## Nodes with one child that counts -/

/-- What a node settles with, and the world then, by the status and the world of its only child. -/
def settleBy (record : BakedNode) (child : Nat) (status : Status) (w : World ε) :
    Status × World ε :=
  match record.kind with
  | .invert => (status.invert, w)
  | .succeeder => (status.succeed, w)
  | .repeater => countRepeat (repeaterCounterKey child) record.repeatCount status w
  | _ => (status, w)

/-- A kind of node that evaluates its first child alone, and always does. -/
def IsDecorator (kind : NodeKind) : Prop := kind = .invert ∨ kind = .succeeder ∨ kind = .repeater

/-- The kinds of node that go to their first child whenever they have one. -/
def Descends (kind : NodeKind) : Prop :=
  kind = .selector ∨ kind = .sequence ∨ kind = .parallel ∨ IsDecorator kind

theorem IsDecorator.descends {kind : NodeKind} (h : IsDecorator kind) : Descends kind :=
  .inr (.inr (.inr h))

/-- What a node that is no leaf settles with when it has no child. -/
def emptyStatus (kind : NodeKind) : Status :=
  match kind with
  | .selector | .invert => .failure
  | _ => .success

theorem evaluate_childless (hk : Descends record.kind ∨ record.kind = .interrupt) :
    (node i record []).evaluate actions dt observe scene =
      told observe i (emptyStatus record.kind, scene) := by
  rw [evaluate.eq_def]
  dsimp only
  rcases hk with (hk | hk | hk | hk | hk | hk) | hk <;> rw [hk] <;> rfl

/-- The rules for the status of an only child are those by which the machine settles. -/
theorem evaluate_decorator (hk : IsDecorator record.kind) :
    (node i record (b :: bs)).evaluate actions dt observe scene =
      let r := b.evaluate actions dt observe scene
      told observe i ((settleBy record b.index r.1 r.2.1).1,
        (settleBy record b.index r.1 r.2.1).2, r.2.2) := by
  rw [evaluate.eq_def]
  dsimp only [settleBy]
  generalize b.evaluate actions dt observe scene = r
  obtain ⟨status, w, seen⟩ := r
  rcases hk with hk | hk | hk
  · rw [hk]
    cases status <;> rfl
  · rw [hk]
    cases status <;> rfl
  · rw [hk]
    cases status with
    | failure | running => rfl
    | success =>
      have htarget : record.intSlot = record.repeatCount := rfl
      dsimp only [countRepeat, repeaterCounterKey]
      rw [htarget]
      split <;> rfl

theorem evaluate_interrupt (hk : record.kind = .interrupt) :
    (node i record (b :: bs)).evaluate actions dt observe scene =
      told observe i (if record.key ≠ 0 ∧ scene.1.get record.key != 0 then
        (.failure, scene.1.set record.key 0, scene.2)
      else b.evaluate actions dt observe scene) := by
  rw [evaluate.eq_def]
  dsimp only
  rw [hk]
  rfl

/-! ## Leaves -/

theorem evaluate_action (hk : record.kind = .action) :
    (node i record bs).evaluate actions dt observe scene =
      let r := actions.execute record.actionKey record ⟨i, dt⟩ scene.1
      told observe i (r.1, r.2, scene.2) := by
  rw [evaluate.eq_def]
  dsimp only [ActionTable.execute]
  rw [hk]
  have hkey : record.intSlot = record.actionKey := rfl
  rw [hkey]
  cases actions.get? record.actionKey <;> rfl

theorem evaluate_setBlackboard (hk : record.kind = .setBlackboard) :
    (node i record bs).evaluate actions dt observe scene =
      told observe i (.success, scene.1.set record.key record.value, scene.2) := by
  rw [evaluate.eq_def]
  dsimp only
  rw [hk]
  rfl

theorem evaluate_clearBlackboard (hk : record.kind = .clearBlackboard) :
    (node i record bs).evaluate actions dt observe scene =
      told observe i (.success,
        if record.key = 0 then scene.1.clear else scene.1.erase record.key, scene.2) := by
  rw [evaluate.eq_def]
  dsimp only
  rw [hk]
  rfl

end BehaviorTree.Behavior
