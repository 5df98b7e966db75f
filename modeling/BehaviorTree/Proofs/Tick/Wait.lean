import BehaviorTree.Proofs.Tick.Action
import BehaviorTree.Proofs.Tick.Repeater

/-!
# How long a wait waits

A wait adds the time that it is given to a number in memory and succeeds, and removes the number,
when the sum reaches its duration. So each of its activations, from the first turn or from the turn
after a success, starts at 0: the number is the single-precision sum, from the left, of the times
since then (`ActionTable.wait_measures`). No assumption is made about the times: they may be
negative or no numbers at all.
-/

namespace BehaviorTree

open BakedTree (Turn)

variable {ε : Type}

/-! ## One turn -/

theorem waitAction_eq (node : BakedNode) (ctx : ActionContext) (w : World ε) :
    waitAction node ctx w =
      if node.value ≤ w.get (waitTimerKey ctx.nodeIndex) + ctx.deltaTime then
        (.success, w.erase (waitTimerKey ctx.nodeIndex))
      else (.running, w.set (waitTimerKey ctx.nodeIndex)
        (w.get (waitTimerKey ctx.nodeIndex) + ctx.deltaTime)) := rfl

/-- A wait changes its own number and nothing else. -/
theorem sameBut_waitAction (node : BakedNode) (ctx : ActionContext) (w : World ε) :
    Blackboard.SameBut (waitTimerKey ctx.nodeIndex) w.blackboard
        (waitAction node ctx w).2.blackboard ∧
      (waitAction node ctx w).2.env = w.env := by
  rw [waitAction_eq]
  split
  · exact ⟨Blackboard.sameBut_erase .., rfl⟩
  · exact ⟨Blackboard.sameBut_set .., rfl⟩

theorem ActionTable.get?_registerStandard (actions : ActionTable ε) :
    actions.registerStandard.get? (Key.ofName "Wait") = some waitAction := by
  have hkey : Key.ofName "Wait" ≠ 0 := by decide
  rw [registerStandard, registerKey, if_neg hkey, get?, Std.HashMap.getElem?_insert_self]

/-- The turn executes the action of a node. -/
def BakedTree.Turn.execute (turn : Turn ε) (node : BakedNode) (index : Nat) : Status × World ε :=
  turn.actions.execute node.actionKey node ⟨index, turn.deltaTime⟩ turn.world

/-! ## Many turns -/

section
variable (node : BakedNode) (index : Nat) (turns : Nat → Turn ε)

/-- The single-precision sum, from the left and from 0, of the times of the turns from `first` on
and before `next`. -/
def elapsed (first next : Nat) : Float32 :=
  ((List.range' first (next - first)).map fun k => (turns k).deltaTime).foldl (· + ·) 0

/-- Turn `i` starts an activation of the node: it is the first one, or it comes after a success. -/
def Starts (i : Nat) : Prop :=
  i = 0 ∨ ∃ k, i = k + 1 ∧ ((turns k).execute node index).1 = .success

/-- Turn `j` belongs to the activation of the node that has started with turn `i`: the turns
between have not ended it. -/
structure Activation (i j : Nat) : Prop where
  le : i ≤ j
  starts : Starts node index turns i
  waiting : ∀ k, i ≤ k → k < j → ((turns k).execute node index).1 = .running

/-- In turn `j`, a wait measures the time since its activation has started with turn `i`. -/
structure Measures (i j : Nat) : Prop extends Activation node index turns i j where
  success_iff : ((turns j).execute node index).1 = .success ↔ node.value ≤ elapsed turns i (j + 1)
  running_iff : ((turns j).execute node index).1 = .running ↔ ¬ node.value ≤ elapsed turns i (j + 1)
  removed : ((turns j).execute node index).1 = .success →
    ((turns j).execute node index).2.blackboard.find? (waitTimerKey index) = none
  kept : ((turns j).execute node index).1 = .running →
    ((turns j).execute node index).2.blackboard.find? (waitTimerKey index) =
      some (elapsed turns i (j + 1))
  others : Blackboard.SameBut (waitTimerKey index) (turns j).world.blackboard
    ((turns j).execute node index).2.blackboard
  env : ((turns j).execute node index).2.env = (turns j).world.env

/-- What is under the key of the timer before turn `j`, in an activation that has started with turn
`i`: nothing at first, then the sum of the times. -/
structure Waited (i j : Nat) : Prop extends Activation node index turns i j where
  under : (turns j).world.blackboard.values.under (waitTimerKey index) =
    if i = j then [] else [elapsed turns i j]

end

variable {node : BakedNode} {index : Nat} {turns : Nat → Turn ε} {i j : Nat}

theorem activation_self (h : Starts node index turns i) : Activation node index turns i i :=
  ⟨le_rfl, h, fun _ hle hlt => absurd hlt (Nat.not_lt.2 hle)⟩

theorem Activation.succ (h : Activation node index turns i j)
    (hrunning : ((turns j).execute node index).1 = .running) :
    Activation node index turns i (j + 1) := by
  refine ⟨Nat.le_succ_of_le h.le, h.starts, fun k hik hk => ?_⟩
  cases Nat.lt_succ_iff_lt_or_eq.1 hk with
  | inl hlt => exact h.waiting k hik hlt
  | inr heq => rwa [heq]

@[simp] theorem elapsed_self : elapsed turns i i = 0 := by simp [elapsed]

theorem elapsed_succ (h : i ≤ j) :
    elapsed turns i (j + 1) = elapsed turns i j + (turns j).deltaTime := by
  have hlast : i + (j - i) = j := by omega
  rw [elapsed, Nat.succ_sub h, List.range'_1_concat, List.map_append, List.foldl_append, hlast]
  rfl

theorem Waited.get_eq (h : Waited node index turns i j) :
    (turns j).world.get (waitTimerKey index) = elapsed turns i j := by
  rw [World.get, Blackboard.get_eq_head, h.under]
  split
  · next heq => simp [heq]
  · rfl

/-- **One turn**: what a wait does in an activation that has started with turn `i`. -/
theorem Waited.execute (h : Waited node index turns i j) (hkey : node.actionKey = Key.ofName "Wait")
    (hactions : (turns j).actions.get? (Key.ofName "Wait") = some waitAction) :
    (turns j).execute node index =
      if node.value ≤ elapsed turns i (j + 1) then
        (.success, (turns j).world.erase (waitTimerKey index))
      else (.running, (turns j).world.set (waitTimerKey index) (elapsed turns i (j + 1))) := by
  rw [Turn.execute, hkey, ActionTable.execute_of_get? hactions, waitAction_eq]
  dsimp only
  rw [h.get_eq, elapsed_succ h.le]

theorem Waited.under_tail (h : Waited node index turns i j) :
    ((turns j).world.blackboard.values.under (waitTimerKey index)).tail = [] := by
  rw [h.under]
  split <;> rfl

theorem Waited.under_erase (h : Waited node index turns i j) :
    ((turns j).world.erase (waitTimerKey index)).blackboard.values.under (waitTimerKey index) =
      [] := by
  rw [World.erase, Blackboard.erase, Table.under_erase, if_pos rfl, h.under_tail]

theorem Waited.under_set (h : Waited node index turns i j) (value : Float32) :
    ((turns j).world.set (waitTimerKey index) value).blackboard.values.under (waitTimerKey index) =
      [value] := by
  rw [World.set, Blackboard.set, Table.under_set, if_pos rfl, h.under_tail]

theorem Waited.measures (h : Waited node index turns i j)
    (hkey : node.actionKey = Key.ofName "Wait")
    (hactions : (turns j).actions.get? (Key.ofName "Wait") = some waitAction) :
    Measures node index turns i j := by
  have hframe := sameBut_waitAction node ⟨index, (turns j).deltaTime⟩ (turns j).world
  rw [← ActionTable.execute_of_get? hactions, ← hkey] at hframe
  have hexecute := h.execute hkey hactions
  by_cases hreached : node.value ≤ elapsed turns i (j + 1)
  · rw [if_pos hreached] at hexecute
    refine ⟨h.toActivation, ?_, ?_, ?_, ?_, hframe.1, hframe.2⟩
    all_goals rw [hexecute]
    · simp [hreached]
    · simp [hreached]
    · intro _
      exact (Table.under_eq_nil_iff _ _).1 h.under_erase
    · intro hrun
      cases hrun
  · rw [if_neg hreached] at hexecute
    refine ⟨h.toActivation, ?_, ?_, ?_, ?_, hframe.1, hframe.2⟩
    all_goals rw [hexecute]
    · simp [hreached]
    · simp [hreached]
    · intro hsuccess
      cases hsuccess
    · intro _
      rw [Blackboard.find?, Table.find?_eq_head?, h.under_set]
      rfl

/-- By induction on the turns: every turn belongs to an activation. -/
theorem exists_waited {count : Nat} (hkey : node.actionKey = Key.ofName "Wait")
    (hactions : ∀ k < count, (turns k).actions.get? (Key.ofName "Wait") = some waitAction)
    (hstart : (turns 0).world.blackboard.find? (waitTimerKey index) = none)
    (hkept : ∀ k, k + 1 < count →
      (turns (k + 1)).world.blackboard.values.under (waitTimerKey index) =
        ((turns k).execute node index).2.blackboard.values.under (waitTimerKey index))
    (hj : j < count) : ∃ i, Waited node index turns i j := by
  induction j with
  | zero =>
    refine ⟨0, activation_self (.inl rfl), ?_⟩
    rw [if_pos rfl]
    exact (Table.under_eq_nil_iff _ _).2 hstart
  | succ j ih =>
    obtain ⟨i, h⟩ := ih (by omega)
    have hexecute := h.execute hkey (hactions j (by omega))
    have hunder := hkept j hj
    by_cases hreached : node.value ≤ elapsed turns i (j + 1)
    · -- the success ends the activation, and the next one starts with the next turn
      rw [if_pos hreached] at hexecute
      refine ⟨j + 1, activation_self (.inr ⟨j, rfl, by rw [hexecute]⟩), ?_⟩
      rw [hunder, hexecute, if_pos rfl]
      exact h.under_erase
    · rw [if_neg hreached] at hexecute
      have hle := h.le
      refine ⟨i, h.toActivation.succ (by rw [hexecute]), ?_⟩
      rw [hunder, hexecute, if_neg (by omega)]
      exact h.under_set _

namespace ActionTable

/-- Let a wait be executed in turns, from any table where the standard action is registered, with no
number under its key at first and nothing else touching that number. Then it measures in every turn
the time since the last success, or since the first turn: it succeeds if the sum of the times has
reached its duration, and then no number is left, and else runs, and then the sum is the number.
Nothing else is changed. -/
theorem wait_measures {count : Nat} (hkey : node.actionKey = Key.ofName "Wait")
    (hactions : ∀ k < count, (turns k).actions.get? (Key.ofName "Wait") = some waitAction)
    (hstart : (turns 0).world.blackboard.find? (waitTimerKey index) = none)
    (hkept : ∀ k, k + 1 < count →
      (turns (k + 1)).world.blackboard.values.under (waitTimerKey index) =
        ((turns k).execute node index).2.blackboard.values.under (waitTimerKey index)) :
    ∀ j < count, ∃ i, Measures node index turns i j := by
  intro j hj
  obtain ⟨i, hwaited⟩ := exists_waited hkey hactions hstart hkept hj
  exact ⟨i, hwaited.measures hkey (hactions j hj)⟩

/-- `wait_measures` for a wait of one second that is given half a second in each turn. -/
theorem wait_measures_halves :
    let key := Key.ofName "Wait"
    let node := { BakedNode.action key with floats := #v[1, 0, 0, 0] }
    let actions : ActionTable Unit := empty.registerStandard
    let worlds : Nat → World Unit := fun k =>
      (fun w => (actions.execute key node ⟨3, 0.5⟩ w).2)^[k] ⟨.empty, ()⟩
    let turns : Nat → Turn Unit := fun k => ⟨actions, 0.5, worlds k⟩
    (∀ k < 3, (turns k).actions.get? key = some waitAction) ∧
      (turns 0).world.blackboard.find? (waitTimerKey 3) = none ∧
      (∀ k, k + 1 < 3 → (turns (k + 1)).world.blackboard.values.under (waitTimerKey 3) =
        ((turns k).execute node 3).2.blackboard.values.under (waitTimerKey 3)) ∧
      (∀ j < 3, ∃ i, Measures node 3 turns i j) := by
  intro key node actions worlds turns
  have hactions : ∀ k < 3, (turns k).actions.get? key = some waitAction := fun _ _ =>
    get?_registerStandard _
  have hkept : ∀ k, k + 1 < 3 → (turns (k + 1)).world.blackboard.values.under (waitTimerKey 3) =
      ((turns k).execute node 3).2.blackboard.values.under (waitTimerKey 3) := by
    intro k _
    show (worlds (k + 1)).blackboard.values.under _ = _
    rw [show worlds (k + 1) = (actions.execute key node ⟨3, 0.5⟩ (worlds k)).2 from
      Function.iterate_succ_apply' ..]
    rfl
  exact ⟨hactions, rfl, hkept, wait_measures rfl hactions rfl hkept⟩

end ActionTable

end BehaviorTree
