import BehaviorTree.Tick.Action

/-!
# What registered actions have in common

What all registered actions have in common holds of the empty table (`forall_get?_empty`) and still
holds when one more action that has it is registered (`forall_get?_registerKey`). It is used where
the table executes an action (`execute_of_get?`, `execute_congr`); one that is not registered fails
and changes nothing (`execute_of_get?_none`).
-/

namespace BehaviorTree.ActionTable

variable {ε : Type} {t : ActionTable ε} {P : Action ε → Prop}

/-! ## Registering -/

theorem forall_get?_empty :
    ∀ key action, (empty : ActionTable ε).get? key = some action → P action := by
  intro key action h
  simp [get?, empty] at h

theorem forall_get?_registerKey (h : ∀ key action, t.get? key = some action → P action)
    {action : Action ε} (haction : P action) (key : Key) :
    ∀ other found, (t.registerKey key action).get? other = some found → P found := by
  intro other found hget
  rcases get?_registerKey hget with rfl | hget
  · exact haction
  · exact h other found hget

/-! ## Executing -/

section
variable {key : Key} {n n' : BakedNode} {ctx ctx' : ActionContext} {w : World ε}

theorem execute_of_get? {action : Action ε} (h : t.get? key = some action) (n : BakedNode)
    (ctx : ActionContext) (w : World ε) : t.execute key n ctx w = action n ctx w := by
  rw [execute, h]

theorem execute_of_get?_none (h : t.get? key = none) (n : BakedNode) (ctx : ActionContext)
    (w : World ε) : t.execute key n ctx w = (.failure, w) := by
  rw [execute, h]

/-- An action that does the same for two nodes is executed in the same way for both. -/
theorem execute_congr (h : ∀ action, t.get? key = some action → action n ctx w = action n' ctx' w) :
    t.execute key n ctx w = t.execute key n' ctx' w := by
  cases hget : t.get? key with
  | none => rw [execute_of_get?_none hget, execute_of_get?_none hget]
  | some action => rw [execute_of_get? hget, execute_of_get? hget, h action hget]

end

end BehaviorTree.ActionTable
