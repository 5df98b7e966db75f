import BehaviorTree.Baked.Node
import BehaviorTree.Memory.Blackboard
import BehaviorTree.Status
import Std.Data.HashMap

/-! # Actions

A baked action node holds only the key of its kind. What the kind does is registered in an action
table, as a function of the record, of where and when it runs, and of the world: the agent's
memory and the environment `ε` of the simulation. A kind that is not registered fails. Key 0 is
never registered: it is what a node of unknown kind holds, and such a node has to keep failing.

`waitAction` is the one standard action: it adds up the time it is given under a key of its node
until the sum reaches the duration in number slot 0. -/

namespace BehaviorTree

/-- What an action may change: the agent's memory and the environment. -/
structure World (ε : Type) where
  blackboard : Blackboard
  env : ε

namespace World

variable {ε : Type}

/-- The number in memory under `key`, 0 when there is none. -/
def get (w : World ε) (key : Key) : Float32 := w.blackboard.get key

/-- Puts a number into memory. -/
def set (w : World ε) (key : Key) (value : Float32) : World ε :=
  { w with blackboard := w.blackboard.set key value }

/-- Removes a number from memory. -/
def erase (w : World ε) (key : Key) : World ε :=
  { w with blackboard := w.blackboard.erase key }

/-- Removes every number from memory. -/
def clear (w : World ε) : World ε := { w with blackboard := w.blackboard.clear }

end World

/-- Where an action runs, and the time since the last tick. -/
structure ActionContext where
  nodeIndex : Nat
  deltaTime : Float32

/-- What an action kind does. -/
abbrev Action (ε : Type) := BakedNode → ActionContext → World ε → Status × World ε

/-- The registered action kinds, by key. -/
structure ActionTable (ε : Type) where
  actions : Std.HashMap Key (Action ε)

namespace ActionTable

variable {ε : Type}

/-- The table without actions. -/
def empty : ActionTable ε := ⟨∅⟩

instance : Inhabited (ActionTable ε) := ⟨empty⟩

/-- Registers an action under a key, in place of the one that was there; key 0 is refused. -/
def registerKey (t : ActionTable ε) (key : Key) (action : Action ε) : ActionTable ε :=
  if key = 0 then t else ⟨t.actions.insert key action⟩

/-- Registers an action under the key of a name. -/
def register (t : ActionTable ε) (name : String) (action : Action ε) : ActionTable ε :=
  t.registerKey (Key.ofName name) action

/-- Whether an action is registered under a key. -/
def contains (t : ActionTable ε) (key : Key) : Bool := t.actions.contains key

/-- The action registered under a key. -/
def get? (t : ActionTable ε) (key : Key) : Option (Action ε) := t.actions[key]?

/-- Removes the action under a key. -/
def unregister (t : ActionTable ε) (key : Key) : ActionTable ε := ⟨t.actions.erase key⟩

/-- Removes every action. -/
def clear (_ : ActionTable ε) : ActionTable ε := empty

/-- How many actions are registered. -/
def size (t : ActionTable ε) : Nat := t.actions.size

/-- Runs the action under a key; an unregistered one fails and changes nothing. -/
def execute (t : ActionTable ε) (key : Key) (node : BakedNode) (ctx : ActionContext)
    (world : World ε) : Status × World ε :=
  match t.get? key with
  | some action => action node ctx world
  | none => (.failure, world)

/-- What is found after registering is what was registered or was there before. -/
theorem get?_registerKey {t : ActionTable ε} {key other : Key} {action found : Action ε}
    (h : (t.registerKey key action).get? other = some found) :
    found = action ∨ t.get? other = some found := by
  unfold registerKey at h
  split at h
  · exact .inr h
  · rw [get?, Std.HashMap.getElem?_insert] at h
    split at h
    · cases h
      exact .inl rfl
    · exact .inr h

end ActionTable

/-! ## Kinds with a name of their own -/

/-- The names of the standard action kinds, in the order in which they are listed. -/
def standardActionNames : List String :=
  ["Wait", "SetBlackboard", "ClearBlackboard", "AnimatorSetState", "AnimatorSetFloat",
    "AnimatorSetInt", "AnimatorSetBool", "AnimatorSetTrigger", "WaitAnimEvent"]

/-- The key under which the wait node at an index keeps its elapsed time. -/
def waitTimerKey (index : Nat) : Key := Key.mix (Key.ofName "Wait") (Int32.ofNat index)

/-- Succeeds once the time that was given since the last success reaches number slot 0. -/
def waitAction {ε : Type} : Action ε := fun node ctx world =>
  let key := waitTimerKey ctx.nodeIndex
  let elapsed := world.get key + ctx.deltaTime
  if node.value ≤ elapsed then (.success, world.erase key)
  else (.running, world.set key elapsed)

/-- The table with the standard action registered. -/
def ActionTable.registerStandard {ε : Type} (t : ActionTable ε) : ActionTable ε :=
  t.registerKey (Key.ofName "Wait") waitAction

end BehaviorTree
