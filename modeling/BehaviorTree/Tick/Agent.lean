import BehaviorTree.Tick.Trace

/-! # Agents

An agent runs a tree that it may share with others, from a root of its own, and keeps the memory
that lets the tree go on from tick to tick. -/

namespace BehaviorTree

/-- A tree, a root in it, and the memory between ticks. -/
structure Agent where
  tree : BakedTree
  root : Int32 := 0
  blackboard : Blackboard := .empty

namespace Agent

variable {ε : Type}

/-- An agent that starts from a given root. -/
def ofRoot (tree : BakedTree) (root : Int32) : Agent := { tree, root }

/-- An agent that starts from index 0. -/
def ofTree (tree : BakedTree) : Agent := ofRoot tree 0

/-- Ticks the agent's tree once. -/
def tick (a : Agent) (actions : ActionTable ε) (deltaTime : Float32) (env : ε) :
    Status × Agent × ε :=
  let (status, world) := a.tree.tick actions a.root deltaTime ⟨a.blackboard, env⟩
  (status, { a with blackboard := world.blackboard }, world.env)

/-- Ticks the agent's tree once and adds what settles to a trace. -/
def tickTraced (a : Agent) (actions : ActionTable ε) (deltaTime : Float32) (env : ε)
    (trace : Trace) : Status × Agent × ε × Trace :=
  let outcome := a.tree.tickTraced actions a.root deltaTime ⟨a.blackboard, env⟩ trace
  (outcome.status, { a with blackboard := outcome.world.blackboard }, outcome.world.env,
    outcome.seen)

/-- Puts another tree in place of the agent's; root and memory stay. -/
def swapTree (a : Agent) (tree : BakedTree) : Agent := { a with tree }

end Agent

end BehaviorTree
