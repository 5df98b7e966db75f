import BehaviorTree.Text.Quoted

/-! # Faults and warnings of a bake

A `BakeError` aborts a bake; a `BakeWarning` does not, and the baked tree degrades at the node or
edge it names. -/

namespace BehaviorTree

/-- One step of a reported cycle. -/
structure CycleStep where
  id : String
  type : String
  position : Nat
deriving DecidableEq

/-- A step as a message shows it: its type and position. -/
def CycleStep.describe (n : CycleStep) : String := n.type ++ "[" ++ toString n.position ++ "]"

/-- Why a graph cannot be baked. The path of a cycle ends with the node that it starts with. -/
inductive BakeError
  | cycle (path : List CycleStep)
  | duplicateNodeId (id : String)
  | multipleParents (child first second : String)
deriving DecidableEq

namespace BakeError

/-- The wording of an error. -/
def message : BakeError → String
  | cycle path => "cycle detected: " ++ " -> ".intercalate (path.map (·.describe))
  | duplicateNodeId id => "node id " ++ Text.quoted id ++ " is used by more than one node"
  | multipleParents child first second =>
    "node " ++ Text.quoted child ++ " has more than one parent (" ++ Text.quoted first ++ " and "
      ++ Text.quoted second ++ ")"

end BakeError

/-- What a bake skipped or degraded. -/
inductive BakeWarning
  | unknownAction (id action : String)
  | danglingEdge (fromId toId : String)
  | duplicateEdge (fromId toId : String)
deriving DecidableEq

namespace BakeWarning

/-- An edge as a message shows it. -/
def describeEdge (fromId toId : String) : String :=
  "edge " ++ Text.quoted fromId ++ " -> " ++ Text.quoted toId

/-- The wording of a warning. -/
def message : BakeWarning → String
  | unknownAction id action =>
    "node " ++ Text.quoted id ++ " uses unknown action " ++ Text.quoted action
  | danglingEdge fromId toId => describeEdge fromId toId ++ " refers to a missing node"
  | duplicateEdge fromId toId => describeEdge fromId toId ++ " is repeated"

end BakeWarning

end BehaviorTree
