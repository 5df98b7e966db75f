import BehaviorTree.Json.Decode
import BehaviorTree.Json.Writer
import BehaviorTree.Stored.Graph

/-! # Graphs as JSON -/

namespace BehaviorTree.Graph

/-- A graph as JSON text. -/
def toJson (g : Graph) : String := g.toDocument.toJsonPretty

/-- The graph that a JSON text holds. -/
def ofJson (text : String) : Except Json.Failure Graph :=
  Json.decode (decoder Json.format) text

end BehaviorTree.Graph
