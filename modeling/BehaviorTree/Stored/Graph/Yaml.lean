import BehaviorTree.Stored.Graph
import BehaviorTree.Yaml.Decode
import BehaviorTree.Yaml.Writer

/-! # Graphs as YAML -/

namespace BehaviorTree.Graph

/-- A graph as YAML text. -/
def toYaml (g : Graph) : String := g.toDocument.toYaml

/-- The graph that a YAML text holds. -/
def ofYaml (text : String) : Except Yaml.Failure Graph :=
  Yaml.decode (decoder Yaml.format) text

end BehaviorTree.Graph
