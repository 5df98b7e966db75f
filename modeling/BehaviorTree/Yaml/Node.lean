import BehaviorTree.Yaml.Tag

/-! # YAML nodes

The value tree of a YAML text. Anchored nodes have numbers in the order of their anchors, and an
alias holds the number of the node it stands for, which may be one that it is a part of. -/

namespace BehaviorTree.Yaml

/-- A scalar: its text, whether it is written without quotes, and its tag. -/
structure Scalar where
  text : String
  plain : Bool := true
  tag : Option Tag := none

/-- What stands for an absent node. -/
def Scalar.absent : Scalar := { text := "~" }

mutual

/-- A node with content of its own. -/
inductive Content
  | scalar (value : Scalar)
  | list (items : List Node)
  | map (entries : List (Node × Node))

/-- A node. -/
inductive Node
  | content (value : Content)
  | alias (anchor : Nat)

end

/-- What stands for an absent node. -/
def Node.absent : Node := .content (.scalar .absent)

/-- A text's node, with the content of its anchored nodes by number. -/
structure Root where
  node : Node
  anchored : List (Nat × Content)

end BehaviorTree.Yaml
