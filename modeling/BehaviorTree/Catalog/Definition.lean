import BehaviorTree.Authored.Params
import BehaviorTree.Baked.Node
import BehaviorTree.Text.Quoted

/-! # Action definitions

What baking knows about an action kind: its name, the parameters that authors may set, which
tools show, and a mapper that turns the texts of a node into its slots. -/

namespace BehaviorTree

/-- The type of values that a parameter is declared to take. -/
inductive ParamType
  | float
  | int
  | bool
  | string
  | enumeration
  | abilityId
deriving DecidableEq

namespace ParamType

/-- The word for a type. -/
def name : ParamType → String
  | float => "Float"
  | int => "Int"
  | bool => "Bool"
  | string => "String"
  | enumeration => "Enum"
  | abilityId => "AbilityId"

end ParamType

/-- One parameter as tools show it. -/
structure DeclaredParam where
  name : String
  label : String
  type : ParamType
  default : String
  tooltip : String
deriving DecidableEq

namespace DeclaredParam

/-- A descriptor in one line. -/
def describe (d : DeclaredParam) : String :=
  "ParamDescriptor \x7b name: " ++ Text.quoted d.name ++ ", label: " ++ Text.quoted d.label
    ++ ", ty: " ++ d.type.name ++ ", default: " ++ Text.quoted d.default
    ++ ", tooltip: " ++ Text.quoted d.tooltip ++ " \x7d"

end DeclaredParam

/-- The parts of a record that a mapper may fill; links are no concern of it. -/
structure Slots where
  kind : NodeKind
  ints : Vector Int32 3
  floats : Vector Float32 4
deriving DecidableEq

namespace Slots

/-- The slots before a mapper runs: an action under its own key. -/
def ofAction (key : Key) : Slots := 
  ⟨.action, BakedNode.keySlots key, Vector.replicate 4 0⟩

/-- The record with these slots and no links. -/
def toRecord (s : Slots) : BakedNode := { kind := s.kind, ints := s.ints, floats := s.floats }

/-- The slots with another kind. -/
def withKind (s : Slots) (kind : NodeKind) : Slots := { s with kind }

/-- The slots with integer slot `i` filled. -/
def setInt (s : Slots) (i : Fin 3) (value : Int32) : Slots := { s with ints := s.ints.set i value }

/-- The slots with number slot `i` filled. -/
def setFloat (s : Slots) (i : Fin 4) (value : Float32) : Slots :=
  { s with floats := s.floats.set i value }

end Slots

/-- Fills the slots of a node from its parameters. -/
abbrev Mapper := Params → Slots → Slots

/-- What is known about an action kind. -/
structure ActionDefinition where
  name : String
  params : List DeclaredParam := []
  mapper : Option Mapper := none

namespace ActionDefinition

/-- The definition of a kind without parameters or mapper. -/
def ofName (name : String) : ActionDefinition := { name }

/-- The key of the action kind. -/
def key (d : ActionDefinition) : Key := Key.ofName d.name

/-- The definition with a parameter more, shown under its own name. -/
def param (d : ActionDefinition) (type : ParamType) (name default tooltip : String) :
    ActionDefinition :=
  { d with params := d.params ++ [⟨name, name, type, default, tooltip⟩] }

/-- The parameters with another label on the last one. -/
def labelLast (label : String) : List DeclaredParam → List DeclaredParam
  | [] => []
  | [d] => [{ d with label }]
  | d :: rest => d :: labelLast label rest

/-- The definition with another label on the parameter that was added last. -/
def labeled (d : ActionDefinition) (label : String) : ActionDefinition :=
  { d with params := labelLast label d.params }

/-- The definition with a mapper. -/
def withMapper (d : ActionDefinition) (mapper : Mapper) : ActionDefinition :=
  { d with mapper := some mapper }

/-- The slots of a node of this kind. -/
def map (d : ActionDefinition) (params : Params) : Slots :=
  match d.mapper with
  | some mapper => mapper params (.ofAction d.key)
  | none => .ofAction d.key

/-- A definition in one line. -/
def describe (d : ActionDefinition) : String :=
  "ActionDefinition \x7b name: " ++ Text.quoted d.name ++ ", action_hash: "
    ++ toString d.key.toInt ++ ", params: [" ++ ", ".intercalate (d.params.map (·.describe))
    ++ "], mapper: " ++ (if d.mapper.isSome then "true" else "false") ++ " \x7d"

end ActionDefinition

end BehaviorTree
