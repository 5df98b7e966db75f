import BehaviorTree.Catalog.Standard
import Std.Data.HashMap

/-! # Catalogs

The action definitions that a bake may consult, by name; registering a name again replaces its
definition. -/

namespace BehaviorTree

/-- Action definitions by name. -/
structure Catalog where
  definitions : Std.HashMap String ActionDefinition

namespace Catalog

/-- The catalog that knows no action. -/
def empty : Catalog := ⟨∅⟩

/-- The catalog with a definition more, in place of one of its name. -/
def register (c : Catalog) (d : ActionDefinition) : Catalog := ⟨c.definitions.insert d.name d⟩

/-- The catalog of the standard definitions. -/
def standard : Catalog := ActionDefinition.standard.foldl register empty

instance : Inhabited Catalog := ⟨standard⟩

/-- The definition of a name. -/
def get? (c : Catalog) (name : String) : Option ActionDefinition := c.definitions[name]?

/-- Whether a name is known. -/
def contains (c : Catalog) (name : String) : Bool := c.definitions.contains name

/-- The parameters that are declared for a name; none for an unknown one. -/
def parameters (c : Catalog) (name : String) : List DeclaredParam :=
  match c.get? name with
  | some d => d.params
  | none => []

/-- The known names in order. -/
def names (c : Catalog) : List String := c.definitions.keys.mergeSort (· ≤ ·)

/-- The definitions in the order of their names. -/
def toList (c : Catalog) : List ActionDefinition := c.names.filterMap c.get?

/-- How many names are known. -/
def size (c : Catalog) : Nat := c.definitions.size

/-- Whether no name is known. -/
def isEmpty (c : Catalog) : Bool := c.definitions.isEmpty

end Catalog

end BehaviorTree
