import BehaviorTree.Catalog.Basic
import Mathlib

/-!
# Definitions of a catalog

`Catalog.get?_standard`: what the standard catalog has under a name, the last definition of it that
was registered.
-/

namespace BehaviorTree.Catalog

theorem get?_register (c : Catalog) (d : ActionDefinition) (name : String) :
    (c.register d).get? name = if d.name = name then some d else c.get? name := by
  simp [get?, register, Std.HashMap.getElem?_insert]

theorem get?_foldl_register (ds : List ActionDefinition) (c : Catalog) (name : String) :
    (ds.foldl register c).get? name = (ds.reverse.find? (·.name = name)).or (c.get? name) := by
  induction ds generalizing c with
  | nil => rfl
  | cons d ds ih =>
    rw [List.foldl_cons, ih, get?_register, List.reverse_cons, List.find?_append]
    by_cases h : d.name = name <;> simp [h]

theorem get?_standard (name : String) :
    standard.get? name = ActionDefinition.standard.reverse.find? (·.name = name) := by
  rw [standard, get?_foldl_register]
  simp [get?, empty]

end BehaviorTree.Catalog
