/-! # Documents

The value tree that stored forms are written from, whichever text format then writes it. A record
keeps the order of its fields. -/

namespace BehaviorTree

/-- A value of a stored form. -/
inductive Document
  | null
  | bool (value : Bool)
  | int (value : Int)
  | float (value : Float32)
  | text (value : String)
  | list (items : List Document)
  | record (fields : List (String × Document))

end BehaviorTree
