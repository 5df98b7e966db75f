/-! # JSON texts as far as they can be read

A JSON text is taken in from the front, and the first thing that is wrong with it decides how
reading fails: a value of the wrong type may come before a place where the text is no JSON any
more. A `Value` is therefore the value tree of a text up to that place, with the place in it.

What is wrong may depend on whether the value there is used or skipped: a skipped number may be
out of range, and a skipped text may hold half of a surrogate pair. -/

namespace BehaviorTree.Json

/-- How a text fails to be JSON: it has something else, or ends, where more is needed. -/
inductive Fault
  | malformed
  | truncated
deriving DecidableEq

/-- A number as it is written: its digits before the point, after it, and in the exponent. -/
structure Numeral where
  negative : Bool
  whole : List Char
  fraction : List Char := []
  exponent : Option (Bool × List Char) := none
deriving DecidableEq

/-- A text that is read, or how reading it fails. -/
abbrev ReadText := Except Fault String

/-- The value tree of a text as far as it can be read. A list or record that is not closed
properly carries the fault; a word or number that is cut off, and any other broken value, carries
one fault for its use and one for its being skipped. After a comma in a record something else
than a key counts as a field whose key is faulty. -/
inductive Value
  | null
  | bool (value : Bool)
  | number (value : Numeral)
  | text (value : ReadText)
  | list (items : List Value) (ending : Option Fault)
  | record (fields : List (ReadText × Value)) (ending : Option Fault)
  | cut (used skipped : Fault)
  | broken (used skipped : Fault)

/-- What the ending of a list or record comes to. -/
def endingResult : Option Fault → Except Fault Unit
  | none => .ok ()
  | some f => .error f

mutual

/-- The first fault on the way when a value is skipped. -/
def Value.skip : Value → Except Fault Unit
  | .null | .bool _ | .number _ | .text _ => .ok ()
  | .list items ending =>
    match skipItems items with
    | .ok () => endingResult ending
    | .error f => .error f
  | .record fields ending =>
    match skipFields fields with
    | .ok () => endingResult ending
    | .error f => .error f
  | .cut _ skipped | .broken _ skipped => .error skipped

/-- The first fault on the way when items are skipped. -/
def skipItems : List Value → Except Fault Unit
  | [] => .ok ()
  | item :: rest =>
    match item.skip with
    | .ok () => skipItems rest
    | .error f => .error f

/-- The first fault on the way when fields are skipped. -/
def skipFields : List (ReadText × Value) → Except Fault Unit
  | [] => .ok ()
  | (_, value) :: rest =>
    match value.skip with
    | .ok () => skipFields rest
    | .error f => .error f

end

end BehaviorTree.Json
