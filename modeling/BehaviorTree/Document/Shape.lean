/-! # Shapes

A `Shape` describes how records of a type are written: by named fields in an order, each with the
decoder of its value. It leaves open which text format the values come from: `δ α` stands for the
decoders of one format for values of type `α`, and a `Format` gives the decoders that shapes are
built from. -/

namespace BehaviorTree

/-- A field of a record type: its names, whether it may be absent, and how its value is put into
a record. -/
structure Field (δ : Type → Type) (α : Type) where
  name : String
  aliases : List String := []
  optional : Bool := false
  store : δ (α → α)

/-- Whether a field goes by a name. -/
def Field.accepts {δ : Type → Type} {α : Type} (f : Field δ α) (name : String) : Bool :=
  f.name = name || f.aliases.contains name

/-- A record type: its name, its fields in order, and a record to start from. -/
structure Shape (δ : Type → Type) (α : Type) where
  name : String
  start : α
  fields : List (Field δ α)

namespace Shape

variable {δ : Type → Type} {α : Type}

/-- The type as a message names it. -/
def describe (s : Shape δ α) : String := "struct " ++ s.name

/-- The type and how many fields it has, as a message names it. -/
def describeLength (s : Shape δ α) : String :=
  s.describe ++ " with " ++ toString s.fields.length
    ++ (if s.fields.length = 1 then " element" else " elements")

/-- The field that goes by a name. -/
def field? (s : Shape δ α) (name : String) : Option (Field δ α) :=
  s.fields.find? (·.accepts name)

/-- The first field that must be present and is not among those seen. -/
def missing? (s : Shape δ α) (seen : List String) : Option (Field δ α) :=
  s.fields.find? fun f => !f.optional && !seen.contains f.name

end Shape

/-- The decoders of a text format. -/
structure Format (δ : Type → Type) where
  map : {α β : Type} → (α → β) → δ α → δ β
  text : δ String
  int32 : δ Int32
  option : {α : Type} → δ α → δ (Option α)
  array : {α : Type} → δ α → δ (Array α)
  texts : δ (List (String × String))
  record : {α : Type} → Shape δ α → δ α

/-! ## Faults of a record -/

/-- What is wrong with a field that comes a second time. -/
def duplicateField (name : String) : String := "duplicate field `" ++ name ++ "`"

/-- What is wrong with a record that lacks a field. -/
def missingField (name : String) : String := "missing field `" ++ name ++ "`"

/-- What is wrong with a list of another length than is expected. -/
def invalidLength (length : Nat) (expected : String) : String :=
  "invalid length " ++ toString length ++ ", expected " ++ expected

/-- What is wrong with a value of another type than is expected. -/
def invalidType (found expected : String) : String :=
  "invalid type: " ++ found ++ ", expected " ++ expected

/-- What is wrong with a value that is not among those of the expected type. -/
def invalidValue (found expected : String) : String :=
  "invalid value: " ++ found ++ ", expected " ++ expected

end BehaviorTree
