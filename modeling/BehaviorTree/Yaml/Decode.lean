import BehaviorTree.Document.Shape
import BehaviorTree.Yaml.Node.Grammar
import BehaviorTree.Yaml.Plain

/-! # Decoding YAML nodes

A `Decoder` takes a value of one type out of a node, or says where in the text and why it cannot.
What a scalar denotes depends on its tag, else on its style and spelling; where a text is wanted,
every scalar gives its own.

Aliases stand for their nodes everywhere, also for nodes that they are a part of: no type here
nests without end, so decoding follows only a few of them below one another. -/

namespace BehaviorTree.Yaml

/-! ## Failures and places -/

/-- Why a text gives no value of a type: it is not one well-formed document, or it holds another
value. -/
inductive Failure
  | malformed
  | data (message : String)
deriving DecidableEq

/-- Where a node stands in its document. -/
inductive Path
  | root
  | item (list : Path) (index : Nat)
  /-- The value of a key; a key that is no scalar has no text. -/
  | field (map : Path) (key : Option String)

namespace Path

/-- A path as messages show it. -/
def toString : Path → String
  | root => "."
  | item list i => list.toString ++ "[" ++ Nat.repr i ++ "]"
  | field root key => key.getD "?"
  | field map key => map.toString ++ "." ++ key.getD "?"

/-- The collection that a path leads out of. -/
def parent : Path → Path
  | root => root
  | item list _ => list
  | field map _ => map

/-- A failure at a path. -/
def failure (path : Path) (message : String) : Failure :=
  match path with
  | root => .data message
  | path => .data (path.toString ++ ": " ++ message)

end Path

/-! ## Scalars -/

/-- The value of a scalar under a tag of YAML's own types, or why it is none. -/
def Scalar.tagged (text type : String) : Except String ScalarValue :=
  let cs := text.toList
  let orExpected (expected : String) : Option ScalarValue → Except String ScalarValue
    | some v => .ok v
    | none => .error (invalidValue (describeText text) expected)
  match type with
  | "bool" =>
    orExpected "a boolean"
      (if text = "true" then some (.bool true) else if text = "false" then some (.bool false)
        else none)
  | "int" =>
    orExpected "an integer"
      (((decimalInt? cs).filter fun n =>
        Int64.minValue.toInt ≤ n && n ≤ Int64.maxValue.toInt).map .int)
  | "float" => orExpected "a float" ((decimalFloat? cs).map .float)
  | "null" => orExpected "null" (if text = "~" ∨ text = "null" then some .null else none)
  | _ => .ok (.text text)

/-- What a scalar denotes, or why it denotes nothing. -/
def Scalar.value (s : Scalar) : Except String ScalarValue :=
  match s.tag with
  | some ⟨"!!", type⟩ => tagged s.text type
  | some _ => .ok (.text s.text)
  | none => .ok (if s.plain then .ofPlain s.text else .text s.text)

/-- Whether a scalar stands for an absent value, or why it denotes nothing. -/
def Scalar.isNull (s : Scalar) : Except String Bool :=
  let isNullWord := s.text = "~" || s.text = "null"
  if s.plain then
    match s.tag with
    | some ⟨"!!", "null"⟩ =>
      if isNullWord then .ok true else .error (invalidValue (describeText s.text) "null")
    | some _ => .ok false
    | none => .ok isNullWord
  else .ok false

/-- What is wrong with content that is not of the expected type. -/
def Content.mismatch (expected : String) : Content → String
  | .scalar s =>
    match s.value with
    | .ok v => invalidType v.describe expected
    | .error message => message
  | .list _ => invalidType "sequence" expected
  | .map _ => invalidType "map" expected

/-! ## Decoders -/

/-- The content of anchored nodes by number. -/
abbrev Anchored := List (Nat × Content)

/-- A step of decoding, which looks anchors up. -/
abbrev Decoding := ReaderT Anchored (Except Failure)

/-- Takes a value of a type out of the node at a path. -/
abbrev Decoder (α : Type) := Path → Node → Decoding α

/-- The content of a node: an alias has that of its anchor. -/
def Node.resolve : Node → Decoding Content
  | .content c => return c
  | .alias anchor => do
    match (← read).lookup anchor with
    | some c => return c
    | none => throw .malformed

/-- The text of a key where the path names it. -/
def Node.keyText? : Node → Option String
  | .content (.scalar s) => some s.text
  | _ => none

namespace Decoder

variable {α β : Type}

/-- Fails at a path. -/
def fail (path : Path) (message : String) : Decoding α := throw (path.failure message)

/-- A value made of another one. -/
def map (f : α → β) (d : Decoder α) : Decoder β := fun path n => f <$> d path n

/-- The text of a scalar. -/
def textAs (expected : String) : Decoder String := fun path n => do
  match ← n.resolve with
  | .scalar s => return s.text
  | c => fail path (c.mismatch expected)

/-- A text. -/
def text : Decoder String := textAs "a string"

/-- A signed integer of 32 bits. -/
def int32 : Decoder Int32 := fun path n => do
  match ← n.resolve with
  | .scalar s =>
    match s.value with
    | .ok (.int i) =>
      if Int32.minValue.toInt ≤ i ∧ i ≤ Int32.maxValue.toInt then return .ofInt i
      else fail path (invalidValue (ScalarValue.int i).describe "i32")
    | .ok v => fail path (invalidType v.describe "i32")
    | .error message => fail path message
  | c => fail path (c.mismatch "i32")

/-- A value that may be absent. -/
def option (d : Decoder α) : Decoder (Option α) := fun path n => do
  let c ← n.resolve
  match c with
  | .scalar s =>
    match s.isNull with
    | .ok true => return none
    | .ok false => some <$> d path (.content c)
    | .error message => fail path.parent message
  | c => some <$> d path (.content c)

/-- The items of a list from number `i` on, behind those in `done`. -/
def items (d : Decoder α) (path : Path) (i : Nat) (done : Array α) :
    List Node → Decoding (Array α)
  | [] => return done
  | n :: rest => do items d path (i + 1) (done.push (← d (.item path i) n)) rest

/-- A list of any length. -/
def array (d : Decoder α) : Decoder (Array α) := fun path n => do
  match ← n.resolve with
  | .list ns => items d path 0 #[] ns
  | c => fail path (c.mismatch "a sequence")

/-- The entries of a map of texts, behind those in `done`. -/
def textEntries (path : Path) (done : List (String × String)) :
    List (Node × Node) → Decoding (List (String × String))
  | [] => return done.reverse
  | (key, value) :: rest => do
    let name ← text path key
    let s ← text (.field path key.keyText?) value
    textEntries path ((name, s) :: done) rest

/-- A map of texts. -/
def texts : Decoder (List (String × String)) := fun path n => do
  match ← n.resolve with
  | .map entries => textEntries path [] entries
  | c => fail path (c.mismatch "a map")

/-! ## Records -/

/-- Puts entries into the fields they name, past the names in `seen`. -/
def fields (shape : Shape Decoder α) (path : Path) (seen : List String) (record : α) :
    List (Node × Node) → Decoding (List String × α)
  | [] => return (seen, record)
  | (key, value) :: rest => do
    let name ← textAs "field identifier" path key
    match shape.field? name with
    | some field =>
      if field.name ∈ seen then fail path (duplicateField field.name)
      else
        let put ← field.store (.field path key.keyText?) value
        fields shape path (field.name :: seen) (put record) rest
    | none => fields shape path seen record rest

/-- Puts the items of a list into fields in order, from field number `i` on; gives how many items
are left. -/
def fieldsInOrder (shape : Shape Decoder α) (path : Path) (i : Nat) (record : α) :
    List (Field Decoder α) → List Node → Decoding (α × Nat)
  | [], rest => return (record, rest.length)
  | field :: later, n :: rest => do
    let put ← field.store (.item path i) n
    fieldsInOrder shape path (i + 1) (put record) later rest
  | field :: later, [] =>
    if field.optional then fieldsInOrder shape path (i + 1) record later []
    else fail path (invalidLength i shape.describeLength)

/-- The length of a list as a message expects it. -/
def describeLength (n : Nat) : String :=
  "sequence of " ++ Nat.repr n ++ (if n = 1 then " element" else " elements")

/-- A record of a shape. -/
def record (shape : Shape Decoder α) : Decoder α := fun path n => do
  match ← n.resolve with
  | .map entries =>
    let (seen, record) ← fields shape path [] shape.start entries
    match shape.missing? seen with
    | some missing => fail path (missingField missing.name)
    | none => return record
  | .list ns =>
    let (record, left) ← fieldsInOrder shape path 0 shape.start shape.fields ns
    if left = 0 then return record
    else fail path (invalidLength ns.length (describeLength shape.fields.length))
  | c => fail path (c.mismatch shape.describe)

end Decoder

/-- The decoders of YAML. -/
def format : Format Decoder :=
  { map := Decoder.map
    text := Decoder.text
    int32 := Decoder.int32
    option := Decoder.option
    array := Decoder.array
    texts := Decoder.texts
    record := Decoder.record }

/-- The value of a whole text. -/
def decode {α : Type} (decoder : Decoder α) (text : String) : Except Failure α :=
  match Root.ofText? text with
  | some root => decoder .root root.node root.anchored
  | none => .error .malformed

end BehaviorTree.Yaml
