import BehaviorTree.Decimal.Shortest
import BehaviorTree.Document.Shape
import BehaviorTree.Json.Number
import BehaviorTree.Json.Reader
import BehaviorTree.Text.Quoted

/-! # Decoding JSON values

A `Decoder` takes a value of one type out of a value tree, or says why it cannot: the text fails
there (`Failure.fault`), or the value is none of the type (`Failure.data`). What comes first in
the text decides.

A record of a shape may be written with its fields in any order and with unknown ones, or as a
list of the fields' values in order; no field may come twice, and only optional ones may be
absent. -/

namespace BehaviorTree.Json

/-- Why a text gives no value of a type. -/
inductive Failure
  | fault (fault : Fault)
  | data (message : String)
deriving DecidableEq

/-- Takes a value of a type out of a value tree. -/
abbrev Decoder (α : Type) := Value → Except Failure α

/-- Fails for a fault in the text. -/
def orFault {α : Type} : Except Fault α → Except Failure α
  | .ok a => .ok a
  | .error f => .error (.fault f)

/-- Doubles in messages are written plainly for decimal exponents -5 to 15. -/
def messageLayout : Decimal.Layout := ⟨fun lead => -5 ≤ lead && lead ≤ 15, .toEven⟩

/-- A number as a message shows it. -/
def Number.describe : Number → String
  | nat n => "integer `" ++ toString n ++ "`"
  | negative n => "integer `" ++ toString n ++ "`"
  | double x =>
    "floating point `" ++ (Decimal.binary64.write? messageLayout x.toBits.toNat).getD "" ++ "`"

/-- A value as a message shows it. -/
def Value.describe : Value → Except Failure String
  | null => .ok "null"
  | bool true => .ok "boolean `true`"
  | bool false => .ok "boolean `false`"
  | number n => (orFault n.value).map (·.describe)
  | text s => (orFault s).map fun s => "string " ++ Text.quoted s
  | list _ _ => .ok "sequence"
  | record _ _ => .ok "map"
  | cut used _ | broken used _ => .error (.fault used)

namespace Decoder

variable {α : Type}

/-- Fails because a value has another type than the expected one. -/
def mismatch (expected : String) (v : Value) : Except Failure α := do
  let found ← v.describe
  .error (.data (invalidType found expected))

/-! ## Plain values -/

/-- A text. -/
def text : Decoder String
  | .text s => orFault s
  | v => mismatch "a string" v

/-- A truth value. -/
def bool : Decoder Bool
  | .bool b => .ok b
  | v => mismatch "a boolean" v

/-- Nothing. -/
def unit : Decoder Unit
  | .null => .ok ()
  | v => mismatch "unit" v

/-- An integer from `low` to `high`; the name of that range is for messages. -/
def integer (name : String) (low high : Int) : Decoder Int
  | .number n => do
    let value ← orFault n.value
    match value.toInt? with
    | some i =>
      if low ≤ i ∧ i ≤ high then .ok i
      else .error (.data (invalidValue value.describe name))
    | none => .error (.data (invalidType value.describe name))
  | v => mismatch name v

/-- A signed integer of 32 bits. -/
def int32 : Decoder Int32 := fun v =>
  (integer "i32" Int32.minValue.toInt Int32.maxValue.toInt v).map Int32.ofInt

/-- An unsigned integer of 64 bits. -/
def uint64 : Decoder UInt64 := fun v =>
  (integer "u64" 0 (UInt64.size - 1) v).map fun i => i.toNat.toUInt64

/-- An index of 64 bits. -/
def index : Decoder Nat := fun v => (integer "usize" 0 (UInt64.size - 1) v).map Int.toNat

/-- A single-precision number. -/
def float32 : Decoder Float32
  | .number n => (orFault n.value).map (·.toFloat32)
  | v => mismatch "f32" v

/-- A value that may be null. -/
def option (item : Decoder α) : Decoder (Option α)
  | .null => .ok none
  | v => (item v).map some

/-! ## Lists and maps -/

/-- All items of a list, behind those in `done`. -/
def items (item : Decoder α) (done : Array α) : List Value → Except Failure (Array α)
  | [] => .ok done
  | v :: rest => do items item (done.push (← item v)) rest

/-- A list of any length. -/
def array (item : Decoder α) : Decoder (Array α)
  | .list vs ending => do
    let done ← items item #[] vs
    orFault (endingResult ending)
    pure done
  | v => mismatch "a sequence" v

/-- A list of `n` items. -/
def vector (n : Nat) (item : Decoder α) : Decoder (Vector α n)
  | .list vs ending => do
    let done ← items item #[] (vs.take n)
    if n < vs.length then .error (.fault .malformed)
    else do
      orFault (endingResult ending)
      if h : done.size = n then pure ⟨done, h⟩
      else .error (.data (invalidLength done.size ("an array of length " ++ toString n)))
  | v => mismatch ("an array of length " ++ toString n) v

/-- The entries of a record with free names, behind those in `done`. -/
def entries (item : Decoder α) (done : List (String × α)) :
    List (ReadText × Value) → Except Failure (List (String × α))
  | [] => .ok done.reverse
  | (key, v) :: rest => do
    let key ← orFault key
    let a ← item v
    entries item ((key, a) :: done) rest

/-- A record with free names. -/
def map (item : Decoder α) : Decoder (List (String × α))
  | .record fields ending => do
    let done ← entries item [] fields
    orFault (endingResult ending)
    pure done
  | v => mismatch "a map" v

/-! ## Choices -/

/-- A choice between words, written as its word or as a record with the word over null. Values that
start like neither are not looked at. -/
def choice (words : List String) (ofWord? : String → Option α) : Decoder α :=
  let pick (word : String) : Except Failure α :=
    match ofWord? word with
    | some a => .ok a
    | none => .error (.data ("unknown variant `" ++ word ++ "`, expected one of "
        ++ ", ".intercalate (words.map fun w => "`" ++ w ++ "`")))
  fun
    | .text s => do pick (← orFault s)
    | .record [] ending =>
      .error (.fault (ending.getD .malformed))
    | .record ((key, v) :: rest) ending => do
      let a ← pick (← orFault key)
      unit v
      if rest.isEmpty then do
        orFault (endingResult ending)
        pure a
      else .error (.fault .malformed)
    | .broken used _ => .error (.fault used)
    | _ => .error (.fault .malformed)

end Decoder

/-! ## Records -/

namespace Decoder

variable {α : Type}

/-- Puts fields into a record in the order of the text, past the names in `seen`. -/
def fields (shape : Shape Decoder α) (seen : List String) (record : α) :
    List (ReadText × Value) → Except Failure (List String × α)
  | [] => .ok (seen, record)
  | (key, v) :: rest => do
    let key ← orFault key
    match shape.field? key with
    | some field =>
      if field.name ∈ seen then .error (.data (duplicateField field.name))
      else do
        let put ← field.store v
        fields shape (field.name :: seen) (put record) rest
    | none => do
      orFault v.skip
      fields shape seen record rest

/-- Puts the items of a list into fields in order, from field number `i` on. -/
def fieldsInOrder (shape : Shape Decoder α) (ending : Option Fault) (i : Nat) (record : α) :
    List (Field Decoder α) → List Value → Except Failure α
  | [], [] => do
    orFault (endingResult ending)
    pure record
  | [], _ :: _ => .error (.fault .malformed)
  | field :: later, v :: rest => do
    let put ← field.store v
    fieldsInOrder shape ending (i + 1) (put record) later rest
  | field :: later, [] => do
    orFault (endingResult ending)
    if field.optional then fieldsInOrder shape ending (i + 1) record later []
    else .error (.data (invalidLength i shape.describeLength))

/-- A record of a shape. -/
def record (shape : Shape Decoder α) : Decoder α
  | .record vs ending => do
    let (seen, record) ← fields shape [] shape.start vs
    orFault (endingResult ending)
    match shape.missing? seen with
    | some missing => .error (.data (missingField missing.name))
    | none => pure record
  | .list vs ending => fieldsInOrder shape ending 0 shape.start shape.fields vs
  | v => mismatch shape.describe v

end Decoder

/-- The decoders of JSON. -/
def format : Format Decoder :=
  { map := fun f d v => (d v).map f
    text := Decoder.text
    int32 := Decoder.int32
    option := Decoder.option
    array := Decoder.array
    texts := Decoder.map Decoder.text
    record := Decoder.record }

/-- The value of a whole text: nothing but blanks may follow it. -/
def decode {α : Type} (decoder : Decoder α) (text : String) : Except Failure α :=
  let (value, rest) := read text
  do
    let a ← decoder value
    match rest with
    | some rest => if skipBlanks rest = [] then pure a else .error (.fault .malformed)
    | none => .error (.fault .malformed)

end BehaviorTree.Json
