import BehaviorTree.Decimal.Scientific
import BehaviorTree.Decimal.Shortest
import BehaviorTree.Text.Digit
import BehaviorTree.Text.Quoted

/-! # What plain scalars denote

A YAML scalar without quotes and tag is null, a truth value, an integer, a number, or else a text,
by its spelling. Integers are decimal or have a base mark; decimal ones may not lead with a zero,
and are kept up to 128 bits. -/

namespace BehaviorTree.Yaml

open Decimal
open Text (natOfDigits?)

/-- What a scalar denotes. Integers beyond 64 bits are `wide`. -/
inductive ScalarValue
  | null
  | bool (value : Bool)
  | int (value : Int)
  | wide (value : Int)
  | float (value : Float)
  | text (value : String)

/-! ## Numbers -/

/-- The text after a plus sign, if it has one. -/
def dropPlus : List Char → List Char
  | '+' :: rest => rest
  | s => s

/-- The letters that mark a base behind a zero. -/
def baseOfMark? : Char → Option Nat
  | 'x' => some 16
  | 'o' => some 8
  | 'b' => some 2
  | _ => none

/-- An integer with a base mark: an unsigned one may have a plus sign on either side of the mark,
a negative one has its sign in front. -/
def markedInt? (s : List Char) : Option Int :=
  match s with
  | '-' :: '0' :: mark :: rest => do
    let n ← natOfDigits? (← baseOfMark? mark) rest
    if Int64.minValue.toInt ≤ -n then some (-n) else none
  | s =>
    match dropPlus s with
    | '0' :: mark :: rest => do
      let n ← natOfDigits? (← baseOfMark? mark) (dropPlus rest)
      if n < UInt64.size then some n else none
    | _ => none

/-- A decimal integer with an optional sign. -/
def decimalInt? (s : List Char) : Option Int := do
  let (negative, digits) := spanSign s
  let n ← natOfDigits? 10 digits
  some (signed negative n)

/-- Whether a text is a row of digits that leads with a needless zero, sign apart. -/
def leadsWithZero (s : List Char) : Bool :=
  match (spanSign s).2 with
  | '0' :: rest => !rest.isEmpty && rest.all Char.isDigit
  | _ => false

/-- A number in decimal notation, or `inf`, `infinity` or `nan` in any case, with an optional
sign. -/
def decimalFloat? (s : List Char) : Option Float :=
  let (negative, unsigned) := spanSign s
  let magnitude? : Option Float :=
    if [['i', 'n', 'f'], ['i', 'n', 'f', 'i', 'n', 'i', 't', 'y']].any
        (dropWord? · unsigned = some []) then some (1 / 0)
    else if dropWord? ['n', 'a', 'n'] unsigned = some [] then some (0 / 0)
    else do
      let (m, afterMantissa) ← mantissa unsigned
      let (e, rest) ← exponent afterMantissa
      if rest = [] then some (Scientific.mk m.mantissa (m.exponent + e)).toFloat else none
  magnitude?.map fun x => if negative then -x else x

/-- The spellings of infinity, its sign apart. -/
def infinityWords : List String := [".inf", ".Inf", ".INF"]

/-- The spellings of what is no number. -/
def nanWords : List String := [".nan", ".NaN", ".NAN"]

/-- Infinity or NaN: any number of plus signs, or one minus sign, may lead infinity. -/
def specialFloat? (s : String) : Option Float :=
  if infinityWords.contains (String.ofList (s.toList.dropWhile (· = '+'))) then some (1 / 0)
  else if infinityWords.any (s = "-" ++ ·) then some (-(1 / 0))
  else if nanWords.contains s then some (0 / 0)
  else none

/-! ## Values -/

/-- The integer value of a size: up to 64 bits, up to 128 bits, or none. -/
def ScalarValue.ofInt? (n : Int) : Option ScalarValue :=
  if Int64.minValue.toInt ≤ n ∧ n < UInt64.size then some (.int n)
  else if -(twoTo 127 : Int) ≤ n ∧ n < twoTo 128 then some (.wide n)
  else none

/-- What a plain scalar denotes. -/
def ScalarValue.ofPlain (s : String) : ScalarValue :=
  let cs := s.toList
  if s = "~" ∨ s = "null" then .null
  else if s = "true" then .bool true
  else if s = "false" then .bool false
  else match markedInt? cs with
    | some n => .int n
    | none =>
      if leadsWithZero cs then .text s
      else match (decimalInt? cs).bind ofInt? with
        | some v => v
        | none =>
          match specialFloat? s with
          | some x => .float x
          | none =>
            match (decimalFloat? cs).filter Float.isFinite with
            | some x => .float x
            | none => .text s

/-- Numbers in messages are always written with a plain point. -/
def messageLayout : Decimal.Layout := ⟨fun _ => true, .up⟩

/-- A double as a message shows it. -/
def describeFloat (x : Float) : String :=
  match binary64.write? messageLayout x.toBits.toNat with
  | some s => s
  | none => if x.isNaN then "NaN" else if x < 0 then "-inf" else "inf"

/-- A text as a message shows it. -/
def describeText (s : String) : String := "string " ++ Text.quoted s

/-- A value as a message shows it. -/
def ScalarValue.describe : ScalarValue → String
  | null => "unit value"
  | bool b => "boolean `" ++ (if b then "true" else "false") ++ "`"
  | int n => "integer `" ++ toString n ++ "`"
  | wide n => "integer `" ++ toString n ++ "` as " ++ (if n < 0 then "i128" else "u128")
  | float x => "floating point `" ++ describeFloat x ++ "`"
  | text s => describeText s

end BehaviorTree.Yaml
