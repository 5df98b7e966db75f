import BehaviorTree.Decimal.Scientific
import BehaviorTree.Memory.Blackboard

/-! # Literals

Parameters are short texts; these functions read one as an integer, a number, a truth value or a
vector. Only spaces and tabs are blanks. A reader takes a literal off the front of a text and
gives the rest; `whole` asks that nothing but blanks surrounds it. A text that is no literal
reads as `none`, and the caller falls back to a default of its own.

* integers: an optional sign and decimal digits, in the range of 32 bits;
* numbers: an optional sign, digits with an optional point (a digit on one side at least), an
  optional exponent, rounded to the nearest binary32 value; or `nan` or `inf` in any case;
* truth values: `true` or `1`, `false` or `0`, in any case;
* vectors: three numbers with commas between them, a parenthesis allowed on either side. -/

namespace BehaviorTree.Literal

open Decimal

/-- The blanks of literals: space and tab. -/
def isBlank (c : Char) : Bool := c = ' ' || c = '\t'

/-- The text after its leading blanks. -/
def skipBlanks (s : List Char) : List Char := s.dropWhile isBlank

/-- Reads a whole text as one literal between blanks. -/
def whole {α : Type} (reader : Reader α) (text : String) : Option α :=
  match reader (skipBlanks text.toList) with
  | some (value, rest) => if skipBlanks rest = [] then some value else none
  | none => none

/-! ## Integers -/

/-- An integer of 32 bits. -/
def int : Reader Int32 := fun s =>
  let (negative, unsigned) := spanSign s
  let (digits, rest) := spanDigits unsigned
  let n := signed negative (natOfDigits digits)
  if digits = [] then none
  else if Int32.minValue.toInt ≤ n ∧ n ≤ Int32.maxValue.toInt then some (Int32.ofInt n, rest)
  else none

/-- The integer that a text denotes. -/
def int? (text : String) : Option Int32 := whole int text

/-! ## Numbers -/

/-- `nan` or `inf` in any case. -/
def special : Reader Float32 := fun s =>
  match dropWord? ['n', 'a', 'n'] s with
  | some rest => some (0 / 0, rest)
  | none => (dropWord? ['i', 'n', 'f'] s).map ((1 / 0, ·))

/-- A number; a mantissa whose exponent mark has no digits after it is none. -/
def number : Reader Float32 := fun s =>
  let (negative, unsigned) := spanSign s
  match mantissa unsigned with
  | some (m, afterMantissa) =>
    match exponent afterMantissa with
    | some (e, rest) =>
      let magnitude := (Scientific.mk m.mantissa (m.exponent + e)).toFloat32
      some (if negative then -magnitude else magnitude, rest)
    | none => none
  | none => special s

/-- The number that a text denotes. -/
def number? (text : String) : Option Float32 := whole number text

/-! ## Truth values -/

/-- The words for truth values, in the order in which they are tried. -/
def boolWords : List (List Char × Bool) :=
  [(['t', 'r', 'u', 'e'], true), (['1'], true), (['f', 'a', 'l', 's', 'e'], false), (['0'], false)]

/-- A truth value. -/
def bool : Reader Bool := fun s =>
  boolWords.findSome? fun (word, value) => (dropWord? word s).map ((value, ·))

/-- The truth value that a text denotes. -/
def bool? (text : String) : Option Bool := whole bool text

/-! ## Vectors -/

/-- The text after a comma with blanks around it. -/
def dropComma? (s : List Char) : Option (List Char) :=
  match skipBlanks s with
  | ',' :: rest => some (skipBlanks rest)
  | _ => none

/-- The text after an opening parenthesis and blanks, if it has one. -/
def dropOpen : List Char → List Char
  | '(' :: rest => skipBlanks rest
  | s => s

/-- The text after blanks and a closing parenthesis, if it has one. -/
def dropClose (s : List Char) : List Char :=
  match skipBlanks s with
  | ')' :: rest => rest
  | _ => s

/-- Three numbers; each parenthesis may be missing. -/
def vec3 : Reader Vec3 := fun s => do
  let (x, s) ← number (dropOpen s)
  let (y, s) ← number (← dropComma? s)
  let (z, s) ← number (← dropComma? s)
  pure (⟨x, y, z⟩, dropClose s)

/-- The vector that a text denotes. -/
def vec3? (text : String) : Option Vec3 := whole vec3 text

end BehaviorTree.Literal
