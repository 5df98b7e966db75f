/-! # Decimal texts

A decimal text is a row of digits with an optional point, a digit on one side of it at least, and
an optional exponent. The readers here take the parts of one off the front of a text; its value
is kept as an integer and a power of ten until a binary format is asked for. -/

namespace BehaviorTree.Decimal

/-- Takes a value off the front of a text and gives the rest. -/
abbrev Reader (α : Type) := List Char → Option (α × List Char)

/-- The leading decimal digits and the rest. -/
def spanDigits (s : List Char) : List Char × List Char :=
  (s.takeWhile Char.isDigit, s.dropWhile Char.isDigit)

/-- The value of a decimal digit. -/
def digitValue (c : Char) : Nat := c.toNat - '0'.toNat

/-- The number that decimal digits denote. -/
def natOfDigits (digits : List Char) : Nat :=
  digits.foldl (fun n c => 10 * n + digitValue c) 0

/-- Whether a minus sign leads the text, and the text after its sign if it has one. -/
def spanSign : List Char → Bool × List Char
  | '+' :: rest => (false, rest)
  | '-' :: rest => (true, rest)
  | s => (false, s)

/-- The integer of a magnitude with or without a minus sign. -/
def signed (negative : Bool) (magnitude : Nat) : Int :=
  if negative then -magnitude else magnitude

/-- The decimal `mantissa * 10 ^ exponent`. -/
structure Scientific where
  mantissa : Nat
  exponent : Int
deriving DecidableEq

namespace Scientific

/-- The single-precision number nearest to a decimal, ties to even, infinite beyond the range. -/
def toFloat32 (d : Scientific) : Float32 :=
  Float32.ofScientific d.mantissa (d.exponent < 0) d.exponent.natAbs

/-- The double-precision number nearest to a decimal. -/
def toFloat (d : Scientific) : Float :=
  Float.ofScientific d.mantissa (d.exponent < 0) d.exponent.natAbs

end Scientific

/-- Digits with an optional point; a digit is needed on one side of it. -/
def mantissa : Reader Scientific := fun s =>
  let (whole, afterWhole) := spanDigits s
  match afterWhole with
  | '.' :: afterPoint =>
    let (fraction, rest) := spanDigits afterPoint
    if whole = [] ∧ fraction = [] then none
    else some (⟨natOfDigits (whole ++ fraction), -fraction.length⟩, rest)
  | _ => if whole = [] then none else some (⟨natOfDigits whole, 0⟩, afterWhole)

/-- What follows a mantissa: no exponent, or a mark with digits after it. -/
def exponent : Reader Int
  | mark :: s =>
    if mark = 'e' ∨ mark = 'E' then
      let (negative, unsigned) := spanSign s
      let (digits, rest) := spanDigits unsigned
      if digits = [] then none else some (signed negative (natOfDigits digits), rest)
    else some (0, mark :: s)
  | [] => some (0, [])

/-- The rest of a text after a word in any case; the word is in lower case. -/
def dropWord? : List Char → List Char → Option (List Char)
  | [], s => some s
  | w :: word, c :: s => if c.toLower = w then dropWord? word s else none
  | _ :: _, [] => none

end BehaviorTree.Decimal
