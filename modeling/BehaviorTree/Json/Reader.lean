import BehaviorTree.Decimal.Scientific
import BehaviorTree.Json.Text

/-! # Reading JSON

`Json.read` gives the value tree of a text as far as it can be read, and what follows the value.
The functions take a bound for their depth and length; `read` gives one that no text exceeds,
since every second step takes a character. -/

namespace BehaviorTree.Json

open Decimal (spanDigits spanSign)

/-- The blanks of JSON. -/
def isBlank (c : Char) : Bool := c = ' ' || c = '\n' || c = '\t' || c = '\r'

/-- The text after its leading blanks. -/
def skipBlanks (s : List Char) : List Char := s.dropWhile isBlank

/-- A value with the rest of the text, or without where reading stopped in it. -/
abbrev Progress := Value × Option (List Char)

/-- Reading stops at a fault. -/
def stop (f : Fault) : Progress := (.broken f f, none)

/-- Reading stops at a fault in a word or a number. -/
def stopIn (used skipped : Fault) : Progress := (.cut used skipped, none)

/-- Takes the rest of a word whose first letter is taken. -/
def takeWord (value : Value) : List Char → List Char → Progress
  | [], s => (value, some s)
  | _ :: _, [] => stopIn .truncated .truncated
  | w :: word, c :: s =>
    if c = w then takeWord value word s else stopIn .malformed .malformed

/-- A text whose opening quote is taken. -/
def readText (s : List Char) : Progress :=
  match takePieces [] s with
  | (pieces, .ok rest) => (.text (textOf none pieces), some rest)
  | (pieces, .error f) =>
    match textOf (some f) pieces with
    | .error used => (.broken used f, none)
    | .ok _ => stop f

/-! ## Numbers -/

/-- Reading stops where a digit is needed: a skipped number does not tell the end of the text
from another character. -/
def stopAtDigit (rest : List Char) : Progress :=
  stopIn (if rest = [] then .truncated else .malformed) .malformed

/-- The exponent of a number, whose mark is taken. -/
def readExponent (n : Numeral) (s : List Char) : Progress :=
  let (negative, unsigned) := spanSign s
  let (digits, rest) := spanDigits unsigned
  if digits = [] then stopAtDigit rest
  else (.number { n with exponent := some (negative, digits) }, some rest)

/-- What may follow the digits of a number: an exponent. -/
def readAfterDigits (n : Numeral) : List Char → Progress
  | 'e' :: rest => readExponent n rest
  | 'E' :: rest => readExponent n rest
  | rest => (.number n, some rest)

/-- What may follow the whole part of a number: a point with digits, an exponent. -/
def readAfterWhole (n : Numeral) : List Char → Progress
  | '.' :: s =>
    let (digits, rest) := spanDigits s
    if digits = [] then stopAtDigit rest
    else readAfterDigits { n with fraction := digits } rest
  | rest => readAfterDigits n rest

/-- A number whose sign is taken. No digit follows a leading zero. -/
def readNumber (negative : Bool) (s : List Char) : Progress :=
  match spanDigits s with
  | ([], rest) => stopAtDigit rest
  | ('0' :: _ :: _, _) => stopIn .malformed .malformed
  | (digits, rest) => readAfterWhole { negative, whole := digits } rest

/-! ## Values -/

mutual

/-- A value at the front of a text. -/
def readValue : Nat → List Char → Progress
  | 0, _ => stop .malformed
  | fuel + 1, s =>
    match skipBlanks s with
    | [] => stop .truncated
    | 'n' :: rest => takeWord .null ['u', 'l', 'l'] rest
    | 't' :: rest => takeWord (.bool true) ['r', 'u', 'e'] rest
    | 'f' :: rest => takeWord (.bool false) ['a', 'l', 's', 'e'] rest
    | '"' :: rest => readText rest
    | '-' :: rest => readNumber true rest
    | '[' :: rest =>
      match skipBlanks rest with
      | [] => (.list [] (some .truncated), none)
      | ']' :: rest => (.list [] none, some rest)
      | rest => readItems fuel [] rest
    | '{' :: rest =>
      match skipBlanks rest with
      | [] => (.record [] (some .truncated), none)
      | '}' :: rest => (.record [] none, some rest)
      | '"' :: rest => readFields fuel [] rest
      | _ => (.record [] (some .malformed), none)
    | c :: rest => if c.isDigit then readNumber false (c :: rest) else stop .malformed

/-- The items of a list from the next one on, behind those in `done` (last first). -/
def readItems : Nat → List Value → List Char → Progress
  | 0, done, _ => (.list done.reverse (some .malformed), none)
  | fuel + 1, done, s =>
    match readValue fuel s with
    | (item, none) => (.list (item :: done).reverse (some .malformed), none)
    | (item, some rest) =>
      match skipBlanks rest with
      | [] => (.list (item :: done).reverse (some .truncated), none)
      | ']' :: rest => (.list (item :: done).reverse none, some rest)
      | ',' :: rest =>
        match skipBlanks rest with
        | ']' :: _ =>
          (.list (.broken .malformed .malformed :: item :: done).reverse (some .malformed), none)
        | rest => readItems fuel (item :: done) rest
      | _ => (.list (item :: done).reverse (some .malformed), none)

/-- The fields of a record from the next one on, whose opening quote is taken, behind those in
`done` (last first). -/
def readFields : Nat → List (ReadText × Value) → List Char → Progress
  | 0, done, _ => (.record done.reverse (some .malformed), none)
  | fuel + 1, done, s =>
    let stopWith (key : ReadText) (value : Value) : Progress :=
      (.record ((key, value) :: done).reverse (some .malformed), none)
    match takePieces [] s with
    | (pieces, .error f) => stopWith (textOf (some f) pieces) (.broken f f)
    | (pieces, .ok rest) =>
      let key := textOf none pieces
      match skipBlanks rest with
      | [] => stopWith key (.broken .truncated .truncated)
      | ':' :: rest =>
        match readValue fuel rest with
        | (value, none) => stopWith key value
        | (value, some rest) =>
          match skipBlanks rest with
          | [] => (.record ((key, value) :: done).reverse (some .truncated), none)
          | '}' :: rest => (.record ((key, value) :: done).reverse none, some rest)
          | ',' :: rest =>
            match skipBlanks rest with
            | '"' :: rest => readFields fuel ((key, value) :: done) rest
            | rest =>
              let f : Fault := if rest = [] then .truncated else .malformed
              (.record ((.error f, .broken f f) :: (key, value) :: done).reverse
                (some .malformed), none)
          | _ => (.record ((key, value) :: done).reverse (some .malformed), none)
      | _ => stopWith key (.broken .malformed .malformed)

end

/-- The value at the front of a text, and the rest. -/
def read (text : String) : Progress :=
  let s := text.toList
  readValue (2 * s.length + 2) s

end BehaviorTree.Json
