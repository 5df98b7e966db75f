import BehaviorTree.Decimal.Shortest
import BehaviorTree.Document.Basic

/-! # Writing JSON

`Document.toJson` writes a document on one line without blanks, `Document.toJsonPretty` one item
or field a line, two spaces a level. Numbers are written as their shortest decimal; infinities
and NaN have no JSON text and are written as `null`. -/

namespace BehaviorTree

namespace Json

/-- Numbers are written plainly from a millionth up to ten billions of billions, short of it by
six digits: decimal exponents -6 to 12. -/
def numberLayout : Decimal.Layout := ⟨fun lead => -6 ≤ lead && lead ≤ 12, .toEven⟩

/-- A single-precision number. -/
def number (x : Float32) : String :=
  (Decimal.binary32.write? numberLayout x.toBits.toNat).getD "null"

/-- A number below 256 in two hexadecimal digits. -/
def hexByte (n : Nat) : String :=
  String.ofList [Nat.digitChar (n / 16), Nat.digitChar (n % 16)]

/-- One character of a text: quotes, backslashes and controls are escaped. -/
def escaped (c : Char) : String :=
  match c with
  | '"' => "\\\""
  | '\\' => "\\\\"
  | '\x08' => "\\b"
  | '\t' => "\\t"
  | '\n' => "\\n"
  | '\x0c' => "\\f"
  | '\r' => "\\r"
  | c => if c.toNat < 0x20 then "\\u00" ++ hexByte c.toNat else c.toString

/-- Adds a text in quotes to what is written. -/
def writeText (out : String) (s : String) : String :=
  s.foldl (fun out c => out ++ escaped c) (out ++ "\"") ++ "\""

end Json

namespace Document

open Json

mutual

/-- Adds a document to what is written, without blanks. -/
def writeJson (out : String) : Document → String
  | null => out ++ "null"
  | bool value => out ++ (if value then "true" else "false")
  | int value => out ++ toString value
  | float value => out ++ Json.number value
  | text value => writeText out value
  | list items => writeJsonItems (out ++ "[") true items ++ "]"
  | record fields => writeJsonFields (out ++ "\x7b") true fields ++ "\x7d"

/-- Adds the items of a list, with commas between them. -/
def writeJsonItems (out : String) (first : Bool) : List Document → String
  | [] => out
  | item :: rest =>
    writeJsonItems (writeJson (if first then out else out ++ ",") item) false rest

/-- Adds the fields of a record, with commas between them. -/
def writeJsonFields (out : String) (first : Bool) : List (String × Document) → String
  | [] => out
  | (name, value) :: rest =>
    writeJsonFields
      (writeJson (writeText (if first then out else out ++ ",") name ++ ":") value) false rest

end

/-- A document on one line. -/
def toJson (d : Document) : String := writeJson "" d

/-- Starts a line at a level. -/
def newLine (out : String) (level : Nat) : String :=
  (List.replicate level "  ").foldl (· ++ ·) (out ++ "\n")

mutual

/-- Adds a document at a level to what is written; empty lists and records stay on the line. -/
def writePretty (level : Nat) (out : String) : Document → String
  | null => out ++ "null"
  | bool value => out ++ (if value then "true" else "false")
  | int value => out ++ toString value
  | float value => out ++ Json.number value
  | text value => writeText out value
  | list [] => out ++ "[]"
  | list (item :: rest) =>
    newLine
      (writePrettyItems (level + 1)
        (writePretty (level + 1) (newLine (out ++ "[") (level + 1)) item) rest)
      level ++ "]"
  | record [] => out ++ "\x7b\x7d"
  | record ((name, value) :: rest) =>
    newLine
      (writePrettyFields (level + 1)
        (writePretty (level + 1) (writeText (newLine (out ++ "\x7b") (level + 1)) name ++ ": ")
          value)
        rest)
      level ++ "\x7d"

/-- Adds further items of a list, each on a line of its own. -/
def writePrettyItems (level : Nat) (out : String) : List Document → String
  | [] => out
  | item :: rest =>
    writePrettyItems level (writePretty level (newLine (out ++ ",") level) item) rest

/-- Adds further fields of a record, each on a line of its own. -/
def writePrettyFields (level : Nat) (out : String) : List (String × Document) → String
  | [] => out
  | (name, value) :: rest =>
    writePrettyFields level
      (writePretty level (writeText (newLine (out ++ ",") level) name ++ ": ") value) rest

end

/-- A document with one item or field a line. -/
def toJsonPretty (d : Document) : String := writePretty 0 "" d

end Document

end BehaviorTree
