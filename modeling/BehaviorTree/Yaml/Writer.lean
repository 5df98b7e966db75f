import BehaviorTree.Decimal.Shortest
import BehaviorTree.Document.Basic
import BehaviorTree.Json.Writer
import BehaviorTree.Yaml.Plain

/-! # Writing YAML

`Document.toYaml` writes a document in block style, two spaces a level; empty lists and records
are written `[]` and `{}`. A text is written plain unless it is `ambiguous`: it could be read as
something else then, and is written in double quotes. -/

namespace BehaviorTree

namespace Yaml

/-! ## Plain or quoted -/

/-- The characters that a plain text may not start with. -/
def leadMarks : List Char :=
  ['&', '*', '?', '|', '-', '<', '>', '=', '!', '%', '@', '.']

/-- The characters that a plain text may not hold. -/
def innerMarks : List Char :=
  [':', '\x7b', '\x7d', '[', ']', ',', '#', '`', '"', '\'', '\\', '\t', '\n', '\r']

/-- Whether a control character keeps a text from being plain. -/
def isQuotedControl (c : Char) : Bool :=
  let n := c.toNat
  n ≤ 0x06 || (0x0e ≤ n && n ≤ 0x1a) || (0x1c ≤ n && n ≤ 0x1f)

/-- The words that YAML readers take for truth values or null. -/
def reservedWords : List String :=
  ["yes", "Yes", "YES", "no", "No", "NO", "True", "TRUE", "true", "False", "FALSE", "false",
    "on", "On", "ON", "off", "Off", "OFF", "null", "Null", "NULL", "~"]

/-- Whether a text reads as a signed integer of 64 bits. -/
def readsAsInt (s : List Char) : Bool :=
  match decimalInt? s with
  | some n => Int64.minValue.toInt ≤ n && n ≤ Int64.maxValue.toInt
  | none => false

/-- Whether a plain text could be read as something else. -/
def ambiguous (s : String) : Bool :=
  let cs := s.toList
  match cs with
  | [] => true
  | first :: _ =>
    first = ' ' || cs.getLast? = some ' ' || leadMarks.contains first
      || ['0', 'x'].isPrefixOf cs
      || cs.any (fun c => innerMarks.contains c || isQuotedControl c)
      || reservedWords.contains s || readsAsInt cs || (decimalFloat? cs).isSome

/-- One character of a quoted text. -/
def quotedChar (c : Char) : String := if c = '\x7f' then "\\u007f" else Json.escaped c

/-- Adds a text to what is written. -/
def writeText (out : String) (s : String) : String :=
  if ambiguous s then s.foldl (fun out c => out ++ quotedChar c) (out ++ "\"") ++ "\""
  else out ++ s

end Yaml

namespace Document

open Yaml

/-- Whether a document has a block of its own below the line it starts on. -/
def isBlock : Document → Bool
  | list (_ :: _) | record (_ :: _) => true
  | _ => false

/-- Starts a line at a level. -/
def yamlLine (out : String) (level : Nat) : String :=
  (List.replicate level "  ").foldl (· ++ ·) (out ++ "\n")

/-- What stands between a field's name and its value: a block starts on a line of its own. -/
def yamlGap (level : Nat) (out : String) (value : Document) : String :=
  if value.isBlock then yamlLine (out ++ ":") (level + 1) else out ++ ": "

mutual

/-- Adds a document whose block, if it has one, is at a level and starts where the text ends. -/
def writeYaml (level : Nat) (out : String) : Document → String
  | null => out ++ "~"
  | bool value => out ++ (if value then "true" else "false")
  | int value => out ++ toString value
  | float value => out ++ Json.number value
  | text value => writeText out value
  | list [] => out ++ "[]"
  | list (item :: rest) =>
    writeYamlItems level (writeYaml (level + 1) (out ++ "- ") item) rest
  | record [] => out ++ "\x7b\x7d"
  | record ((name, value) :: rest) =>
    writeYamlFields level
      (writeYaml (level + 1) (yamlGap level (writeText out name) value) value) rest

/-- Adds further items of a list, each on a line of its own. -/
def writeYamlItems (level : Nat) (out : String) : List Document → String
  | [] => out
  | item :: rest =>
    writeYamlItems level (writeYaml (level + 1) (yamlLine out level ++ "- ") item) rest

/-- Adds further fields of a record, each on a line of its own. -/
def writeYamlFields (level : Nat) (out : String) : List (String × Document) → String
  | [] => out
  | (name, value) :: rest =>
    writeYamlFields level
      (writeYaml (level + 1) (yamlGap level (writeText (yamlLine out level) name) value) value)
      rest

end

/-- A document as one YAML text. -/
def toYaml (d : Document) : String := writeYaml 0 "---\n" d ++ "\n"

end Document

end BehaviorTree
