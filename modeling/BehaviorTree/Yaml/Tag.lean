import BehaviorTree.Text.Digit
import BehaviorTree.Yaml.Cursor

/-! # Tags and directives

A tag names the type of a node: by a handle and a suffix, or by the whole name in angle brackets.
Directives are checked for their form and have no other effect, so handles stand for themselves.
Names of types may be no longer than a bound, which is never less than the length of the text.

A text that is not well formed gives `none`. -/

namespace BehaviorTree.Yaml

/-- The name of a type. -/
structure Tag where
  handle : String
  suffix : String

/-! ## Names of types -/

/-- The characters of names of types, `%` apart. -/
def isTagChar (c : Char) : Bool :=
  isWord c || [';', '/', '?', ':', '@', '&', '=', '+', '$', ',', '.', '!', '~', '*', '\'', '(',
    ')', '[', ']'].contains c

/-- How many octets a character takes, by its first octet. -/
def octetCount? (first : Nat) : Option Nat :=
  if first < 0x80 then some 1
  else if 0xc0 ≤ first ∧ first < 0xe0 then some 2
  else if 0xe0 ≤ first ∧ first < 0xf0 then some 3
  else if 0xf0 ≤ first ∧ first < 0xf8 then some 4
  else none

/-- An octet behind a percent sign. -/
def octet? (s : List Char) : Option Nat :=
  match s with
  | '%' :: high :: low :: _ => Text.natOfDigits? 16 [high, low]
  | _ => none

/-- The number that `count` further octets make up, behind those in `number`. -/
def furtherOctets? : Nat → Nat → Cursor → Option (Nat × Cursor)
  | 0, number, c => some (number, c)
  | count + 1, number, c => do
    let octet ← octet? c.rest
    if 0x80 ≤ octet ∧ octet < 0xc0 then
      furtherOctets? count (0x100 * number + octet) (c.skip 3)
    else none

/-- The character that octets behind percent signs stand for: the one whose number is the octets
in a row. -/
def percentChar? (c : Cursor) : Option (Char × Cursor) := do
  let first ← octet? c.rest
  let count ← octetCount? first
  let (number, c) ← furtherOctets? (count - 1) first (c.skip 3)
  if number.isValidChar then some (Char.ofNat number, c) else none

/-- Reads the name of a type on. -/
def readTagName : Nat → String → Cursor → Option (String × Cursor)
  | 0, out, c => some (out, c)
  | fuel + 1, out, c =>
    match c.rest with
    | '%' :: _ => do
      let (ch, c) ← percentChar? c
      readTagName fuel (out.push ch) c
    | ch :: _ => if isTagChar ch then readTagName fuel (out.push ch) c.next else some (out, c)
    | [] => some (out, c)

/-- The name of a type at a cursor; it may be empty. -/
def Cursor.tagName (bound : Nat) (c : Cursor) : Option (String × Cursor) := readTagName bound "" c

/-- The name of a type at a cursor; it may not be empty. -/
def Cursor.someTagName (bound : Nat) (c : Cursor) : Option (String × Cursor) :=
  (c.tagName bound).filter (·.1 ≠ "")

/-! ## Tags -/

/-- What a tag starts with: an exclamation mark, a word, and perhaps another mark. -/
def Cursor.tagHandle (c : Cursor) : Option (String × Cursor) :=
  match c.rest with
  | '!' :: _ =>
    let (word, c) := c.next.takeWhile isWord
    match c.rest with
    | '!' :: _ => some ("!" ++ String.ofList word ++ "!", c.next)
    | _ => some ("!" ++ String.ofList word, c)
  | _ => none

/-- The tag at a cursor, whatever follows it. A handle that is not closed is the start of the
suffix; a mark alone is the suffix of an empty handle. -/
def Cursor.openTag (bound : Nat) (c : Cursor) : Option (Tag × Cursor) :=
  match c.rest with
  | _ :: '<' :: _ => do
    let (name, c) ← (c.skip 2).someTagName bound
    if c.rest.head? = some '>' then some (⟨"", name⟩, c.next) else none
  | _ => do
    let (handle, c) ← c.tagHandle
    let word := handle.toList.drop 1
    if word.getLast? = some '!' then do
      let (suffix, c) ← c.someTagName bound
      some (⟨handle, suffix⟩, c)
    else do
      let (more, c) ← c.tagName bound
      let suffix := String.ofList word ++ more
      some (if suffix = "" then ⟨"", "!"⟩ else ⟨"!", suffix⟩, c)

/-- The tag at a cursor: a word of its own. -/
def Cursor.tag (bound : Nat) (c : Cursor) : Option (Tag × Cursor) :=
  (c.openTag bound).filter fun (_, c) => endsWord c.rest

/-! ## Directives -/

/-- A number of a version: up to nine digits. -/
def Cursor.versionNumber (c : Cursor) : Option Cursor :=
  let (digits, c) := c.takeWhile Char.isDigit
  if digits = [] ∨ 9 < digits.length then none else some c

/-- The version of a directive. -/
def Cursor.version (c : Cursor) : Option Cursor := do
  let c ← (c.dropWhile isBlank).versionNumber
  if c.rest.head? = some '.' then c.next.versionNumber else none

/-- The handle and the meaning that a directive gives it. -/
def Cursor.tagMeaning (bound : Nat) (c : Cursor) : Option Cursor := do
  let (handle, c) ← (c.dropWhile isBlank).tagHandle
  if handle = "!" ∨ (handle.toList.drop 1).getLast?.any (· = '!') then do
    let (_, c) ← (c.dropWhile isBlank).someTagName bound
    if endsWord c.rest then some c else none
  else none

/-- The cursor behind the line of a directive. Unknown ones may say anything. -/
def Cursor.directive (bound : Nat) (c : Cursor) : Option Cursor := do
  let (name, c) := c.next.takeWhile isWord
  if name = [] ∨ !endsWord c.rest then none
  else do
    let c ←
      match String.ofList name with
      | "YAML" => c.version
      | "TAG" => c.tagMeaning bound
      | _ => some (c.dropWhile (!isBreak ·))
    c.finishLine?

end BehaviorTree.Yaml
