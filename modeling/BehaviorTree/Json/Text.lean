import BehaviorTree.Json.Value
import BehaviorTree.Text.Digit

/-! # Texts in JSON

A text is taken in as pieces: characters, and escapes of UTF-16 units. Taking in finds where the
text ends and refuses controls and unknown escapes; putting the units together is a step of its
own, `assemble`, because a skipped text may hold half of a surrogate pair and a used one may not. -/

namespace BehaviorTree.Json

open Text (natOfDigits?)

/-- A piece of a text. -/
inductive Piece
  | char (value : Char)
  | unit (value : Nat)
deriving DecidableEq

/-- The value of four hexadecimal digits. -/
def hex4? (a b c d : Char) : Option Nat := natOfDigits? 16 [a, b, c, d]

/-- The character that a letter behind a backslash stands for. -/
def shortEscape? : Char → Option Char
  | '"' => some '"'
  | '\\' => some '\\'
  | '/' => some '/'
  | 'b' => some '\x08'
  | 'f' => some '\x0c'
  | 'n' => some '\n'
  | 'r' => some '\r'
  | 't' => some '\t'
  | _ => none

/-- How many bytes a text takes. -/
def byteCount (s : List Char) : Nat := s.foldr (fun c n => c.utf8Size + n) 0

/-- The pieces of a text whose opening quote is taken, behind those in `taken` (last first), with
the rest behind the closing quote. Fewer than four bytes behind the mark of a unit are too few. -/
def takePieces (taken : List Piece) : List Char → List Piece × Except Fault (List Char)
  | [] => (taken.reverse, .error .truncated)
  | '"' :: rest => (taken.reverse, .ok rest)
  | ['\\'] => (taken.reverse, .error .truncated)
  | '\\' :: 'u' :: a :: b :: c :: d :: rest =>
    match hex4? a b c d with
    | some n => takePieces (.unit n :: taken) rest
    | none => (taken.reverse, .error .malformed)
  | '\\' :: 'u' :: rest =>
    (taken.reverse, .error (if byteCount rest < 4 then .truncated else .malformed))
  | '\\' :: c :: rest =>
    match shortEscape? c with
    | some e => takePieces (.char e :: taken) rest
    | none => (taken.reverse, .error .malformed)
  | c :: rest =>
    if c.toNat < 0x20 then (taken.reverse, .error .malformed)
    else takePieces (.char c :: taken) rest

/-- Whether a unit is the first of a surrogate pair. -/
def isLeading (n : Nat) : Bool := 0xD800 ≤ n && n ≤ 0xDBFF

/-- Whether a unit is the second of a surrogate pair. -/
def isTrailing (n : Nat) : Bool := 0xDC00 ≤ n && n ≤ 0xDFFF

/-- The character of a surrogate pair. -/
def pairChar (leading trailing : Nat) : Char :=
  Char.ofNat (0x10000 + (leading - 0xD800) * 0x400 + (trailing - 0xDC00))

/-- The characters of pieces, behind those in `done` (last first). `ending` is the fault that
ended the pieces, if they were not closed. -/
def assemble (ending : Option Fault) (done : List Char) : List Piece → Except Fault (List Char)
  | [] =>
    match ending with
    | none => .ok done.reverse
    | some f => .error f
  | .char c :: rest => assemble ending (c :: done) rest
  | .unit n :: rest =>
    if isTrailing n then .error .malformed
    else if isLeading n then
      match rest with
      | [] => .error (ending.getD .malformed)
      | .unit m :: rest =>
        if isTrailing m then assemble ending (pairChar n m :: done) rest else .error .malformed
      | .char _ :: _ => .error .malformed
    else assemble ending (Char.ofNat n :: done) rest

/-- The text of pieces. -/
def textOf (ending : Option Fault) (pieces : List Piece) : ReadText :=
  (assemble ending [] pieces).map String.ofList

end BehaviorTree.Json
