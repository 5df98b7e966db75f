import BehaviorTree.Text.Digit
import BehaviorTree.Yaml.Cursor

/-! # Plain and quoted scalars

Both kinds of scalar may run over several lines. What lies between two pieces of one is a `Gap`:
blanks in a line stand for themselves, and line breaks are folded. The readers take a bound for
the number of pieces; the length of the text will do, as every piece takes a character.

A text that is not well formed gives `none`. -/

namespace BehaviorTree.Yaml

/-! ## Gaps -/

/-- What lies between two pieces of a scalar. -/
inductive Gap
  /-- Blanks in a line. -/
  | blanks (text : List Char)
  /-- A line break, and some empty lines. -/
  | lines (empty : Nat)
  /-- A line break behind a backslash, and some empty lines. -/
  | joined (empty : Nat)

namespace Gap

/-- The text that a gap stands for: a single line break is folded to a space. -/
def text : Gap → List Char
  | blanks s => s
  | lines 0 => [' ']
  | lines n => List.replicate n '\n'
  | joined n => List.replicate n '\n'

/-- Whether a gap goes over the end of a line. -/
def isBroken : Gap → Bool
  | blanks _ => false
  | _ => true

/-- A gap and a blank behind it: blanks around line breaks do not count. -/
def addBlank (c : Char) : Gap → Gap
  | blanks s => blanks (s ++ [c])
  | g => g

/-- A gap and a line break behind it. -/
def addBreak : Gap → Gap
  | blanks _ => lines 0
  | lines n => lines (n + 1)
  | joined n => joined (n + 1)

end Gap

/-- The gap up to the next piece, behind what is taken of it. The indentation of further lines,
up to the column `margin`, may hold no tabs. -/
def takeGap (margin : Nat) (gap : Gap) (p : Position) : List Char → Option (Gap × Cursor)
  | '\r' :: '\n' :: rest => takeGap margin gap.addBreak ((p.after '\r').after '\n') rest
  | c :: rest =>
    if isBreak c then takeGap margin gap.addBreak (p.after c) rest
    else if isBlank c then
      if c = '\t' ∧ gap.isBroken ∧ p.column < margin then none
      else takeGap margin (gap.addBlank c) (p.after c) rest
    else some (gap, ⟨p, c :: rest⟩)
  | [] => some (gap, ⟨p, []⟩)

/-! ## Plain scalars -/

/-- Whether a character ends a plain scalar: a colon before the end of a word does, and what sets
off items does in a flow collection. -/
def endsPlain (inFlow : Bool) (c : Char) (rest : List Char) : Bool :=
  c = ':' && (endsWord rest || inFlow && rest.head?.any isFlow) || inFlow && isFlow c

/-- The piece of a plain scalar at the front of a text. -/
def plainPiece (inFlow : Bool) : List Char → List Char
  | [] => []
  | c :: rest => if isWhite c || endsPlain inFlow c rest then [] else c :: plainPiece inFlow rest

/-- A plain scalar: its text, the gap behind it and where that ends. -/
structure PlainScalar where
  text : String
  gap : Gap
  cursor : Cursor

/-- Reads a plain scalar on, from a piece that would follow a gap. A comment ends it, a mark of
the document, and outside of flow collections a line that starts left of the margin. -/
def readPlain (inFlow : Bool) (margin : Nat) : Nat → PlainScalar → Option PlainScalar
  | 0, s => some s
  | fuel + 1, s =>
    if s.cursor.atDocumentMark || s.cursor.rest.head? = some '#' then some s
    else
      let piece := plainPiece inFlow s.cursor.rest
      let s : PlainScalar :=
        if piece = [] then s
        else
          { text := s.text ++ String.ofList (s.gap.text ++ piece)
            gap := .blanks []
            cursor := s.cursor.skip piece.length }
      if s.cursor.rest.head?.any isWhite then do
        let (gap, cursor) ← takeGap margin s.gap s.cursor.position s.cursor.rest
        let s := { s with gap, cursor }
        if !inFlow && cursor.column < margin then some s
        else readPlain inFlow margin fuel s
      else some s

/-- The plain scalar at a cursor. -/
def Cursor.plainScalar (bound : Nat) (inFlow : Bool) (margin : Nat) (c : Cursor) :
    Option PlainScalar :=
  readPlain inFlow margin bound ⟨"", .blanks [], c⟩

/-! ## Quoted scalars -/

/-- The character with a hexadecimal number of so many digits. -/
def numberedChar? (digits : Nat) (s : List Char) : Option Char :=
  let number := s.take digits
  if number.length = digits then do
    let n ← Text.natOfDigits? 16 number
    if n.isValidChar then some (Char.ofNat n) else none
  else none

/-- The characters that a single one behind a backslash stands for. -/
def shortEscapes : List (Char × Char) :=
  [ ('0', '\x00'), ('a', '\x07'), ('b', '\x08'), ('t', '\t'), ('\t', '\t'), ('n', '\n')
  , ('v', '\x0b'), ('f', '\x0c'), ('r', '\r'), ('e', '\x1b'), (' ', ' '), ('"', '"')
  , ('\'', '\''), ('\\', '\\'), ('N', '\u0085'), ('_', '\u00a0'), ('L', '\u2028')
  , ('P', '\u2029') ]

/-- The character that the text behind a backslash stands for, and how much of the text. -/
def escaped? : List Char → Option (Char × Nat)
  | [] => none
  | 'x' :: rest => (numberedChar? 2 rest).map (·, 3)
  | 'u' :: rest => (numberedChar? 4 rest).map (·, 5)
  | 'U' :: rest => (numberedChar? 8 rest).map (·, 9)
  | c :: _ => (shortEscapes.lookup c).map (·, 1)

/-- The next piece of a scalar in single quotes, with the cursor behind it, or none at its end. -/
def singlePiece (c : Cursor) : Char → List Char → Option (Option (List Char) × Cursor)
  | '\'', '\'' :: _ => some (some ['\''], c.skip 2)
  | '\'', _ => some (none, c.next)
  | ch, _ => some (some [ch], c.next)

/-- The next piece of a scalar in double quotes, with the cursor behind it, or none at its end. -/
def doublePiece (c : Cursor) : Char → List Char → Option (Option (List Char) × Cursor)
  | '"', _ => some (none, c.next)
  | '\\', rest =>
    if rest.head?.any isBreak then do
      let start := c.next.skipBreak
      let (gap, cursor) ← takeGap 0 (.joined 0) start.position start.rest
      some (some gap.text, cursor)
    else do
      let (ch, taken) ← escaped? rest
      some (some [ch], c.skip (taken + 1))
  | ch, _ => some (some [ch], c.next)

/-- Reads a quoted scalar on. A mark of the document may not stand in it. -/
def readQuoted (piece : Cursor → Char → List Char → Option (Option (List Char) × Cursor)) :
    Nat → String → Cursor → Option (String × Cursor)
  | 0, _, _ => none
  | fuel + 1, out, c =>
    if c.atDocumentMark then none
    else match c.rest with
      | [] => none
      | ch :: rest =>
        if isWhite ch then do
          let (gap, cursor) ← takeGap 0 (.blanks []) c.position c.rest
          readQuoted piece fuel (out ++ String.ofList gap.text) cursor
        else do
          match ← piece c ch rest with
          | (some s, cursor) => readQuoted piece fuel (out ++ String.ofList s) cursor
          | (none, cursor) => some (out, cursor)

/-- The scalar in single quotes at a cursor. -/
def Cursor.singleQuoted (bound : Nat) (c : Cursor) : Option (String × Cursor) :=
  readQuoted singlePiece bound "" c.next

/-- The scalar in double quotes at a cursor. -/
def Cursor.doubleQuoted (bound : Nat) (c : Cursor) : Option (String × Cursor) :=
  readQuoted doublePiece bound "" c.next

end BehaviorTree.Yaml
