/-! # Places in a YAML text

A `Cursor` is a place in a text: how far it is from the start, in which line and column, and the
text from there on. Indentation is measured in columns, so all reading goes through cursors. -/

namespace BehaviorTree.Yaml

/-! ## Classes of characters -/

/-- A space or a tab. -/
def isBlank (c : Char) : Bool := c = ' ' || c = '\t'

/-- A line feed or a carriage return. -/
def isBreak (c : Char) : Bool := c = '\n' || c = '\r'

/-- A blank or a line break. -/
def isWhite (c : Char) : Bool := isBlank c || isBreak c

/-- The characters that set off flow collections and their items. -/
def isFlow (c : Char) : Bool := c = ',' || c = '[' || c = ']' || c = '\x7b' || c = '\x7d'

/-- The characters of names. -/
def isWord (c : Char) : Bool := c.isAlphanum || c = '_' || c = '-'

/-! ## Positions -/

/-- Where a character stands. -/
structure Position where
  index : Nat := 0
  line : Nat := 0
  column : Nat := 0

/-- The position behind a character. Lines end at line feeds: a carriage return alone is a column
like any other. -/
def Position.after (p : Position) (c : Char) : Position :=
  if c = '\n' then ⟨p.index + 1, p.line + 1, 0⟩ else ⟨p.index + 1, p.line, p.column + 1⟩

/-- A position with the text from there on. -/
structure Cursor where
  position : Position := {}
  rest : List Char

namespace Cursor

/-- The column of a cursor. -/
def column (c : Cursor) : Nat := c.position.column

/-- The cursor behind the next `n` characters. -/
def skip (n : Nat) (c : Cursor) : Cursor :=
  ⟨(c.rest.take n).foldl Position.after c.position, c.rest.drop n⟩

/-- The cursor behind the next character. -/
def next (c : Cursor) : Cursor := c.skip 1

/-- The longest row of characters of a class, and the cursor behind it. -/
def takeWhile (p : Char → Bool) (c : Cursor) : List Char × Cursor :=
  let run := c.rest.takeWhile p
  (run, c.skip run.length)

/-- The cursor behind the longest row of characters of a class. -/
def dropWhile (p : Char → Bool) (c : Cursor) : Cursor := (c.takeWhile p).2

/-- The cursor behind a line break, if one comes next. A carriage return with a line feed is one
line break. -/
def skipBreak (c : Cursor) : Cursor :=
  match c.rest with
  | '\r' :: '\n' :: _ => c.skip 2
  | ch :: _ => if isBreak ch then c.next else c
  | [] => c

/-- The cursor behind a line that may hold no more than a comment. -/
def finishLine? (c : Cursor) : Option Cursor :=
  let c := c.dropWhile isBlank
  let c := if c.rest.head? = some '#' then c.dropWhile (!isBreak ·) else c
  match c.rest with
  | ch :: _ => if isBreak ch then some c.skipBreak else none
  | [] => some c

end Cursor

/-- Whether a word may end before a text: white or nothing follows. -/
def endsWord : List Char → Bool
  | [] => true
  | c :: _ => isWhite c

/-- Whether a text starts with a word. -/
def startsWithWord (word s : List Char) : Bool :=
  word.isPrefixOf s && endsWord (s.drop word.length)

/-- Whether a line that marks the start or the end of a document comes next. -/
def Cursor.atDocumentMark (c : Cursor) : Bool :=
  c.column = 0
    && (startsWithWord ['-', '-', '-'] c.rest || startsWithWord ['.', '.', '.'] c.rest)

end BehaviorTree.Yaml
