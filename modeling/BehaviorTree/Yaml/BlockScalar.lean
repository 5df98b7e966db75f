import BehaviorTree.Yaml.Cursor

/-! # Block scalars

A block scalar is a header and the indented lines below it. Literal ones keep their line breaks;
folded ones join lines that start without a blank. The header says what becomes of the line
breaks at the end, and may set the indentation, else the first line that is not empty does. -/

namespace BehaviorTree.Yaml

/-- What becomes of the line breaks at the end of a block scalar. -/
inductive Chomping
  | strip
  | clip
  | keep
deriving DecidableEq

/-- The chomping that a mark asks for. -/
def Chomping.ofMark? : Char → Option Chomping
  | '+' => some keep
  | '-' => some strip
  | _ => none

/-- The chomping and the added indentation that a header asks for, in either order, and the
cursor behind them. The indentation may not be zero. -/
def blockHeader? (c : Cursor) : Option (Chomping × Option Nat × Cursor) :=
  let chomping (c : Cursor) : Option Chomping := c.rest.head?.bind Chomping.ofMark?
  let digit (c : Cursor) : Option Nat :=
    (c.rest.head?.filter Char.isDigit).map fun d => d.toNat - '0'.toNat
  match chomping c, digit c with
  | some how, _ =>
    match digit c.next with
    | some 0 => none
    | some n => some (how, some n, c.skip 2)
    | none => some (how, none, c.next)
  | none, some 0 => none
  | none, some n =>
    match chomping c.next with
    | some how => some (how, some n, c.skip 2)
    | none => some (.clip, some n, c.next)
  | none, none => some (.clip, none, c)

/-- Skips empty lines and the indentation of the next line, counting the lines behind `empty` and
keeping the greatest column. With no indentation known all spaces are skipped. No tab may stand
where indentation is due. -/
def skipEmptyLines (indent : Option Nat) (empty widest : Nat) (p : Position) :
    List Char → Option (Nat × Nat × Cursor)
  | [] => some (empty, max widest p.column, ⟨p, []⟩)
  | '\r' :: '\n' :: rest =>
    skipEmptyLines indent (empty + 1) (max widest p.column) ((p.after '\r').after '\n') rest
  | c :: rest =>
    let widest := max widest p.column
    let isDue := indent.all (p.column < ·)
    if isDue && c = ' ' then skipEmptyLines indent empty widest (p.after c) rest
    else if isDue && c = '\t' then none
    else if isBreak c then skipEmptyLines indent (empty + 1) widest (p.after c) rest
    else some (empty, widest, ⟨p, c :: rest⟩)

/-- The lines of a block scalar that are read: the text up to the last line, whether that line
starts with a blank, whether it is ended, and how many empty lines follow it. -/
structure BlockLines where
  text : String := ""
  blankLed : Bool := false
  ended : Bool := false
  empty : Nat := 0

/-- The text of line breaks. -/
def breaks (n : Nat) : String := String.ofList (List.replicate n '\n')

/-- What joins the next line to those before it. -/
def BlockLines.joint (folded : Bool) (lines : BlockLines) (nextBlankLed : Bool) : String :=
  if folded && lines.ended && !lines.blankLed && !nextBlankLed then
    (if lines.empty = 0 then " " else breaks lines.empty)
  else (if lines.ended then "\n" else "") ++ breaks lines.empty

/-- Reads lines of an indentation, behind those that are read. There may be no more of them than
the bound says. -/
def readBlockLines (folded : Bool) (indent : Nat) : Nat → BlockLines → Cursor →
    Option (BlockLines × Cursor)
  | 0, lines, c => some (lines, c)
  | fuel + 1, lines, c =>
    match c.rest with
    | [] => some (lines, c)
    | first :: _ =>
      if c.column = indent then
        let (line, afterLine) := c.takeWhile (!isBreak ·)
        let lines : BlockLines :=
          { text := lines.text ++ lines.joint folded (isBlank first) ++ String.ofList line
            blankLed := isBlank first }
        if afterLine.rest = [] then some (lines, afterLine)
        else do
          let start := afterLine.skipBreak
          let (empty, _, c) ← skipEmptyLines (some indent) 0 0 start.position start.rest
          readBlockLines folded indent fuel { lines with ended := true, empty } c
      else some (lines, c)

/-- The text of lines when the scalar ends with them. -/
def BlockLines.chomped (how : Chomping) (lines : BlockLines) : String :=
  lines.text ++ (if lines.ended && how ≠ .strip then "\n" else "")
    ++ (if how = .keep then breaks lines.empty else "")

/-- The block scalar whose mark is at a cursor, in a collection that is indented to the left of
the column `margin`. Its own indentation is at least the margin, and at least one. The bound is
for the number of lines. -/
def Cursor.blockScalar (bound : Nat) (folded : Bool) (margin : Nat) (c : Cursor) :
    Option (String × Cursor) := do
  let (how, added, c) ← blockHeader? c.next
  let start ← c.finishLine?
  let indent := added.map (margin - 1 + ·)
  let (empty, widest, c) ← skipEmptyLines indent 0 0 start.position start.rest
  let indent := indent.getD (max widest (max margin 1))
  let (lines, c) ← readBlockLines folded indent bound { empty } c
  some (lines.chomped how, c)

end BehaviorTree.Yaml
