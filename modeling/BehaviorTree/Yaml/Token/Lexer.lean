import BehaviorTree.Yaml.BlockScalar
import BehaviorTree.Yaml.Scalar
import BehaviorTree.Yaml.Token

/-! # The tokens of a text

`tokens? text` are the tokens of a text, or none if it is not well formed.

A key need not be marked: that a node was one shows at the colon behind it. So the lexer keeps a
`Candidate` for each level of flow collections, the node that a colon would make a key. It has to
stand in one line, within 1024 characters. -/

namespace BehaviorTree.Yaml

/-- A node that may turn out to be a key: the number of its first token, where it starts, and
whether only a key may stand there. -/
structure Candidate where
  token : Nat
  start : Position
  required : Bool

/-- Whether a candidate is too far back for a colon at a position. -/
def Candidate.isStale (k : Candidate) (p : Position) : Bool :=
  k.start.line < p.line || k.start.index + 1024 < p.index

/-- The state of the lexer: where it is, a bound for the length of the text, the tokens so far,
whether a key may start, the candidates of this level and of those around it, the columns of the
open block collections, and where the last quoted scalar ended, since its colon may follow at
once. -/
structure Lexer where
  cursor : Cursor
  bound : Nat
  tokens : Array Token := #[]
  keyAllowed : Bool := true
  candidate : Option Candidate := none
  outer : List (Option Candidate) := []
  indents : List Nat := []
  quoteEnd : Option Nat := none

namespace Lexer

/-- Whether the lexer is in a flow collection. -/
def inFlow (x : Lexer) : Bool := !x.outer.isEmpty

/-- The column that text of the innermost block collection may not go left of. -/
def margin (x : Lexer) : Nat :=
  match x.indents with
  | [] => 0
  | column :: _ => column + 1

/-- The state with a further token. -/
def push (x : Lexer) (t : Token) : Lexer := { x with tokens := x.tokens.push t }

/-- The state with a further token that takes so many characters. -/
def take (x : Lexer) (length : Nat) (t : Token) : Lexer :=
  { x with cursor := x.cursor.skip length, tokens := x.tokens.push t }

/-! ## Candidates for keys -/

/-- Gives up the candidate of this level. -/
def dropCandidate (x : Lexer) : Option Lexer :=
  if x.candidate.any (·.required) then none else some { x with candidate := none }

/-- Gives up a candidate that is too far back. -/
def freshCandidate? (p : Position) : Option Candidate → Option (Option Candidate)
  | some k =>
    if k.isStale p then (if k.required then none else some none) else some (some k)
  | none => some none

/-- Gives up the candidates that are too far back. -/
def dropStale (x : Lexer) : Option Lexer := do
  let candidate ← freshCandidate? x.cursor.position x.candidate
  let outer ← x.outer.mapM (freshCandidate? x.cursor.position)
  some { x with candidate, outer }

/-- Makes the node that starts here the candidate, if a key may start. -/
def saveCandidate (x : Lexer) : Option Lexer :=
  if x.keyAllowed then do
    let x ← x.dropCandidate
    let required := x.inFlow && x.indents.head? = some x.cursor.column
    some { x with candidate := some ⟨x.tokens.size, x.cursor.position, required⟩ }
  else some x

/-! ## Indentation -/

/-- Opens a block collection at a column, unless one is open there; its start becomes token number
`at?`, or the last one. -/
def indent (x : Lexer) (column : Nat) (start : Token) (at? : Option Nat) : Lexer :=
  if x.inFlow || x.indents.head?.any (column ≤ ·) then x
  else
    { x with
      indents := column :: x.indents
      tokens := x.tokens.insertIdxIfInBounds (at?.getD x.tokens.size) start }

/-- Closes the block collections to the right of a column. -/
def unindent (x : Lexer) (column : Nat) : Lexer :=
  if x.inFlow then x
  else
    let closed := x.indents.takeWhile (column < ·)
    { x with
      indents := x.indents.drop closed.length
      tokens := x.tokens ++ closed.map fun _ => Token.blockEnd }

/-- Closes all block collections. -/
def unindentAll (x : Lexer) : Lexer :=
  if x.inFlow then x
  else { x with indents := [], tokens := x.tokens ++ x.indents.map fun _ => Token.blockEnd }

/-! ## Blanks and comments -/

/-- Skips blanks, line breaks and comments. A key may start after a line break outside of flow
collections. Tabs are no blanks where a block key may start. -/
def skipWhite (inFlow keyAllowed inComment : Bool) (p : Position) : List Char → Bool × Cursor
  | [] => (keyAllowed, ⟨p, []⟩)
  | c :: rest =>
    if isBreak c then skipWhite inFlow (keyAllowed || !inFlow) false (p.after c) rest
    else if inComment then skipWhite inFlow keyAllowed true (p.after c) rest
    else if c = ' ' || c = '\t' && (inFlow || !keyAllowed) then
      skipWhite inFlow keyAllowed false (p.after c) rest
    else if c = '#' then skipWhite inFlow keyAllowed true (p.after c) rest
    else (keyAllowed, ⟨p, c :: rest⟩)

/-- Goes to the next token. -/
def goToToken (x : Lexer) : Option Lexer := do
  let (keyAllowed, cursor) :=
    skipWhite x.inFlow x.keyAllowed false x.cursor.position x.cursor.rest
  let x ← { x with keyAllowed, cursor }.dropStale
  some (x.unindent x.cursor.column)

/-! ## Tokens by their first character -/

/-- Readies the state for a line that belongs to no document. -/
def leaveDocument (x : Lexer) : Option Lexer := do
  let x ← x.unindentAll.dropCandidate
  some { x with keyAllowed := false }

/-- A directive. -/
def directive (x : Lexer) : Option Lexer := do
  let x ← x.leaveDocument
  some { x.push .directive with cursor := ← x.cursor.directive x.bound }

/-- The mark of a document's start or end. -/
def documentMark (x : Lexer) (t : Token) : Option Lexer := do
  let x ← x.leaveDocument
  some (x.take 3 t)

/-- The start of a flow collection. -/
def flowStart (x : Lexer) (t : Token) : Option Lexer := do
  let x ← x.saveCandidate
  if x.outer.length = 255 then none
  else some { x.take 1 t with
    keyAllowed := true, candidate := none, outer := x.candidate :: x.outer }

/-- The end of a flow collection. -/
def flowEnd (x : Lexer) (t : Token) : Option Lexer := do
  let x ← x.dropCandidate
  let x := { x.take 1 t with keyAllowed := false }
  match x.outer with
  | candidate :: outer => some { x with candidate, outer }
  | [] => some x

/-- The mark between items of a flow collection. -/
def comma (x : Lexer) : Option Lexer := do
  let x ← x.dropCandidate
  some { x.take 1 .comma with keyAllowed := true }

/-- The mark of an item of a block list. -/
def item (x : Lexer) : Option Lexer :=
  if x.inFlow || !x.keyAllowed then none
  else do
    let x ← (x.indent x.cursor.column .blockListStart none).dropCandidate
    some { x.take 1 .item with keyAllowed := true }

/-- The mark of a key. -/
def key (x : Lexer) : Option Lexer :=
  if !x.inFlow && !x.keyAllowed then none
  else do
    let x ← (x.indent x.cursor.column .blockMapStart none).dropCandidate
    some { x.take 1 .key with keyAllowed := !x.inFlow }

/-- The mark of a value: the candidate, if there is one, is its key. -/
def value (x : Lexer) : Option Lexer :=
  match x.candidate with
  | some k =>
    let x := { x with tokens := x.tokens.insertIdxIfInBounds k.token .key }
    let x := x.indent k.start.column .blockMapStart (some k.token)
    some { x.take 1 .value with candidate := none, keyAllowed := false }
  | none =>
    if !x.inFlow && !x.keyAllowed then none
    else
      let x := x.indent x.cursor.column .blockMapStart none
      some { x.take 1 .value with keyAllowed := !x.inFlow }

/-- The name of an anchor: a word behind its mark. -/
def anchorName (x : Lexer) : Option (String × Cursor) :=
  let (name, cursor) := x.cursor.next.takeWhile isWord
  let ends := endsWord cursor.rest
    || cursor.rest.head?.any ['?', ':', ',', ']', '\x7d', '%', '@', '`'].contains
  if name = [] ∨ !ends then none else some (String.ofList name, cursor)

/-- An anchor or an alias. -/
def anchor (x : Lexer) (token : String → Token) : Option Lexer := do
  let x ← x.saveCandidate
  let (name, cursor) ← x.anchorName
  some { x.push (token name) with cursor, keyAllowed := false }

/-- A tag. -/
def tag (x : Lexer) : Option Lexer := do
  let x ← x.saveCandidate
  let (tag, cursor) ← x.cursor.tag x.bound
  some { x.push (.tag tag) with cursor, keyAllowed := false }

/-- A block scalar. -/
def blockScalar (x : Lexer) (folded : Bool) : Option Lexer := do
  let x ← x.saveCandidate
  let (text, cursor) ← x.cursor.blockScalar x.bound folded x.margin
  some { x.push (.scalar text false) with cursor, keyAllowed := true }

/-- A quoted scalar. -/
def quoted (x : Lexer) (read : Nat → Cursor → Option (String × Cursor)) : Option Lexer := do
  let x ← x.saveCandidate
  let (text, cursor) ← read x.bound x.cursor
  some { x.push (.scalar text false) with
    cursor, keyAllowed := false, quoteEnd := some cursor.position.index }

/-- A plain scalar: a key may start behind it, if it goes over the end of a line. -/
def plain (x : Lexer) : Option Lexer := do
  let x ← x.saveCandidate
  let s ← x.cursor.plainScalar x.bound x.inFlow x.margin
  some { x.push (.scalar s.text true) with cursor := s.cursor, keyAllowed := s.gap.isBroken }

/-- Whether a colon is the mark of a value. -/
def isValueMark (x : Lexer) (rest : List Char) : Bool :=
  endsWord rest
    || x.inFlow && (rest.head?.any isFlow || x.quoteEnd = some x.cursor.position.index)

/-- The token that starts with a character. -/
def token (x : Lexer) (c : Char) (rest : List Char) : Option Lexer :=
  if x.cursor.column = 0 ∧ c = '%' then x.directive
  else if x.cursor.atDocumentMark then
    x.documentMark (if c = '-' then .documentStart else .documentEnd)
  else match c with
    | '[' => x.flowStart .flowListStart
    | '\x7b' => x.flowStart .flowMapStart
    | ']' => x.flowEnd .flowListEnd
    | '\x7d' => x.flowEnd .flowMapEnd
    | ',' => x.comma
    | '-' => if endsWord rest then x.item else x.plain
    | '?' => if endsWord rest then x.key else x.plain
    | ':' => if x.isValueMark rest then x.value else x.plain
    | '*' => x.anchor .alias
    | '&' => x.anchor .anchor
    | '!' => x.tag
    | '|' => if x.inFlow then x.plain else x.blockScalar false
    | '>' => if x.inFlow then x.plain else x.blockScalar true
    | '\'' => x.quoted Cursor.singleQuoted
    | '"' => x.quoted Cursor.doubleQuoted
    | '%' | '@' | '`' => none
    | _ => x.plain

/-- Reads tokens to the end of the text; every token takes a character. -/
def run : Nat → Lexer → Option Lexer
  | 0, _ => none
  | fuel + 1, x => do
    let x ← x.goToToken
    match x.cursor.rest with
    | [] => x.leaveDocument
    | c :: rest => run fuel (← x.token c rest)

end Lexer

/-- The tokens of a text, which NUL ends. -/
def tokens? (text : String) : Option (List Token) :=
  let s := text.toList.takeWhile (· ≠ '\x00')
  let bound := s.length + 1
  (Lexer.run bound { cursor := { rest := s }, bound }).map (·.tokens.toList)

end BehaviorTree.Yaml
