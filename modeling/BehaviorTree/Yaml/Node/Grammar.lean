import BehaviorTree.Yaml.Node
import BehaviorTree.Yaml.Token.Lexer

/-! # How tokens make up nodes

`Root.ofTokens?` is the node that a row of tokens makes up, or none if they make up none. The
functions take a bound for the depth and length of collections; `Root.ofTokens?` gives one that no
row exceeds, since of three steps in a row one takes a token. -/

namespace BehaviorTree.Yaml

/-- What is read of a row of tokens: the tokens left, the numbers of the anchors by name (the
latest first), how many anchors there are, and the content of anchored nodes. -/
structure Reading where
  tokens : List Token
  names : List (String × Nat) := []
  count : Nat := 0
  anchored : List (Nat × Content) := []

/-- A step of reading. -/
abbrev Read := StateT Reading Option

namespace Read

/-- The next token, which is left. -/
def peek : Read (Option Token) := do return (← get).tokens.head?

/-- Takes the next token. -/
def next : Read Unit := modify fun r => { r with tokens := r.tokens.tail }

/-- Gives the next node a name, and its number. -/
def name (name : String) : Read Nat :=
  modifyGet fun r => (r.count, { r with names := (name, r.count) :: r.names, count := r.count + 1 })

/-- Keeps the content of a node that has a number. -/
def keep (anchor : Option Nat) (c : Content) : Read Node := do
  if let some number := anchor then
    modify fun r => { r with anchored := (number, c) :: r.anchored }
  return .content c

/-- An anchor, if one comes next. -/
def anchor? : Read (Option Nat) := do
  match ← peek with
  | some (.anchor name) => next; some <$> Read.name name
  | _ => return none

/-- A tag, if one comes next. -/
def tag? : Read (Option Tag) := do
  match ← peek with
  | some (.tag tag) => next; return some tag
  | _ => return none

/-- The anchor and the tag of a node, in either order. -/
def properties : Read (Option Nat × Option Tag) := do
  match ← anchor? with
  | some number => return (some number, ← tag?)
  | none =>
    match ← tag? with
    | some tag => return (← anchor?, some tag)
    | none => return (none, none)

/-! ## Where a node is absent -/

/-- Whether the item of a block list is absent before a token. -/
def endsItem : Option Token → Bool
  | some .item | some .blockEnd => true
  | _ => false

/-- Whether the key or value of a block map is absent before a token. -/
def endsBlockEntry : Option Token → Bool
  | some .key | some .value | some .blockEnd => true
  | _ => false

/-- Whether the value in a flow map is absent before a token. -/
def endsFlowValue : Option Token → Bool
  | some .comma | some .flowMapEnd => true
  | _ => false

/-- Whether the key in a flow map is absent before a token. -/
def endsFlowKey (t : Option Token) : Bool :=
  endsFlowValue t || t matches some .value

/-- Whether the value of a pair in a flow list is absent before a token. -/
def endsPairValue : Option Token → Bool
  | some .comma | some .flowListEnd => true
  | _ => false

/-! ## Nodes -/

mutual

/-- A node; whether it may be a block collection, and whether a list in it needs no indentation.
An anchor or a tag may have no more than an empty scalar. -/
def node (block unindented : Bool) : Nat → Read Node
  | 0 => failure
  | fuel + 1 => do
    if let some (.alias name) ← peek then
      next
      let some number := (← get).names.lookup name | failure
      return .alias number
    let (anchor, tag) ← properties
    match ← peek with
    | some .item =>
      if unindented then keep anchor (.list (← unindentedItems fuel))
      else bare anchor tag
    | some (.scalar text plain) => next; keep anchor (.scalar { text, plain, tag })
    | some .flowListStart => next; keep anchor (.list (← flowItems true fuel))
    | some .flowMapStart => next; keep anchor (.map (← flowEntries true fuel))
    | some .blockListStart =>
      if block then next; keep anchor (.list (← blockItems fuel)) else bare anchor tag
    | some .blockMapStart =>
      if block then next; keep anchor (.map (← blockEntries fuel)) else bare anchor tag
    | _ => bare anchor tag
where
  /-- A node without content, which has an anchor or a tag. -/
  bare (anchor : Option Nat) (tag : Option Tag) : Read Node :=
    if anchor.isNone && tag.isNone then failure
    else keep anchor (.scalar { text := "", tag })

/-- A node, or an absent one where `absent` holds of the next token. -/
def nodeUnless (absent : Option Token → Bool) (block unindented : Bool) : Nat → Read Node
  | 0 => failure
  | fuel + 1 => do
    if absent (← peek) then return .absent else node block unindented fuel

/-- The items of a block list to its end. -/
def blockItems : Nat → Read (List Node)
  | 0 => failure
  | fuel + 1 => do
    match ← peek with
    | some .blockEnd => next; return []
    | some .item =>
      next
      let item ← nodeUnless endsItem true false fuel
      return item :: (← blockItems fuel)
    | _ => failure

/-- The items of a list whose marks stand in the column of the key it belongs to. -/
def unindentedItems : Nat → Read (List Node)
  | 0 => failure
  | fuel + 1 => do
    match ← peek with
    | some .item =>
      next
      let item ← nodeUnless (fun t => endsItem t || endsBlockEntry t) true false fuel
      return item :: (← unindentedItems fuel)
    | _ => return []

/-- The entries of a block map to its end. A value's mark may stand without a key. -/
def blockEntries : Nat → Read (List (Node × Node))
  | 0 => failure
  | fuel + 1 => do
    match ← peek with
    | some .blockEnd => next; return []
    | some .key =>
      next
      let key ← nodeUnless endsBlockEntry true true fuel
      let value ← blockValue fuel
      return (key, value) :: (← blockEntries fuel)
    | some .value =>
      let value ← blockValue fuel
      return (.absent, value) :: (← blockEntries fuel)
    | _ => failure

/-- The value of an entry of a block map. -/
def blockValue : Nat → Read Node
  | 0 => failure
  | fuel + 1 => do
    if (← peek) matches some .value then
      next
      nodeUnless endsBlockEntry true true fuel
    else return .absent

/-- The items of a flow list to its end; a comma stands before all but the first. A key makes an
item of its own with its value. -/
def flowItems (first : Bool) : Nat → Read (List Node)
  | 0 => failure
  | fuel + 1 => do
    if (← peek) matches some .flowListEnd then
      next
      return []
    unless first do
      let some .comma ← peek | failure
      next
    match ← peek with
    | some .flowListEnd => next; return []
    | some .key =>
      next
      let key ← pairKey fuel
      let value ← pairValue fuel
      return .content (.map [(key, value)]) :: (← flowItems false fuel)
    | _ =>
      let item ← node false false fuel
      return item :: (← flowItems false fuel)

/-- The key of a pair in a flow list. Where it is absent, the token that shows so is lost. -/
def pairKey : Nat → Read Node
  | 0 => failure
  | fuel + 1 => do
    let t ← peek
    if endsPairValue t || t matches some .value then
      next
      return .absent
    else node false false fuel

/-- The value of a pair in a flow list. -/
def pairValue : Nat → Read Node
  | 0 => failure
  | fuel + 1 => do
    if (← peek) matches some .value then
      next
      nodeUnless endsPairValue false false fuel
    else return .absent

/-- The entries of a flow map to its end; a comma stands before all but the first. A node that is
not marked as a key is one without a value. -/
def flowEntries (first : Bool) : Nat → Read (List (Node × Node))
  | 0 => failure
  | fuel + 1 => do
    if (← peek) matches some .flowMapEnd then
      next
      return []
    unless first do
      let some .comma ← peek | failure
      next
    match ← peek with
    | some .flowMapEnd => next; return []
    | some .key =>
      next
      let key ← nodeUnless endsFlowKey false false fuel
      let value ← flowValue fuel
      return (key, value) :: (← flowEntries false fuel)
    | some .value =>
      let value ← flowValue fuel
      return (.absent, value) :: (← flowEntries false fuel)
    | _ =>
      let key ← node false false fuel
      return (key, .absent) :: (← flowEntries false fuel)

/-- The value of an entry of a flow map. -/
def flowValue : Nat → Read Node
  | 0 => failure
  | fuel + 1 => do
    if (← peek) matches some .value then
      next
      nodeUnless endsFlowValue false false fuel
    else return .absent

end

/-! ## Documents -/

/-- Skips tokens of a kind. -/
def skipTokens (p : Token → Bool) : Read Unit :=
  modify fun r => { r with tokens := r.tokens.dropWhile p }

/-- The start of a document: directives and its mark, or nothing. The content of a marked
document may be absent. -/
def documentNode (fuel : Nat) : Read Node := do
  match ← peek with
  | none => failure
  | some .directive | some .documentStart =>
    skipTokens (· matches .directive)
    let some .documentStart ← peek | failure
    next
    nodeUnless (fun t => t matches none | some .directive | some .documentStart | some .documentEnd)
      true false (fuel + 1)
  | some _ => node true false fuel

/-- The one document of a row of tokens. -/
def document (fuel : Nat) : Read Root := do
  let node ← documentNode fuel
  skipTokens (· matches .documentEnd)
  if (← peek).isSome then failure
  return { node, anchored := (← get).anchored }

end Read

/-- The node that tokens make up. -/
def Root.ofTokens? (tokens : List Token) : Option Root :=
  (Read.document (3 * tokens.length + 3)).run' { tokens }

/-- The node of a text. -/
def Root.ofText? (text : String) : Option Root := (tokens? text).bind ofTokens?

end BehaviorTree.Yaml
