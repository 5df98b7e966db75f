import BehaviorTree.Yaml.Tag

/-! # YAML tokens

A text as a row of tokens. Tokens that start and end block collections stand where the
indentation changes, so that the structure of a text no longer hangs on its layout. -/

namespace BehaviorTree.Yaml

/-- A token. The end of a row of tokens is the end of the text. -/
inductive Token
  | directive
  | documentStart
  | documentEnd
  | blockListStart
  | blockMapStart
  | blockEnd
  | flowListStart
  | flowListEnd
  | flowMapStart
  | flowMapEnd
  /-- The mark of an item in a block list. -/
  | item
  /-- The mark between items in a flow collection. -/
  | comma
  /-- A key follows. -/
  | key
  /-- The value of a key follows. -/
  | value
  | alias (name : String)
  | anchor (name : String)
  | tag (tag : Tag)
  | scalar (text : String) (plain : Bool)

end BehaviorTree.Yaml
