import BehaviorTree.Key

/-! # Baked nodes

A baked node is a record of fixed size: its kind, the indices of its first child and of its next
sibling in the same array (`-1` for none), three integer slots and four number slots. What the
slots mean depends on the kind:

* action: integer slot 0 is the key of the action kind, the rest is up to the action;
* repeater: integer slot 0 is the target count, negative for no end;
* interrupt: integer slot 0 is the watched key;
* set-blackboard: integer slot 0 is the key, number slot 0 the value;
* clear-blackboard: integer slot 0 is the key, 0 clears everything. -/

namespace BehaviorTree

/-- What a node does. -/
inductive NodeKind
  | selector
  | sequence
  | parallel
  | invert
  | succeeder
  | repeater
  | interrupt
  | action
  | setBlackboard
  | clearBlackboard
deriving DecidableEq, Inhabited

namespace NodeKind

/-- The word for a kind in stored forms. -/
def name : NodeKind → String
  | selector => "Selector"
  | sequence => "Sequence"
  | parallel => "Parallel"
  | invert => "Invert"
  | succeeder => "Succeeder"
  | repeater => "Repeater"
  | interrupt => "Interrupt"
  | action => "Action"
  | setBlackboard => "SetBlackboard"
  | clearBlackboard => "ClearBlackboard"

/-- Every kind, in the order in which stored forms list them. -/
def all : List NodeKind :=
  [selector, sequence, parallel, invert, succeeder, repeater, interrupt, action, setBlackboard,
    clearBlackboard]

/-- The kind with a given word. -/
def ofName? (word : String) : Option NodeKind := all.find? (·.name = word)

/-- Whether the kind steers the walk instead of acting: its type tag needs no catalog. -/
def isControl : NodeKind → Bool
  | action | setBlackboard | clearBlackboard => false
  | _ => true

/-- The control kind that an authored type tag names. -/
def ofControlTag? (tag : String) : Option NodeKind := (ofName? tag).filter isControl

theorem ofName?_name (k : NodeKind) : ofName? k.name = some k := by cases k <;> decide

end NodeKind

/-- The link that leads nowhere. -/
def noNode : Int32 := -1

/-- The index a link leads to. -/
def linkTarget? (link : Int32) : Option Nat :=
  if link < 0 then none else some link.toInt.toNat

/-- One baked node. -/
structure BakedNode where
  kind : NodeKind := .selector
  firstChild : Int32 := noNode
  nextSibling : Int32 := noNode
  ints : Vector Int32 3 := Vector.replicate 3 0
  floats : Vector Float32 4 := Vector.replicate 4 0
deriving DecidableEq

namespace BakedNode

instance : Inhabited BakedNode := ⟨{}⟩

/-- A node of a kind without links and with empty slots. -/
def ofKind (kind : NodeKind) : BakedNode := { kind }

/-- Integer slots of which only slot 0 is filled. -/
def keySlots (key : Key) : Vector Int32 3 := #v[key, 0, 0]

/-- A node of a kind with only integer slot 0 filled. -/
def ofKindAndKey (kind : NodeKind) (key : Key) : BakedNode := { kind, ints := keySlots key }

/-- A node that runs the action registered under `key`. -/
def action (key : Key) : BakedNode := ofKindAndKey .action key

/-- A node that repeats its child `count` times. -/
def repeater (count : Int32) : BakedNode := ofKindAndKey .repeater count

/-- A node that guards its child by `key`. -/
def interrupt (key : Key) : BakedNode := ofKindAndKey .interrupt key

/-- A node that writes `value` under `key`. -/
def setBlackboard (key : Key) (value : Float32) : BakedNode :=
  { kind := .setBlackboard, ints := keySlots key, floats := #v[value, 0, 0, 0] }

/-- A node that removes `key`, or everything for key 0. -/
def clearBlackboard (key : Key) : BakedNode := ofKindAndKey .clearBlackboard key

/-- The index of the first child. -/
def firstChild? (n : BakedNode) : Option Nat := linkTarget? n.firstChild

/-- The index of the next sibling. -/
def nextSibling? (n : BakedNode) : Option Nat := linkTarget? n.nextSibling

/-- Integer slot 0 of an action. -/
def actionKey (n : BakedNode) : Key := n.ints[0]

/-- Integer slot 0 of a repeater. -/
def repeatCount (n : BakedNode) : Int32 := n.ints[0]

/-- Integer slot 0 of an interrupt or of a node that writes memory. -/
def key (n : BakedNode) : Key := n.ints[0]

/-- Number slot 0. -/
def value (n : BakedNode) : Float32 := n.floats[0]

/-- The two links, in the order in which they are checked. -/
def links (n : BakedNode) : List Int32 := [n.firstChild, n.nextSibling]

end BakedNode

end BehaviorTree
