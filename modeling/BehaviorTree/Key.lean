import BehaviorTree.Text.Utf16

/-! # Keys

Every name that reaches a baked tree (an action kind, a blackboard key, an animator state) is a
32-bit FNV-1a digest of its UTF-16 code units, read as a signed word. The empty name has the
digest 0, which several nodes take for "no name".

* `Key.ofName`, `Digest.of32`, `Digest.of64`: the digest of a name.
* `Key.mix`, `Key.mixAll`: one key from several, such as a name and an index. -/

namespace BehaviorTree

/-- The 32-bit word under which memory, actions and names are looked up. -/
abbrev Key := Int32

namespace Digest

/-- The state before the first code unit, 32 bits wide. -/
def basis32 : UInt32 := 2166136261

/-- The state before the first code unit, 64 bits wide. -/
def basis64 : UInt64 := 14695981039346656037

/-- One code unit goes into the state: exclusive or, then a product with the FNV prime. -/
def step32 (state : UInt32) (unit : UInt16) : UInt32 := (state ^^^ unit.toUInt32) * 16777619

/-- `step32` on the wide state. -/
def step64 (state : UInt64) (unit : UInt16) : UInt64 := (state ^^^ unit.toUInt64) * 1099511628211

/-- The 32-bit digest of a name; 0 for the empty one. -/
def of32 (name : String) : UInt32 :=
  if name = "" then 0 else (Text.units name).foldl step32 basis32

/-- The 64-bit digest of a name; 0 for the empty one. -/
def of64 (name : String) : UInt64 :=
  if name = "" then 0 else (Text.units name).foldl step64 basis64

end Digest

namespace Key

/-- The key of a name: its 32-bit digest as a signed word. -/
def ofName (name : String) : Key := (Digest.of32 name).toInt32

@[simp] theorem ofName_empty : ofName "" = 0 := rfl

/-- The 64-bit digest of a name as a signed word. -/
def wideOfName (name : String) : Int64 := (Digest.of64 name).toInt64

/-- The word turned left by five bits. -/
def turn5 (w : UInt32) : UInt32 := (w <<< 5) ||| (w >>> 27)

/-- Mixes a second key into a first one. -/
def mix (a b : Key) : Key := ((turn5 a.toUInt32).toInt32 + a) ^^^ b

/-- Mixes all keys from the left; 0 when there are none. -/
def mixAll : List Key → Key
  | [] => 0
  | key :: rest => rest.foldl mix key

end Key

end BehaviorTree
