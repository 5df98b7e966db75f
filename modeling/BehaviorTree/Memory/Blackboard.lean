import BehaviorTree.Memory.Table

/-! # Blackboards

The memory of one agent between ticks: five tables, one for each type of value. The table of
numbers is the one that control nodes use (repeat counters, wait timers, interrupt flags); the
others serve actions. A key means nothing beyond its own table. -/

namespace BehaviorTree

/-- A point or direction in space. -/
structure Vec3 where
  x : Float32
  y : Float32
  z : Float32
deriving DecidableEq

namespace Vec3

/-- The vector whose three components are 0. -/
def zero : Vec3 := ⟨0, 0, 0⟩

instance : Inhabited Vec3 := ⟨zero⟩

/-- The components in order. -/
def toList (v : Vec3) : List Float32 := [v.x, v.y, v.z]

end Vec3

/-- The handle of another entity of the simulation; 0 stands for none. -/
structure Entity where
  id : UInt64
deriving DecidableEq

namespace Entity

/-- The handle that names no entity. -/
def null : Entity := ⟨0⟩

instance : Inhabited Entity := ⟨null⟩

/-- Whether the handle names no entity. -/
def isNull (e : Entity) : Bool := e = null

end Entity

/-- The memory of one agent. -/
structure Blackboard where
  values : Table Float32 := .empty
  bools : Table Bool := .empty
  ints : Table Int32 := .empty
  vectors : Table Vec3 := .empty
  entities : Table Entity := .empty
deriving DecidableEq

namespace Blackboard

/-- The memory of a new agent. -/
def empty : Blackboard := {}

instance : Inhabited Blackboard := ⟨empty⟩

/-! ## Numbers -/

/-- The number under `key`, 0 when there is none. -/
def get (b : Blackboard) (key : Key) : Float32 := b.values.getD key 0

/-- The number under `key`. -/
def find? (b : Blackboard) (key : Key) : Option Float32 := b.values.find? key

/-- Puts a number under `key`. -/
def set (b : Blackboard) (key : Key) (value : Float32) : Blackboard :=
  { b with values := b.values.set key value }

/-- Whether there is a number under `key`. -/
def contains (b : Blackboard) (key : Key) : Bool := b.values.contains key

/-- Removes the number under `key`. -/
def erase (b : Blackboard) (key : Key) : Blackboard := { b with values := b.values.erase key }

/-- Removes every number; the other tables stay. -/
def clear (b : Blackboard) : Blackboard := { b with values := .empty }

/-- Removes everything from every table. -/
def reset (_ : Blackboard) : Blackboard := empty

/-- How many numbers there are. -/
def size (b : Blackboard) : Nat := b.values.size

/-! ## The other types of values -/

/-- The truth value under `key`, false when there is none. -/
def getBool (b : Blackboard) (key : Key) : Bool := b.bools.getD key false

/-- Puts a truth value under `key`. -/
def setBool (b : Blackboard) (key : Key) (value : Bool) : Blackboard :=
  { b with bools := b.bools.set key value }

/-- Removes the truth value under `key`. -/
def eraseBool (b : Blackboard) (key : Key) : Blackboard := { b with bools := b.bools.erase key }

/-- The integer under `key`, 0 when there is none. -/
def getInt (b : Blackboard) (key : Key) : Int32 := b.ints.getD key 0

/-- Puts an integer under `key`. -/
def setInt (b : Blackboard) (key : Key) (value : Int32) : Blackboard :=
  { b with ints := b.ints.set key value }

/-- Removes the integer under `key`. -/
def eraseInt (b : Blackboard) (key : Key) : Blackboard := { b with ints := b.ints.erase key }

/-- The vector under `key`, zero when there is none. -/
def getVec3 (b : Blackboard) (key : Key) : Vec3 := b.vectors.getD key .zero

/-- Puts a vector under `key`. -/
def setVec3 (b : Blackboard) (key : Key) (value : Vec3) : Blackboard :=
  { b with vectors := b.vectors.set key value }

/-- Removes the vector under `key`. -/
def eraseVec3 (b : Blackboard) (key : Key) : Blackboard :=
  { b with vectors := b.vectors.erase key }

/-- The entity under `key`, the null handle when there is none. -/
def getEntity (b : Blackboard) (key : Key) : Entity := b.entities.getD key .null

/-- Puts an entity under `key`. -/
def setEntity (b : Blackboard) (key : Key) (value : Entity) : Blackboard :=
  { b with entities := b.entities.set key value }

/-- Removes the entity under `key`. -/
def eraseEntity (b : Blackboard) (key : Key) : Blackboard :=
  { b with entities := b.entities.erase key }

end Blackboard

end BehaviorTree
