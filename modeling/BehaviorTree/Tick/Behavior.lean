import BehaviorTree.Tick.Machine

/-! # Behaviours

A `Behavior` is a tree of nodes without links: a node has its children below it. Its meaning,
`Behavior.evaluate`, is by recursion on the tree, and has the rule of every kind written out:

* a selector takes its children in order up to the first that does not fail, a sequence up to the
  first that does not succeed; a parallel node takes all of them;
* the other control nodes look at their first child alone, and settle by its status;
* leaves act.

`BakedTree.behavior?` is the behaviour below an index of a baked tree, which the machine runs
without building it. The machine has its own functions for what a node does next; none of them is
used here. -/

namespace BehaviorTree

open Machine (Observer)

namespace BakedNode

/-- Integer slot 0: the target of a repeater, and the key of an action, of an interrupt or of a
node that writes memory. -/
def intSlot (n : BakedNode) : Int32 := n.ints[0]?.getD 0

/-- Number slot 0: what a node puts into memory. -/
def numberSlot (n : BakedNode) : Float32 := n.floats[0]?.getD 0

end BakedNode

/-- A node with its children in order. The index is its place in the baked tree. -/
inductive Behavior
  | node (index : Nat) (record : BakedNode) (children : List Behavior)

namespace Behavior

/-- The index of the topmost node. -/
def index : Behavior → Nat
  | node i _ _ => i

/-- The record of the topmost node. -/
def record : Behavior → BakedNode
  | node _ r _ => r

/-- The behaviours below the topmost node. -/
def children : Behavior → List Behavior
  | node _ _ bs => bs

mutual

/-- The indices of a behaviour's nodes, each behind those below it. -/
def indices : Behavior → List Nat
  | node i _ bs => indicesOfAll bs ++ [i]

/-- The indices of the nodes of behaviours in order. -/
def indicesOfAll : List Behavior → List Nat
  | [] => []
  | b :: bs => b.indices ++ indicesOfAll bs

end

/-! ## Meaning -/

variable {ε τ : Type}

/-- What evaluation changes: the world, and what the observer has gathered. -/
abbrev Scene (ε τ : Type) := World ε × τ

mutual

/-- Evaluates a behaviour once; the observer is told its status last. -/
def evaluate (actions : ActionTable ε) (deltaTime : Float32) (observe : Observer τ) :
    Behavior → Scene ε τ → Status × Scene ε τ
  | node index record children, scene =>
    let (status, world, seen) : Status × Scene ε τ :=
      match record.kind with
      | .selector => evaluateWhile actions deltaTime observe .failure children scene
      | .sequence => evaluateWhile actions deltaTime observe .success children scene
      | .parallel =>
        let (statuses, scene) := evaluateAll actions deltaTime observe children scene
        (if .failure ∈ statuses then .failure
          else if .running ∈ statuses then .running
          else .success, scene)
      | .invert =>
        match children with
        | [] => (.failure, scene)
        | child :: _ =>
          match evaluate actions deltaTime observe child scene with
          | (.success, scene) => (.failure, scene)
          | (.failure, scene) => (.success, scene)
          | (.running, scene) => (.running, scene)
      | .succeeder =>
        match children with
        | [] => (.success, scene)
        | child :: _ =>
          match evaluate actions deltaTime observe child scene with
          | (.running, scene) => (.running, scene)
          | (_, scene) => (.success, scene)
      | .repeater =>
        match children with
        | [] => (.success, scene)
        | child :: _ =>
          let counter : Key := -(Int32.ofNat child.index + 1000)
          let target := record.intSlot
          match evaluate actions deltaTime observe child scene with
          | (.running, scene) => (.running, scene)
          | (.failure, world, seen) => (.failure, world.set counter 0, seen)
          | (.success, world, seen) =>
            let count := world.get counter + 1
            -- a negative target is never reached
            if 0 ≤ target ∧ Float32.ofInt target.toInt ≤ count then
              (.success, world.set counter 0, seen)
            else (.running, world.set counter count, seen)
      | .interrupt =>
        match children with
        | [] => (.success, scene)
        | child :: _ =>
          let key := record.intSlot
          if key ≠ 0 ∧ scene.1.get key != 0 then (.failure, scene.1.set key 0, scene.2)
          else evaluate actions deltaTime observe child scene
      | .action =>
        match actions.get? record.intSlot with
        | none => (.failure, scene)
        | some action =>
          let (status, world) := action record ⟨index, deltaTime⟩ scene.1
          (status, world, scene.2)
      | .setBlackboard => (.success, scene.1.set record.intSlot record.numberSlot, scene.2)
      | .clearBlackboard =>
        let key := record.intSlot
        (.success, if key = 0 then scene.1.clear else scene.1.erase key, scene.2)
    (status, world, observe index status seen)

/-- Evaluates behaviours in order as long as they settle with a status, which is also that of
none at all. -/
def evaluateWhile (actions : ActionTable ε) (deltaTime : Float32) (observe : Observer τ)
    (status : Status) : List Behavior → Scene ε τ → Status × Scene ε τ
  | [], scene => (status, scene)
  | b :: bs, scene =>
    let (result, scene) := evaluate actions deltaTime observe b scene
    if result = status then evaluateWhile actions deltaTime observe status bs scene
    else (result, scene)

/-- Evaluates all behaviours in order, and gives the status of each. -/
def evaluateAll (actions : ActionTable ε) (deltaTime : Float32) (observe : Observer τ) :
    List Behavior → Scene ε τ → List Status × Scene ε τ
  | [], scene => ([], scene)
  | b :: bs, scene =>
    let (result, scene) := evaluate actions deltaTime observe b scene
    let (results, scene) := evaluateAll actions deltaTime observe bs scene
    (result :: results, scene)

end

end Behavior

namespace BakedTree

/-- The behaviour below an index, if it is no deeper than `depth`. -/
def behaviorWithin? (t : BakedTree) : Nat → Nat → Option Behavior
  | 0, _ => none
  | depth + 1, index => do
    let record ← t.get? index
    let children ← (t.children index).mapM (t.behaviorWithin? depth)
    some (.node index record children)

/-- The behaviour below an index: no path is longer than there are nodes. -/
def behavior? (t : BakedTree) (index : Nat) : Option Behavior := t.behaviorWithin? t.size index

end BakedTree

end BehaviorTree
