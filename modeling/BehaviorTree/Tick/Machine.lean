import BehaviorTree.Baked.Tree
import BehaviorTree.Tick.Action

/-! # Ticks

A tick walks a baked tree depth first from a root and answers the root's status. The walk is a
machine with a stack of open nodes, each waiting for one of its children, so that the depth of a
tree costs memory and not calls. Nothing of a tick stays behind but the world: what a node needs
to go on next time (repeat counters, wait timers, interrupt flags) is in the agent's memory.

* `Machine.step` is one step of the machine, `Machine.run` a bounded run.
* `BakedTree.tick` and `BakedTree.tickReporting` run it from a root; the latter tells an
  observer every node with its status once that is known, so children come before their parent. -/

namespace BehaviorTree

/-- The key under which a repeater counts, by the index of its child. -/
def repeaterCounterKey (child : Nat) : Key := -(Int32.ofNat child + 1000)

/-- The status of a parallel node whose children are all evaluated. -/
def parallelStatus (failed running : Bool) : Status :=
  if failed then .failure else if running then .running else .success

/-- The status that an invert node makes of its child's. -/
def Status.invert : Status → Status
  | success => failure
  | failure => success
  | running => running

/-- The status that a succeeder makes of its child's. -/
def Status.succeed : Status → Status
  | running => running
  | _ => success

namespace Machine

/-- A node that waits for one of its children; a parallel node also keeps what it has seen. -/
structure Frame where
  index : Nat
  child : Nat
  failed : Bool := false
  running : Bool := false
deriving DecidableEq

/-- What a node does next: evaluate a child, or settle. -/
inductive Visit
  | child (index : Nat)
  | settled (status : Status)
deriving DecidableEq

/-- What the machine does next: enter a node, report a node that settled, or hand a status to
the innermost open node. -/
inductive Phase
  | enter (index : Nat)
  | report (index : Nat) (status : Status)
  | resume (status : Status)
deriving DecidableEq

variable {ε τ : Type}

/-- Evaluates the child if there is one, else settles. -/
def Visit.childOr (child : Option Nat) (status : Status) : Visit :=
  match child with
  | some index => .child index
  | none => .settled status

/-- The first visit of a node. -/
def enter (actions : ActionTable ε) (deltaTime : Float32) (index : Nat) (node : BakedNode)
    (world : World ε) : Visit × World ε :=
  match node.kind with
  | .selector | .invert => (.childOr node.firstChild? .failure, world)
  | .sequence | .parallel | .succeeder | .repeater => (.childOr node.firstChild? .success, world)
  | .interrupt =>
    match node.firstChild? with
    | none => (.settled .success, world)
    | some child =>
      if node.key ≠ 0 ∧ world.get node.key != 0 then
        (.settled .failure, world.set node.key 0)
      else (.child child, world)
  | .action =>
    let (status, world) := actions.execute node.actionKey node ⟨index, deltaTime⟩ world
    (.settled status, world)
  | .setBlackboard => (.settled .success, world.set node.key node.value)
  | .clearBlackboard =>
    (.settled .success, if node.key = 0 then world.clear else world.erase node.key)

/-- What a repeater makes of its child's status: a failure starts the count again, a success
counts, and the count of the target succeeds; a negative target is never reached. -/
def countRepeat (key : Key) (target : Int32) (result : Status) (world : World ε) :
    Status × World ε :=
  match result with
  | .running => (.running, world)
  | .failure => (.failure, world.set key 0)
  | .success =>
    let count := world.get key + 1
    if 0 ≤ target ∧ Float32.ofInt target.toInt ≤ count then (.success, world.set key 0)
    else (.running, world.set key count)

/-- A child of an open node has settled: the node goes on to the next sibling of the child, or
settles itself. -/
def resume (node : BakedNode) (sibling : Option Nat) (frame : Frame) (result : Status)
    (world : World ε) : Visit × Frame × World ε :=
  match node.kind with
  | .selector =>
    (if result = .failure then .childOr sibling .failure else .settled result, frame, world)
  | .sequence =>
    (if result = .success then .childOr sibling .success else .settled result, frame, world)
  | .parallel =>
    let frame :=
      { frame with
        failed := frame.failed || result = .failure
        running := frame.running || result = .running }
    (.childOr sibling (parallelStatus frame.failed frame.running), frame, world)
  | .invert => (.settled result.invert, frame, world)
  | .succeeder => (.settled result.succeed, frame, world)
  | .repeater =>
    let (status, world) :=
      countRepeat (repeaterCounterKey frame.child) node.repeatCount result world
    (.settled status, frame, world)
  | .interrupt | .action | .setBlackboard | .clearBlackboard => (.settled result, frame, world)

/-- Where a tick has come to. -/
structure State (ε τ : Type) where
  stack : List Frame
  phase : Phase
  world : World ε
  seen : τ

/-- What a tick leaves: the status of the root, the world, and what the observer has gathered. -/
structure Outcome (ε τ : Type) where
  status : Status
  world : World ε
  seen : τ

/-- An observer of a tick: how it takes in that a node settled. -/
abbrev Observer (τ : Type) := Nat → Status → τ → τ

/-- One step: the next state, or the outcome when no node is open any more. -/
def step (tree : BakedTree) (actions : ActionTable ε) (deltaTime : Float32)
    (observe : Observer τ) (s : State ε τ) : State ε τ ⊕ Outcome ε τ :=
  match s.phase with
  | .enter index =>
    match tree.get? index with
    | none => .inl { s with phase := .resume .failure }
    | some node =>
      match enter actions deltaTime index node s.world with
      | (.child child, world) =>
        .inl { s with stack := { index, child } :: s.stack, phase := .enter child, world }
      | (.settled status, world) => .inl { s with phase := .report index status, world }
  | .report index status =>
    .inl { s with phase := .resume status, seen := observe index status s.seen }
  | .resume status =>
    match s.stack with
    | [] => .inr ⟨status, s.world, s.seen⟩
    | frame :: outer =>
      match tree.get? frame.index with
      | none => .inl { s with stack := outer }
      | some node =>
        let sibling := (tree.get? frame.child).bind (·.nextSibling?)
        match resume node sibling frame status s.world with
        | (.child child, frame, world) =>
          .inl { s with stack := { frame with child } :: outer, phase := .enter child, world }
        | (.settled status, frame, world) =>
          .inl { s with stack := outer, phase := .report frame.index status, world }

/-- Up to `fuel` steps; `none` when they do not lead to an outcome. -/
def run (tree : BakedTree) (actions : ActionTable ε) (deltaTime : Float32)
    (observe : Observer τ) : Nat → State ε τ → Option (Outcome ε τ)
  | 0, _ => none
  | fuel + 1, s =>
    match step tree actions deltaTime observe s with
    | .inl next => run tree actions deltaTime observe fuel next
    | .inr outcome => some outcome

/-- Steps enough for any tick: a node is entered, reported and resumed after once at most, and
one index outside the tree may be tried. -/
def enoughSteps (tree : BakedTree) : Nat := 3 * tree.size + 3

end Machine

namespace BakedTree

open Machine

variable {ε τ : Type}

/-- Evaluates the subtree under `root` once, from the given state of an observer. A root outside
the tree fails. -/
def tickReporting (tree : BakedTree) (actions : ActionTable ε) (root : Int32)
    (deltaTime : Float32) (world : World ε) (observe : Observer τ) (seen : τ) : Outcome ε τ :=
  match linkTarget? root with
  | none => ⟨.failure, world, seen⟩
  | some index =>
    (run tree actions deltaTime observe (enoughSteps tree) ⟨[], .enter index, world, seen⟩).getD
      ⟨.failure, world, seen⟩

/-- Evaluates the subtree under `root` once. -/
def tick (tree : BakedTree) (actions : ActionTable ε) (root : Int32) (deltaTime : Float32)
    (world : World ε) : Status × World ε :=
  let outcome := tree.tickReporting actions root deltaTime world (fun _ _ seen => seen) ()
  (outcome.status, outcome.world)

end BakedTree

end BehaviorTree
