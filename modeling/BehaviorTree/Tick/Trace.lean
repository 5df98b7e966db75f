import BehaviorTree.Tick.Machine

/-! # Traces

A trace is the nodes that ticks have evaluated, each with its status, in the order in which they
settled. Its summary counts every node once, by the status it was given last. -/

namespace BehaviorTree

/-- A node that settled. -/
structure TraceEntry where
  index : Nat
  status : Status
deriving DecidableEq

/-- The nodes that settled, in order. -/
structure Trace where
  entries : Array TraceEntry := #[]
deriving DecidableEq

/-- How many nodes of a trace ended with each status, and which nodes it names as running: the
innermost is the first one reported so, the outermost the last. -/
structure TraceSummary where
  success : Nat := 0
  failure : Nat := 0
  running : Nat := 0
  lastRunning : Option Nat := none
  runningLeaf : Option Nat := none
deriving DecidableEq

namespace Trace

/-- The trace without entries. -/
def empty : Trace := {}

instance : Inhabited Trace := ⟨empty⟩

/-- The trace with an entry more. -/
def push (t : Trace) (index : Nat) (status : Status) : Trace :=
  ⟨t.entries.push ⟨index, status⟩⟩

/-- How many entries there are. -/
def size (t : Trace) : Nat := t.entries.size

/-- The status that a node was given last. -/
def statusOf? (t : Trace) (index : Nat) : Option Status :=
  (t.entries.toList.reverse.find? (·.index = index)).map (·.status)

/-- The entries with the authored ids of their nodes, where the tree knows them. -/
def resolve (t : Trace) (tree : BakedTree) : List (Option String × Status) :=
  t.entries.toList.map fun e => (tree.idOf? e.index, e.status)

/-- The last status of every node. -/
def finalStatuses (t : Trace) : Std.HashMap Nat Status :=
  t.entries.foldl (fun statuses e => statuses.insert e.index e.status) ∅

/-- How many nodes ended with a status. -/
def countFinal (t : Trace) (status : Status) : Nat := t.finalStatuses.values.count status

/-- The indices of the entries that are running. -/
def runningIndices (t : Trace) : List Nat :=
  (t.entries.toList.filter (·.status = .running)).map (·.index)

/-- The summary of a trace. -/
def summary (t : Trace) : TraceSummary :=
  { success := t.countFinal .success
    failure := t.countFinal .failure
    running := t.countFinal .running
    lastRunning := t.runningIndices.getLast?
    runningLeaf := t.runningIndices.head? }

end Trace

/-- Evaluates the subtree under `root` once and adds every node that settles to a trace. -/
def BakedTree.tickTraced {ε : Type} (tree : BakedTree) (actions : ActionTable ε) (root : Int32)
    (deltaTime : Float32) (world : World ε) (trace : Trace) : Machine.Outcome ε Trace :=
  tree.tickReporting actions root deltaTime world (fun index status t => t.push index status) trace

end BehaviorTree
