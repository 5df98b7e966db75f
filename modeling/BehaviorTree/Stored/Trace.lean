import BehaviorTree.Stored.Tree
import BehaviorTree.Tick.Trace

/-! # Stored traces -/

namespace BehaviorTree

open Json

namespace TraceEntry

/-- The stored form of an entry. -/
def toDocument (e : TraceEntry) : Document :=
  .record [("index", .int e.index), ("state", e.status.toDocument)]

/-- How an entry is read. -/
def shape : Shape Decoder TraceEntry :=
  { name := "TraceEntry"
    start := ⟨0, .success⟩
    fields :=
      [ { name := "index"
          store := fun v => do
            let index ← Decoder.index v
            pure ({ · with index }) }
      , { name := "state"
          store := fun v => do
            let status ← Status.decoder v
            pure ({ · with status }) } ] }

end TraceEntry

namespace Trace

/-- The stored form of a trace. -/
def toDocument (t : Trace) : Document :=
  .record [("entries", .list (t.entries.toList.map (·.toDocument)))]

/-- How a trace is read. -/
def shape : Shape Decoder Trace :=
  { name := "Trace"
    start := .empty
    fields :=
      [ { name := "entries"
          store := fun v => do
            let entries ← Decoder.array (Decoder.record TraceEntry.shape) v
            pure fun _ => ⟨entries⟩ } ] }

/-- Reads a trace. -/
def decoder : Decoder Trace := Decoder.record shape

end Trace

end BehaviorTree
