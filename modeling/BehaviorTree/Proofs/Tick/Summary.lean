import Mathlib
import BehaviorTree.Tick.Trace

/-!
# What a summary counts and names

A history is the calls on a trace, oldest first; `Trace.ofCalls` makes them on an empty one, and
the entries are then what was pushed since the trace was cleared last (`Trace.pushedLast_ofCalls`).

The table of last statuses holds for every node what a scan of the entries from the back finds
(`Trace.getElem?_finalStatuses`), so a summary counts each node once (`Trace.encard_statusOf?`,
`Trace.countFinal_add`). The nodes it names as running are those of the first and of the last
running entry (`FirstOf`, `LastOf`), whatever status they are given later: `Trace.IsSummary` says
all this of a summary, and `Trace.summary_exact` of what any calls leave.
-/

namespace BehaviorTree

/-! ## First and last entries -/

/-- Among the entries of which `p` holds, this one is the first. -/
def FirstOf (p : TraceEntry → Prop) (es : List TraceEntry) (e : TraceEntry) : Prop :=
  ∃ before after, es = before ++ e :: after ∧ p e ∧ ∀ e' ∈ before, ¬ p e'

/-- Among the entries of which `p` holds, this one is the last. -/
def LastOf (p : TraceEntry → Prop) (es : List TraceEntry) (e : TraceEntry) : Prop :=
  ∃ before after, es = before ++ e :: after ∧ p e ∧ ∀ e' ∈ after, ¬ p e'

section
variable {p : TraceEntry → Prop} {es : List TraceEntry} {e : TraceEntry}

theorem FirstOf.mem (h : FirstOf p es e) : e ∈ es := by
  obtain ⟨before, after, rfl, -⟩ := h
  simp

theorem LastOf.holds (h : LastOf p es e) : p e := by
  obtain ⟨-, -, -, he, -⟩ := h
  exact he

theorem LastOf.mem (h : LastOf p es e) : e ∈ es := by
  obtain ⟨before, after, rfl, -⟩ := h
  simp

theorem lastOf_of_getLast? (h : es.getLast? = some e) (he : p e) : LastOf p es e := by
  obtain ⟨before, rfl⟩ := List.getLast?_eq_some_iff.1 h
  exact ⟨before, [], rfl, he, by simp⟩

theorem firstOf_reverse : FirstOf p es.reverse e ↔ LastOf p es e := by
  constructor
  · rintro ⟨before, after, hes, he, hbefore⟩
    refine ⟨after.reverse, before.reverse, ?_, he, by simpa using hbefore⟩
    simpa using congrArg List.reverse hes
  · rintro ⟨before, after, rfl, he, hafter⟩
    exact ⟨after.reverse, before.reverse, by simp, he, by simpa using hafter⟩

theorem find?_eq_some_iff_firstOf [DecidablePred p] : es.find? (p ·) = some e ↔ FirstOf p es e := by
  simp only [List.find?_eq_some_iff_append, FirstOf, decide_eq_true_eq, Bool.not_eq_true',
    decide_eq_false_iff_not]
  constructor
  · rintro ⟨he, before, after, hes, hbefore⟩
    exact ⟨before, after, hes, he, hbefore⟩
  · rintro ⟨before, after, hes, he, hbefore⟩
    exact ⟨he, before, after, hes, hbefore⟩

/-- A scan from the back finds the last entry. -/
theorem find?_reverse_eq_some_iff_lastOf [DecidablePred p] :
    es.reverse.find? (p ·) = some e ↔ LastOf p es e := by
  rw [find?_eq_some_iff_firstOf, firstOf_reverse]

end

namespace Trace

/-! ## Calls -/

/-- A call on a trace. -/
inductive Call
  | push (index : Nat) (status : Status)
  | clear

/-- The trace after a call. -/
def call (t : Trace) : Call → Trace
  | .push index status => t.push index status
  | .clear => empty

/-- The trace after calls, the first of them on an empty one. -/
def ofCalls (calls : List Call) : Trace := calls.foldl call empty

/-- The entries are what the calls have pushed since the last one that cleared. -/
def PushedLast (calls : List Call) (es : List TraceEntry) : Prop :=
  ∃ before, calls = before ++ es.map (fun e => .push e.index e.status) ∧
    ∀ c ∈ before.getLast?, c = .clear

theorem ofCalls_concat (calls : List Call) (c : Call) :
    ofCalls (calls ++ [c]) = (ofCalls calls).call c := by
  simp [ofCalls]

@[simp] theorem entries_push (t : Trace) (i : Nat) (status : Status) :
    (t.push i status).entries.toList = t.entries.toList ++ [⟨i, status⟩] := by
  simp [push]

theorem pushedLast_ofCalls (calls : List Call) :
    PushedLast calls (ofCalls calls).entries.toList := by
  induction calls using List.reverseRecOn with
  | nil => exact ⟨[], rfl, by simp⟩
  | append_singleton calls c ih =>
    rw [ofCalls_concat]
    cases c with
    | push i status =>
      obtain ⟨before, hcalls, hclear⟩ := ih
      refine ⟨before, ?_, hclear⟩
      simp [call, ← List.append_assoc, ← hcalls]
    | clear => exact ⟨calls ++ [.clear], by simp [call, empty], by simp⟩

/-- Every trace is made by pushing. -/
@[elab_as_elim]
theorem induct {P : Trace → Prop} (empty : P .empty)
    (push : ∀ t i status, P t → P (t.push i status)) : ∀ t, P t := by
  rintro ⟨⟨es⟩⟩
  induction es using List.reverseRecOn with
  | nil => exact empty
  | append_singleton es e ih =>
    have h := push ⟨⟨es⟩⟩ e.index e.status ih
    simpa [Trace.push] using h

/-! ## Last statuses -/

variable (t : Trace)

theorem statusOf?_push (i : Nat) (status : Status) (j : Nat) :
    (t.push i status).statusOf? j = if i = j then some status else t.statusOf? j := by
  by_cases h : i = j <;> simp [statusOf?, h]

/-- The last status of a node is that of its last entry. -/
theorem statusOf?_eq_some_iff (i : Nat) (status : Status) :
    t.statusOf? i = some status ↔ LastOf (·.index = i) t.entries.toList ⟨i, status⟩ := by
  simp only [statusOf?, Option.map_eq_some_iff, find?_reverse_eq_some_iff_lastOf]
  constructor
  · rintro ⟨⟨j, status⟩, he, rfl⟩
    cases he.holds
    exact he
  · exact fun h => ⟨_, h, rfl⟩

theorem isSome_statusOf? (i : Nat) :
    (t.statusOf? i).isSome ↔ i ∈ t.entries.toList.map (·.index) := by
  simp [statusOf?]

theorem finalStatuses_push (i : Nat) (status : Status) :
    (t.push i status).finalStatuses = t.finalStatuses.insert i status := by
  simp [finalStatuses, push]

/-- What was inserted last under a node is the status that the scan from the back finds. -/
theorem getElem?_finalStatuses (i : Nat) : t.finalStatuses[i]? = t.statusOf? i := by
  induction t using induct with
  | empty => simp [finalStatuses, statusOf?, empty]
  | push t j status ih => simp [finalStatuses_push, statusOf?_push, Std.HashMap.getElem?_insert, ih]

/-! ## Counts -/

section
open Std.DHashMap.Internal

-- the library has no lemma about `values`, so this one looks at the buckets
theorem values_eq_map_toList (m : Std.HashMap Nat Status) : m.values = m.toList.map (·.2) := by
  have hvalues : m.values = Std.Internal.List.values (toListModel m.inner.1.buckets) :=
    Raw.values_eq_values_toListModel
  have hlist : m.toList = (toListModel m.inner.1.buckets).map fun e => (e.1, e.2) :=
    Raw.Const.toList_eq_toListModel_map
  rw [hvalues, hlist, List.map_map, Std.Internal.List.values_eq_map]
  rfl

end

/-- A status is counted as often as there are keys that hold it. -/
theorem encard_getElem? (m : Std.HashMap Nat Status) (status : Status) :
    {i : Nat | m[i]? = some status}.encard = m.values.count status := by
  have hnodup : ((m.toList.filter (·.2 = status)).map (·.1)).Nodup := by
    have hkeys : (m.toList.map (·.1)).Nodup := by
      rw [Std.HashMap.map_fst_toList_eq_keys]
      exact Std.HashMap.nodup_keys
    exact hkeys.sublist (List.filter_sublist.map _)
  have hset : {i : Nat | m[i]? = some status} =
      ((m.toList.filter (·.2 = status)).map (·.1)).toFinset := by
    ext i
    simp only [Set.mem_ofPred_eq, List.coe_toFinset, List.mem_map, List.mem_filter,
      decide_eq_true_eq, ← Std.HashMap.mem_toList_iff_getElem?_eq_some]
    constructor
    · exact fun h => ⟨_, ⟨h, rfl⟩, rfl⟩
    · rintro ⟨⟨j, status⟩, ⟨h, rfl⟩, rfl⟩
      exact h
  rw [hset, Set.encard_coe_eq_coe_finsetCard, List.toFinset_card_of_nodup hnodup, List.length_map,
    values_eq_map_toList, List.count_eq_length_filter, List.filter_map, List.length_map]
  rfl

theorem encard_statusOf? (status : Status) :
    {i | t.statusOf? i = some status}.encard = t.countFinal status := by
  simp only [← getElem?_finalStatuses]
  exact encard_getElem? t.finalStatuses status

theorem count_statuses (statuses : List Status) :
    statuses.count .success + statuses.count .failure + statuses.count .running =
      statuses.length := by
  induction statuses with
  | nil => rfl
  | cons status statuses ih =>
    cases status <;> simp <;> omega

/-- Together the counts are the number of nodes with an entry. -/
theorem countFinal_add :
    t.countFinal .success + t.countFinal .failure + t.countFinal .running =
      (t.entries.toList.map (·.index)).toFinset.card := by
  have hkeys : t.finalStatuses.keys.toFinset = (t.entries.toList.map (·.index)).toFinset := by
    ext i
    rw [List.mem_toFinset, List.mem_toFinset, Std.HashMap.mem_keys, ← isSome_statusOf?,
      ← getElem?_finalStatuses, Std.HashMap.mem_iff_isSome_getElem?]
  calc
    _ = t.finalStatuses.values.length := count_statuses _
    _ = t.finalStatuses.keys.length := by
      rw [values_eq_map_toList, ← Std.HashMap.map_fst_toList_eq_keys, List.length_map,
        List.length_map]
    _ = _ := by rw [← hkeys, List.toFinset_card_of_nodup Std.HashMap.nodup_keys]

/-! ## Running nodes -/

theorem runningIndices_push (i : Nat) (status : Status) :
    (t.push i status).runningIndices =
      t.runningIndices ++ if status = .running then [i] else [] := by
  by_cases h : status = .running <;> simp [runningIndices, h]

theorem map_index_eq_some_iff {o : Option TraceEntry} (h : ∀ e ∈ o, e.status = .running) (i : Nat) :
    o.map (·.index) = some i ↔ o = some ⟨i, .running⟩ := by
  rw [Option.map_eq_some_iff]
  constructor
  · rintro ⟨⟨j, status⟩, ho, rfl⟩
    rw [ho, ← h _ ho]
  · exact fun ho => ⟨_, ho, rfl⟩

theorem head?_runningIndices (i : Nat) :
    t.runningIndices.head? = some i ↔
      FirstOf (·.status = .running) t.entries.toList ⟨i, .running⟩ := by
  rw [runningIndices, List.head?_map, List.head?_filter, map_index_eq_some_iff,
    find?_eq_some_iff_firstOf]
  exact fun e he => by simpa using List.find?_some he

theorem getLast?_runningIndices (i : Nat) :
    t.runningIndices.getLast? = some i ↔
      LastOf (·.status = .running) t.entries.toList ⟨i, .running⟩ := by
  rw [runningIndices, List.getLast?_map, List.getLast?_filter, map_index_eq_some_iff,
    find?_reverse_eq_some_iff_lastOf]
  exact fun e he => by simpa using List.find?_some he

theorem runningIndices_eq_nil_iff :
    t.runningIndices = [] ↔ ∀ e ∈ t.entries.toList, e.status ≠ .running := by
  simp [runningIndices]

/-! ## Summaries -/

/-- The summary counts every node once, by its last status, and names the nodes of the first and
of the last running entry. -/
structure IsSummary (s : TraceSummary) : Prop where
  success : {i | t.statusOf? i = some .success}.encard = s.success
  failure : {i | t.statusOf? i = some .failure}.encard = s.failure
  running : {i | t.statusOf? i = some .running}.encard = s.running
  nodes : s.success + s.failure + s.running = (t.entries.toList.map (·.index)).toFinset.card
  runningLeaf : ∀ i, s.runningLeaf = some i ↔
    FirstOf (·.status = .running) t.entries.toList ⟨i, .running⟩
  lastRunning : ∀ i, s.lastRunning = some i ↔
    LastOf (·.status = .running) t.entries.toList ⟨i, .running⟩
  noLeaf : s.runningLeaf = none ↔ ∀ e ∈ t.entries.toList, e.status ≠ .running
  noLast : s.lastRunning = none ↔ ∀ e ∈ t.entries.toList, e.status ≠ .running

theorem isSummary_summary : t.IsSummary t.summary where
  success := t.encard_statusOf? .success
  failure := t.encard_statusOf? .failure
  running := t.encard_statusOf? .running
  nodes := t.countFinal_add
  runningLeaf := t.head?_runningIndices
  lastRunning := t.getLast?_runningIndices
  noLeaf := List.head?_eq_none_iff.trans t.runningIndices_eq_nil_iff
  noLast := List.getLast?_eq_none_iff.trans t.runningIndices_eq_nil_iff

/-- A node that runs and then settles is named as running and is not counted as such. -/
theorem summary_resettled (i : Nat) {status : Status} (h : status ≠ .running) :
    let s := ((t.push i .running).push i status).summary
    s.lastRunning = some i ∧ s.runningLeaf = t.summary.runningLeaf.or (some i) ∧
      {j | j ≠ i ∧ t.statusOf? j = some .running}.encard = s.running := by
  have hindices : ((t.push i .running).push i status).runningIndices = t.runningIndices ++ [i] := by
    simp [runningIndices_push, h]
  intro s
  refine ⟨?_, ?_, ?_⟩
  · simp [s, summary, hindices]
  · simp [s, summary, hindices]
  · have hcounted : {j | j ≠ i ∧ t.statusOf? j = some .running} =
        {j | ((t.push i .running).push i status).statusOf? j = some .running} := by
      ext j
      by_cases hj : i = j <;> simp [statusOf?_push, hj, h, eq_comm]
    rw [hcounted]
    exact encard_statusOf? _ .running

/-- After any calls, the entries are what was pushed since the trace was cleared last, the last
status of a node is that of its last entry, and the summary counts and names the nodes by these. A
node that runs and then settles may be named as running, and is not counted as such. -/
theorem summary_exact (calls : List Call) :
    let t := ofCalls calls
    PushedLast calls t.entries.toList ∧
    (∀ i status, t.statusOf? i = some status ↔
      LastOf (·.index = i) t.entries.toList ⟨i, status⟩) ∧
    t.IsSummary t.summary ∧
    ∀ i status, status ≠ .running →
      let s := (ofCalls (calls ++ [.push i .running, .push i status])).summary
      s.lastRunning = some i ∧ s.runningLeaf = t.summary.runningLeaf.or (some i) ∧
        {j | j ≠ i ∧ t.statusOf? j = some .running}.encard = s.running := by
  intro t
  refine ⟨pushedLast_ofCalls calls, t.statusOf?_eq_some_iff, t.isSummary_summary, ?_⟩
  intro i status h
  have hcalls : ofCalls (calls ++ [.push i .running, .push i status]) =
      (t.push i .running).push i status := by
    simp [ofCalls, call, t]
  rw [hcalls]
  exact t.summary_resettled i h

/-- `summary_exact` after a trace was cleared, for a node that fails, runs and then succeeds. -/
theorem summary_exact_resettled :
    let calls : List Call :=
      [.push 9 .running, .clear, .push 3 .failure, .push 4 .running, .push 1 .running]
    let t := ofCalls calls
    let s := (ofCalls (calls ++ [.push 3 .running, .push 3 .success])).summary
    Status.success ≠ .running ∧ PushedLast calls t.entries.toList ∧ t.IsSummary t.summary ∧
      s.lastRunning = some 3 ∧ s.runningLeaf = some 4 ∧
      {j | j ≠ 3 ∧ t.statusOf? j = some .running}.encard = s.running := by
  intro calls t s
  have hstatus : Status.success ≠ .running := by decide
  have hleaf : t.summary.runningLeaf = some 4 := by decide +kernel
  obtain ⟨hpushed, -, hsummary, hresettled⟩ := summary_exact calls
  obtain ⟨hlast, hfirst, hcounted⟩ := hresettled 3 .success hstatus
  exact ⟨hstatus, hpushed, hsummary, hlast, hfirst.trans (by rw [hleaf]; rfl), hcounted⟩

end Trace

end BehaviorTree
