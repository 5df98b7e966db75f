import BehaviorTree.Proofs.Memory.History
import BehaviorTree.Proofs.Tick.Footprint
import BehaviorTree.Stored.Blackboard

/-!
# An armed key interrupts once

A node of kind interrupt watches its key when it is entered (`Move.WatchesAt`), and fires if the key
reads non-zero (`watched`). Where no action, no other node and no counter writes the key, the values
under it only run down (`Dwindles`): none is replaced but by 0. So there are no more firings than
non-zero values to begin with, and after the first watch the key reads 0 for ever
(`interrupt_fires_once`). The latter is not so in a memory that holds the key twice, as a stored one
may, where a node removes the key: it arms the guards again (`interrupt_fires_twice`).
-/

namespace BehaviorTree

open Machine

/-! ## Values that run down -/

/-- Values under a key go over into others without one that is new and not 0; the first is only
dropped if `erased` holds. -/
inductive Dwindles (erased : Prop) : List Float32 → List Float32 → Prop
  | same (vs : List Float32) : Dwindles erased vs vs
  | zeroed (vs : List Float32) : Dwindles erased vs (0 :: vs.tail)
  | dropped (h : erased) (vs : List Float32) : Dwindles erased vs vs.tail
  | gone (vs : List Float32) : Dwindles erased vs []

namespace Dwindles

variable {erased : Prop} {vs vs' : List Float32}

theorem length_le_one (h : Dwindles erased vs vs') (hone : vs.length ≤ 1) : vs'.length ≤ 1 := by
  cases h with
  | same => exact hone
  | zeroed =>
    rw [List.length_cons, List.length_tail]
    omega
  | dropped =>
    rw [List.length_tail]
    omega
  | gone => exact Nat.zero_le 1

theorem countP_le (h : Dwindles erased vs vs') : vs'.countP (· != 0) ≤ vs.countP (· != 0) := by
  have htail : vs.tail.countP (· != 0) ≤ vs.countP (· != 0) := (List.tail_sublist vs).countP_le
  cases h with
  | same => exact Nat.le_refl _
  | zeroed =>
    rw [List.countP_cons_of_neg (by decide)]
    exact htail
  | dropped => exact htail
  | gone => exact Nat.zero_le _

/-- What reads 0 still does; a value that is dropped must not uncover another. -/
theorem head_eq_zero (h : Dwindles erased vs vs') (hone : erased → vs.length ≤ 1)
    (hzero : vs.head?.getD 0 == 0) : vs'.head?.getD 0 == 0 := by
  cases h with
  | same => exact hzero
  | zeroed =>
    rw [List.head?_cons]
    decide
  | dropped herased =>
    have hnil : vs.tail = [] := by
      have hlen := hone herased
      rw [← List.length_eq_zero_iff, List.length_tail]
      omega
    rw [hnil]
    decide
  | gone => decide

/-- To zero the first value takes a non-zero value away if it was one. -/
theorem countP_zeroed_lt (h : vs.head?.getD 0 != 0) :
    (0 :: vs.tail).countP (· != 0) < vs.countP (· != 0) := by
  cases vs with
  | nil => exact absurd h (by decide)
  | cons v vs =>
    rw [List.head?_cons, Option.getD_some] at h
    rw [List.tail_cons, List.countP_cons_of_neg (by decide),
      List.countP_cons_of_pos (p := (· != 0)) h]
    exact Nat.lt_succ_self _

end Dwindles

/-! ## Watching a key -/

variable {ε : Type} {t : BakedTree} {root : Int32} {key : Key}

namespace Machine

/-- The step enters a node that is an interrupt with the key and has a child. -/
structure Move.WatchesAt (m : Move ε) (t : BakedTree) (key : Key) (i : Nat) : Prop where
  entered : m.before.phase = .enter i
  guards : ∃ n, t.get? i = some n ∧ n.kind = .interrupt ∧ n.key = key ∧ n.firstChild? ≠ none

/-- The step enters an interrupt with the key. -/
def Move.Watches (m : Move ε) (t : BakedTree) (key : Key) : Prop := ∃ i, m.WatchesAt t key i

/-- The step enters an interrupt with the key, which settles as a failure without its child. -/
def Move.Fires (m : Move ε) (t : BakedTree) (key : Key) : Prop :=
  ∃ i, m.WatchesAt t key i ∧ m.after.phase = .report i .failure

theorem Move.Fires.watches {m : Move ε} (h : m.Fires t key) : m.Watches t key :=
  let ⟨i, hwatch, _⟩ := h
  ⟨i, hwatch⟩

/-- A node that watches a key fires if the key reads non-zero, and then the key is 0; else its child
is entered and memory stays. -/
theorem watched {actions : ActionTable ε} {dt : Float32} {m : Move ε} (h : m.Watches t key)
    (hkey : key ≠ 0) (hs : step t actions dt unobserved m.before = .inl m.after) :
    (m.Fires t key ↔ m.memory.get key != 0) ∧
      m.memoryAfter = if m.memory.get key != 0 then m.memory.set key 0 else m.memory := by
  obtain ⟨i, hwatch⟩ := h
  obtain ⟨n, hn, hk, rfl, hchild⟩ := hwatch.guards
  obtain ⟨c, hc⟩ := Option.ne_none_iff_exists'.1 hchild
  obtain ⟨⟨stack, phase, w, seen⟩, after⟩ := m
  obtain rfl : phase = .enter i := hwatch.entered
  by_cases hread : w.get n.key != 0
  · cases hs.symm.trans (Stepped.settled hn (enter_armed hk hc ⟨hkey, hread⟩ i)).step_eq
    exact ⟨iff_of_true ⟨i, hwatch, rfl⟩ hread, (if_pos hread).symm⟩
  · cases hs.symm.trans (Stepped.opened hn (enter_unarmed hk hc (fun h => hread h.2) i)).step_eq
    refine ⟨iff_of_false ?_ hread, (if_neg hread).symm⟩
    rintro ⟨j, -, hphase⟩
    cases hphase

end Machine

/-! ## Steps that do not arm a key -/

/-- No registered action changes the values under a key. -/
def ActionTable.Spares (actions : ActionTable ε) (key : Key) : Prop :=
  actions.Keeps fun b b' => b'.values.under key = b.values.under key

/-- No setting node and no counter of a repeater below the root writes the key. -/
def BakedTree.Spares (t : BakedTree) (root : Int32) (key : Key) : Prop :=
  ∀ i n, t.Below root i n → n.kind = .setBlackboard ∨ n.kind = .repeater → n.ownKey? ≠ some key

theorem Machine.Effect.dwindles {actions : ActionTable ε} {dt : Float32} {w w' : World ε}
    (h : Effect t root actions dt w w') (hactions : actions.Spares key)
    (hnodes : t.Spares root key) :
    Dwindles (t.Clears root key) (w.blackboard.values.under key)
      (w'.blackboard.values.under key) := by
  have hother : ∀ {other value}, other ≠ key →
      Dwindles (t.Clears root key) (w.blackboard.values.under key)
        ((w.blackboard.values.set other value).under key) := by
    intro other value hne
    rw [Table.under_set, if_neg hne]
    exact .same _
  cases h with
  | unchanged w => exact .same _
  | @acted i n hbelow hk w =>
    have heq : (actions.execute n.actionKey n ⟨i, dt⟩ w).2.blackboard.values.under key =
        w.blackboard.values.under key := hactions.execute (fun _ => rfl) ..
    rw [heq]
    exact .same _
  | set hbelow hk w =>
    refine hother fun heq => hnodes _ _ hbelow (.inl hk) ?_
    simp [BakedNode.ownKey?, hk, heq]
  | @erased i n hbelow hk w =>
    show Dwindles _ _ ((w.blackboard.values.erase n.key).under key)
    rw [Table.under_erase]
    split
    · rename_i heq
      subst heq
      exact .dropped ⟨i, n, hbelow, hk, rfl⟩ _
    · exact .same _
  | cleared hbelow hk hzero w => exact .gone _
  | @fired i n hbelow hk w =>
    show Dwindles _ _ ((w.blackboard.values.set n.key 0).under key)
    rw [Table.under_set]
    split
    · rename_i heq
      subst heq
      exact .zeroed _
    · exact .same _
  | counted hbelow hk hchild count w =>
    refine hother fun heq => hnodes _ _ hbelow (.inr hk) ?_
    simp [BakedNode.ownKey?, hk, hchild, heq]

namespace BakedTree

variable {nodes : Array BakedNode} {ids : Array IdEntry}

theorem dwindles_of_mem {rounds : List (Round ε)} (hactions : ∀ r ∈ rounds, r.actions.Spares key)
    (hnodes : t.Spares root key) {b : Blackboard} {m : Move ε}
    (hm : m ∈ t.movesOfRounds root b rounds) :
    Dwindles (t.Clears root key) (m.memory.values.under key) (m.memoryAfter.values.under key) := by
  obtain ⟨hconfined, r, hr, hstep⟩ := step_of_mem_moves hm
  exact (step_effect hconfined hstep).dwindles (hactions r hr) hnodes

theorem watched_of_mem {rounds : List (Round ε)} (hkey : key ≠ 0) {b : Blackboard} {m : Move ε}
    (hm : m ∈ t.movesOfRounds root b rounds) (hwatch : m.Watches t key) :
    (m.Fires t key ↔ m.memory.get key != 0) ∧
      m.memoryAfter = if m.memory.get key != 0 then m.memory.set key 0 else m.memory := by
  obtain ⟨-, r, -, hstep⟩ := step_of_mem_moves hm
  exact watched hwatch hkey hstep

/-- A step that fires takes one of the non-zero values away. -/
theorem countP_lt_of_fires {rounds : List (Round ε)} (hkey : key ≠ 0) {b : Blackboard} {m : Move ε}
    (hm : m ∈ t.movesOfRounds root b rounds) (hfires : m.Fires t key) :
    (m.memoryAfter.values.under key).countP (· != 0) <
      (m.memory.values.under key).countP (· != 0) := by
  obtain ⟨hiff, hafter⟩ := watched_of_mem hkey hm hfires.watches
  have hread := hiff.1 hfires
  have hset : m.memoryAfter.values.under key = 0 :: (m.memory.values.under key).tail := by
    rw [hafter, if_pos hread]
    show (m.memory.values.set key 0).under key = _
    rw [Table.under_set, if_pos rfl]
  rw [Blackboard.get_eq_head] at hread
  rw [hset]
  exact Dwindles.countP_zeroed_lt hread

/-- A list with a member that has a property splits at the first such member. -/
theorem exists_first {α : Type} {P : α → Prop} {xs : List α} (h : ∃ x ∈ xs, P x) :
    ∃ before x after, xs = before ++ x :: after ∧ P x ∧ ∀ y ∈ before, ¬ P y := by
  classical
  cases hfind : xs.find? (P ·) with
  | none =>
    obtain ⟨x, hx, hP⟩ := h
    simpa [hP] using List.find?_eq_none.1 hfind x hx
  | some x =>
    obtain ⟨hP, before, after, rfl, hbefore⟩ := List.find?_eq_some_iff_append.1 hfind
    exact ⟨before, x, after, rfl, by simpa using hP, fun y hy => by simpa using hbefore y hy⟩

/-- The key reads 0, and removing it uncovers no other value. -/
structure Disarmed (t : BakedTree) (root : Int32) (key : Key) (b : Blackboard) : Prop where
  single : t.Clears root key → b.values.Single key
  zero : b.get key == 0

theorem Disarmed.step {b b' : Blackboard} (h : t.Disarmed root key b)
    (hd : Dwindles (t.Clears root key) (b.values.under key) (b'.values.under key)) :
    t.Disarmed root key b' where
  single hclears := hd.length_le_one (h.single hclears)
  zero := by
    have hzero := h.zero
    rw [Blackboard.get_eq_head] at hzero ⊢
    exact hd.head_eq_zero h.single hzero

/-- A step that watches a key leaves it disarmed, whether it fires or not. -/
theorem disarmed_of_watches {rounds : List (Round ε)} (hkey : key ≠ 0)
    (hactions : ∀ r ∈ rounds, r.actions.Spares key) (hnodes : t.Spares root key) {b : Blackboard}
    {m : Move ε} (hm : m ∈ t.movesOfRounds root b rounds) (hwatch : m.Watches t key)
    (hone : t.Clears root key → m.memory.values.Single key) :
    t.Disarmed root key m.memoryAfter where
  single hclears := (dwindles_of_mem hactions hnodes hm).length_le_one (hone hclears)
  zero := by
    rw [(watched_of_mem hkey hm hwatch).2]
    split
    · rw [Blackboard.get_set_self]
      decide
    · rename_i hread
      simpa [bne] using hread

theorem not_fires_of_zero {rounds : List (Round ε)} (hkey : key ≠ 0) {b : Blackboard} {m : Move ε}
    (hm : m ∈ t.movesOfRounds root b rounds) (hzero : m.memory.get key == 0) :
    ¬ m.Fires t key := by
  intro hfires
  have hread := (watched_of_mem hkey hm hfires.watches).1.1 hfires
  simp [bne, hzero] at hread

/-- Let no action, no setting node and no counter write a key other than 0. Then over any number of
ticks no more interrupts with the key fire than there are non-zero values under it, and only the
first one that watches it may fire: it does if the key reads non-zero at that moment, and from then
on the key reads 0. Where a node removes the key, the latter needs that there is one value at most
under it, as in every memory that calls have made (`Blackboard.single_ofCalls`): to remove it must
not uncover another. -/
theorem interrupt_fires_once (ht : ofNodes nodes ids = .ok t) (root : Int32) (hkey : key ≠ 0)
    {rounds : List (Round ε)} (hactions : ∀ r ∈ rounds, r.actions.Spares key)
    (hnodes : t.Spares root key) (b : Blackboard) :
    let ms := t.movesOfRounds root b rounds
    (∀ fs : List (Move ε), fs.Sublist ms → (∀ m ∈ fs, m.Fires t key) →
      fs.length ≤ (b.values.under key).countP (· != 0)) ∧
    ((t.Clears root key → b.values.Single key) →
      (∀ m ∈ ms, ¬ m.Watches t key) ∨
      ∃ before m after, ms = before ++ m :: after ∧ (∀ m' ∈ before, ¬ m'.Watches t key) ∧
        m.Watches t key ∧ (m.Fires t key ↔ m.memory.get key != 0) ∧
        (∀ m' ∈ after, ¬ m'.Fires t key ∧ m'.memory.get key == 0) ∧
        (t.afterRounds root b rounds).get key == 0) := by
  have hf : IsForest t.nodes := forest_of_ofNodes ht
  intro ms
  have htrail : Trail b ms (t.afterRounds root b rounds) := trail_of_rounds hf root b rounds
  have hdwindles : ∀ m ∈ ms, Dwindles (t.Clears root key) (m.memory.values.under key)
      (m.memoryAfter.values.under key) := fun m hm => dwindles_of_mem hactions hnodes hm
  constructor
  · intro fs hsub hfires
    have hle := htrail.length_add_le (fun b => (b.values.under key).countP (· != 0))
      (fun m hm => (hdwindles m hm).countP_le)
      (fun m hm hfire => countP_lt_of_fires hkey hm hfire) hsub hfires
    omega
  · intro hone
    by_cases hwatch : ∃ m ∈ ms, m.Watches t key
    · right
      obtain ⟨before, m, after, hms, hm, hbefore⟩ := exists_first hwatch
      have hmem : ∀ m' ∈ before ++ m :: after, m' ∈ ms := fun m' hm' => hms ▸ hm'
      rw [hms] at htrail
      obtain ⟨htrail, htrail'⟩ := htrail.split
      have hwatched := watched_of_mem hkey (hmem m (by simp)) hm
      -- up to the first watch the key may read anything, but has one value at most
      obtain ⟨-, hsingle⟩ := htrail.keeps (P := fun b => t.Clears root key → b.values.Single key)
        (fun m' hm' hb hclears =>
          (hdwindles m' (hmem m' (by simp [hm']))).length_le_one (hb hclears)) hone
      have hdisarmed : t.Disarmed root key m.memoryAfter :=
        disarmed_of_watches hkey hactions hnodes (hmem m (by simp)) hm hsingle
      obtain ⟨hafter, hend⟩ := htrail'.keeps
        (fun m' hm' hb => hb.step (hdwindles m' (hmem m' (by simp [hm'])))) hdisarmed
      refine ⟨before, m, after, hms, hbefore, hm, hwatched.1, fun m' hm' => ?_, hend.zero⟩
      have hzero := (hafter m' hm').zero
      exact ⟨not_fires_of_zero hkey (hmem m' (by simp [hm'])) hzero, hzero⟩
    · left
      exact fun m hm hw => hwatch ⟨m, hm, hw⟩

/-- Two guards of one key, with leaves below them, before a leaf that removes the key. -/
def alarms : BakedTree where
  nodes := #[
    { BakedNode.ofKind .parallel with firstChild := 1 },
    { BakedNode.interrupt 7 with firstChild := 2, nextSibling := 3 },
    .setBlackboard 8 1,
    { BakedNode.interrupt 7 with firstChild := 4, nextSibling := 5 },
    .action 5,
    .clearBlackboard 7]
  ids := #[⟨"root", 0⟩]

theorem spares_counting : counting.Spares 7 :=
  ActionTable.keeps_empty.registerKey (fun _ _ _ => rfl) 5

theorem spares_of_nodes (h : ∀ n ∈ t.nodes, n.kind = .setBlackboard ∨ n.kind = .repeater →
    n.ownKey? ≠ some key) (root : Int32) : t.Spares root key :=
  fun _ n hbelow => h n (Array.mem_of_getElem? hbelow.record)

/-- `interrupt_fires_once` for `alarms`, armed before two ticks. -/
theorem interrupt_fires_once_alarms :
    let rounds : List (Round Nat) := [⟨counting, 0.5, 0⟩, ⟨counting, 0.25, 0⟩]
    let b := Blackboard.empty.set 7 1
    let ms := alarms.movesOfRounds 0 b rounds
    ofNodes alarms.nodes alarms.ids = .ok alarms ∧ (7 : Key) ≠ 0 ∧
      (∀ r ∈ rounds, r.actions.Spares 7) ∧ alarms.Spares 0 7 ∧ b.values.Single 7 ∧
      (∀ fs : List (Move Nat), fs.Sublist ms → (∀ m ∈ fs, m.Fires alarms 7) → fs.length ≤ 1) ∧
      (alarms.afterRounds 0 b rounds).get 7 == 0 := by
  intro rounds b ms
  have ht : ofNodes alarms.nodes alarms.ids = .ok alarms := by cbv
  have hkey : (7 : Key) ≠ 0 := by decide
  have hactions : ∀ r ∈ rounds, r.actions.Spares 7 := by simp [rounds, spares_counting]
  have hnodes : alarms.Spares 0 7 := spares_of_nodes (by decide) 0
  have hone : b.values.Single 7 := Blackboard.single_ofCalls [.set .number 7 1] .number 7
  obtain ⟨hcount, hfirst⟩ := interrupt_fires_once ht 0 hkey hactions hnodes b
  -- the second step enters the first guard
  obtain ⟨m, hm, hphase⟩ : ∃ m, ms[1]? = some m ∧ m.before.phase = .enter 1 :=
    Option.map_eq_some_iff.1 (by decide +kernel : ms[1]?.map (·.before.phase) = some (.enter 1))
  have hwatch : m.Watches alarms 7 := ⟨1, hphase, _, rfl, rfl, rfl, by decide⟩
  rcases hfirst fun _ => hone with hnone | ⟨before, first, after, -, -, -, -, -, hend⟩
  · exact absurd hwatch (hnone m (List.mem_of_getElem? hm))
  · exact ⟨ht, hkey, hactions, hnodes, hone, hcount, hend⟩

/-- A guard of key 7 before a leaf that removes the key. -/
def guardedOnce : BakedTree where
  nodes := #[
    { BakedNode.ofKind .parallel with firstChild := 1 },
    { BakedNode.interrupt 7 with firstChild := 2, nextSibling := 3 },
    .setBlackboard 8 1,
    .clearBlackboard 7]
  ids := #[]

/-- The stored form of a memory that holds key 7 twice. -/
def storedTwice : String :=
  "\x7b\"values\":\x7b\"entries\":["
    ++ "\x7b\"key_hash\":7,\"value\":1.0\x7d,\x7b\"key_hash\":7,\"value\":1.0\x7d"
    ++ "]\x7d,\"bools\":\x7b\"entries\":[]\x7d,\"ints\":\x7b\"entries\":[]\x7d,"
    ++ "\"vectors\":\x7b\"entries\":[]\x7d,\"entities\":\x7b\"entries\":[]\x7d\x7d"

/-- Started from a memory that holds key 7 twice, the guard of `guardedOnce` fires in each of two
ticks, though nothing but the guard writes the key: what the last leaf removes in the first tick is
the 0 that the guard has written, and the other value stands again. -/
theorem interrupt_fires_twice :
    let rounds : List (Round Nat) := [⟨counting, 0.5, 0⟩, ⟨counting, 0.25, 0⟩]
    ∃ b, Json.decode Blackboard.decoder storedTwice = .ok b ∧
      ofNodes guardedOnce.nodes guardedOnce.ids = .ok guardedOnce ∧ (7 : Key) ≠ 0 ∧
      (∀ r ∈ rounds, r.actions.Spares 7) ∧ guardedOnce.Spares 0 7 ∧
      (guardedOnce.afterRounds 0 b (rounds.take 1)).get 7 != 0 ∧
      ∃ fs : List (Move Nat), fs.Sublist (guardedOnce.movesOfRounds 0 b rounds) ∧
        (∀ m ∈ fs, m.Fires guardedOnce 7) ∧ fs.length = 2 := by
  intro rounds
  let b : Blackboard := { values := ⟨[⟨7, 1⟩, ⟨7, 1⟩]⟩ }
  have hb : Json.decode Blackboard.decoder storedTwice = .ok b := by decide +kernel
  have ht : ofNodes guardedOnce.nodes guardedOnce.ids = .ok guardedOnce := by cbv
  have hactions : ∀ r ∈ rounds, r.actions.Spares 7 := by simp [rounds, spares_counting]
  have hnodes : guardedOnce.Spares 0 7 := spares_of_nodes (by decide) 0
  refine ⟨b, hb, ht, by decide, hactions, hnodes, by decide +kernel,
    (guardedOnce.movesOfRounds 0 b rounds).filter fun m =>
      m.before.phase = .enter 1 ∧ m.after.phase = .report 1 .failure,
    List.filter_sublist, fun m hm => ?_, by decide +kernel⟩
  obtain ⟨hentered, hfailed⟩ := of_decide_eq_true (List.mem_filter.1 hm).2
  exact ⟨1, ⟨hentered, _, rfl, rfl, rfl, by decide⟩, hfailed⟩

end BakedTree

end BehaviorTree
