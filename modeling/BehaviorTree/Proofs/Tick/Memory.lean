import BehaviorTree.Proofs.Tick.Rounds
import BehaviorTree.Proofs.Tick.Wait

/-!
# Where nodes keep their memory

A wait keeps its time under a key that is made from its index, a repeater its count under a key that
is made from the index of its child (`BakedTree.Remembers`). Up to an index of 2 ^ 30 - 1000 the
keys of waits are words below -2 ^ 30 and those of repeaters are words above, so no two nodes of a
tree have the same (`BakedTree.Remembers.eq_of_key_eq`). A step of a tick at a wait or at a repeater
changes the number under the key of that node alone (`Machine.sameBut_of_step`), and so the memory
of a node is kept by any number of ticks in which only waits and repeaters act, but not this one
(`BakedTree.memory_apart`).
-/

namespace BehaviorTree

open Machine

/-! ## Keys -/

section
variable {i j : Nat}

theorem waitTimerKey_eq (i : Nat) : waitTimerKey i = -2039137855 ^^^ Int32.ofNat i := by
  have hname : (Key.turn5 (Key.ofName "Wait").toUInt32).toInt32 + Key.ofName "Wait" =
      -2039137855 := by decide
  rw [waitTimerKey, Key.mix, hname]

theorem toNat_ofNat_of_lt (h : i < 2 ^ 32) : (Int32.ofNat i).toBitVec.toNat = i := by
  show (BitVec.ofNat 32 i).toNat = i
  rw [BitVec.toNat_ofNat, Nat.mod_eq_of_lt h]

/-- An index below 2 ^ 30 leaves the two highest bits of the word as they are: 10. -/
theorem toInt_waitTimerKey_lt (h : i < 2 ^ 30) : (waitTimerKey i).toInt < -2 ^ 30 := by
  have hhigh : ((2255829441 : Nat) ^^^ i) / 2 ^ 30 = 2 := by
    rw [Nat.xor_div_two_pow, Nat.div_eq_of_lt h]
    rfl
  have hword : (-2039137855 : Int32).toBitVec.toNat = 2255829441 := by decide
  rw [waitTimerKey_eq, ← Int32.toInt_toBitVec, Int32.toBitVec_xor, BitVec.toInt_eq_toNat_cond,
    BitVec.toNat_xor, hword, toNat_ofNat_of_lt (by omega)]
  split <;> omega

theorem waitTimerKey_inj (hi : i < 2 ^ 30) (hj : j < 2 ^ 30) (h : waitTimerKey i = waitTimerKey j) :
    i = j := by
  rw [waitTimerKey_eq, waitTimerKey_eq, Int32.xor_right_inj] at h
  have hint := congrArg Int32.toInt h
  rw [toInt_ofNat_of_lt (by omega), toInt_ofNat_of_lt (by omega)] at hint
  omega

theorem toInt_ofNat_add (h : i < 2 ^ 30 - 1000) : (Int32.ofNat i + 1000).toInt = i + 1000 := by
  have hthousand : (1000 : Int32).toInt = 1000 := by decide
  rw [Int32.toInt_add, toInt_ofNat_of_lt (by omega), hthousand]
  exact Int.bmod_eq_of_le (by omega) (by omega)

theorem toInt_repeaterCounterKey (h : i < 2 ^ 30 - 1000) :
    (repeaterCounterKey i).toInt = -(i + 1000) := by
  rw [repeaterCounterKey, Int32.toInt_neg, toInt_ofNat_add h]
  exact Int.bmod_eq_of_le (by omega) (by omega)

theorem repeaterCounterKey_inj (hi : i < 2 ^ 30 - 1000) (hj : j < 2 ^ 30 - 1000)
    (h : repeaterCounterKey i = repeaterCounterKey j) : i = j := by
  have hint := congrArg Int32.toInt h
  rw [toInt_repeaterCounterKey hi, toInt_repeaterCounterKey hj] at hint
  omega

theorem waitTimerKey_ne_repeaterCounterKey (hi : i < 2 ^ 30) (hj : j < 2 ^ 30 - 1000) :
    waitTimerKey i ≠ repeaterCounterKey j := by
  intro h
  have hlt := toInt_waitTimerKey_lt hi
  rw [h, toInt_repeaterCounterKey hj] at hlt
  omega

end

/-! ## Nodes -/

namespace BakedTree

/-- The node at `i` is a wait, or a repeater that has a child, and keeps under the key what it has
to know in the next tick. The index that the key is made from is below 2 ^ 30 - 1000. -/
inductive Remembers (t : BakedTree) (i : Nat) : Key → Prop
  | wait {n : BakedNode} (hn : t.get? i = some n) (hkind : n.kind = .action)
      (hkey : n.actionKey = Key.ofName "Wait") (hlt : i < 2 ^ 30 - 1000) :
      Remembers t i (waitTimerKey i)
  | repeater {n : BakedNode} {child : Nat} (hn : t.get? i = some n) (hkind : n.kind = .repeater)
      (hchild : n.firstChild? = some child) (hlt : child < 2 ^ 30 - 1000) :
      Remembers t i (repeaterCounterKey child)

/-- Nodes with the same key are the same node: repeaters do not share a child. -/
theorem Remembers.eq_of_key_eq {t : BakedTree} (hf : IsForest t.nodes) {i j : Nat}
    {key other : Key} (hi : t.Remembers i key) (hj : t.Remembers j other) (h : key = other) :
    i = j := by
  cases hi with
  | wait _ _ _ hlt =>
    cases hj with
    | wait _ _ _ hlt' => exact waitTimerKey_inj (by omega) (by omega) h
    | repeater _ _ _ hlt' => exact absurd h (waitTimerKey_ne_repeaterCounterKey (by omega) hlt')
  | repeater hn _ hchild hlt =>
    cases hj with
    | wait _ _ _ hlt' => exact absurd h.symm (waitTimerKey_ne_repeaterCounterKey (by omega) hlt)
    | repeater hn' _ hchild' hlt' =>
      obtain rfl := repeaterCounterKey_inj hlt hlt' h
      apply (unshared_of_nodup hf.unshared).first
      · rw [firstChildOf, show t.nodes[i]? = _ from hn]
        exact hchild
      · rw [firstChildOf, show t.nodes[j]? = _ from hn']
        exact hchild'

end BakedTree

/-! ## Steps -/

namespace Machine

variable {ε τ : Type} {t : BakedTree} {root : Int32} {actions : ActionTable ε} {dt : Float32}
  {observe : Observer τ} {i : Nat} {key : Key}

/-- The node that a step is about: it is entered, reported, or gets the status of a child. -/
def State.visiting? (s : State ε τ) : Option Nat :=
  match s.phase with
  | .enter i | .report i _ => some i
  | .resume _ => s.stack.head?.map (·.index)

theorem sameBut_countRepeat (key : Key) (target : Int32) (result : Status) (w : World ε) :
    Blackboard.SameBut key w.blackboard (countRepeat key target result w).2.blackboard := by
  cases result with
  | running => exact Blackboard.sameBut_refl ..
  | failure => exact Blackboard.sameBut_set ..
  | success =>
    dsimp only [countRepeat]
    split
    · exact Blackboard.sameBut_set ..
    · exact Blackboard.sameBut_set ..

theorem sameBut_of_enter (dt : Float32) (h : t.Remembers i key)
    (hactions : actions.get? (Key.ofName "Wait") = some waitAction) {n : BakedNode}
    (hn : t.get? i = some n) (w : World ε) :
    Blackboard.SameBut key w.blackboard (enter actions dt i n w).2.blackboard := by
  cases h with
  | wait hn' hkind hkey =>
    cases hn.symm.trans hn'
    have hexecute := ActionTable.execute_of_get? hactions n ⟨i, dt⟩ w
    simp only [enter, hkind, hkey, hexecute]
    exact (sameBut_waitAction n ⟨i, dt⟩ w).1
  | repeater hn' hkind hchild =>
    cases hn.symm.trans hn'
    simp only [enter, hkind]
    exact Blackboard.sameBut_refl ..

theorem sameBut_of_resume {frame : Frame} (h : t.Remembers frame.index key) {n : BakedNode}
    (hn : t.get? frame.index = some n)
    (hfirst : n.kind = .repeater → n.firstChild? = some frame.child) (sibling : Option Nat)
    (status : Status) (w : World ε) :
    Blackboard.SameBut key w.blackboard (resume n sibling frame status w).2.2.blackboard := by
  cases h with
  | wait hn' hkind hkey =>
    cases hn.symm.trans hn'
    simp only [resume, hkind]
    exact Blackboard.sameBut_refl ..
  | repeater hn' hkind hchild =>
    cases hn.symm.trans hn'
    obtain rfl := Option.some.inj (hchild.symm.trans (hfirst hkind))
    simp only [resume, hkind]
    exact sameBut_countRepeat ..

/-- **One step**: at a wait or a repeater it changes the number under the key of that node and
nothing else. -/
theorem sameBut_of_step {s s' : State ε τ} (h : Confined t root s)
    (hs : step t actions dt observe s = .inl s') (hvisit : s.visiting? = some i)
    (hkey : t.Remembers i key) (hactions : actions.get? (Key.ofName "Wait") = some waitAction) :
    Blackboard.SameBut key s.world.blackboard s'.world.blackboard := by
  rcases world_of_step hs with
    hw | ⟨j, n, hphase, hn, hw⟩ | ⟨frame, n, status, htop, hphase, hn, hw⟩
  · rw [hw]
    exact Blackboard.sameBut_refl ..
  · obtain rfl : j = i := by simpa [State.visiting?, hphase] using hvisit
    rw [hw]
    exact sameBut_of_enter dt hkey hactions hn s.world
  · obtain rfl : frame.index = i := by simpa [State.visiting?, hphase, htop] using hvisit
    rw [hw]
    exact sameBut_of_resume hkey hn (h.first frame (List.mem_of_mem_head? htop) n hn) ..

/-- Only the step that ends a tick is about no node. -/
theorem exists_visiting {s s' : State ε τ} (hs : step t actions dt observe s = .inl s') :
    ∃ i, s.visiting? = some i := by
  cases stepped_of_step hs <;> exact ⟨_, rfl⟩

end Machine

/-! ## Ticks -/

namespace BakedTree

variable {ε : Type} {t : BakedTree} {nodes : Array BakedNode} {ids : Array IdEntry}

/-- A step at a wait or a repeater leaves the memory of every other node as it is. -/
theorem find?_of_visiting (hf : IsForest t.nodes) {root : Int32}
    {b : Blackboard} {rounds : List (Round ε)}
    (hactions : ∀ r ∈ rounds, r.actions.get? (Key.ofName "Wait") = some waitAction) {m : Move ε}
    (hm : m ∈ t.movesOfRounds root b rounds) {i j : Nat} {key other : Key}
    (hvisit : m.before.visiting? = some i) (hi : t.Remembers i key) (hj : t.Remembers j other)
    (hne : i ≠ j) : m.memoryAfter.find? other = m.memory.find? other := by
  obtain ⟨hconfined, r, hr, hstep⟩ := step_of_mem_moves hm
  have hsame : Blackboard.SameBut key m.memory m.memoryAfter :=
    sameBut_of_step hconfined hstep hvisit hi (hactions r hr)
  exact hsame.find?_eq fun heq => hne (hi.eq_of_key_eq hf hj heq)

/-- What a node remembers is kept by steps at other nodes, if those that are neither waits nor
repeaters keep it. -/
theorem find?_afterRounds (hf : IsForest t.nodes) {root : Int32} {b : Blackboard}
    {rounds : List (Round ε)}
    (hactions : ∀ r ∈ rounds, r.actions.get? (Key.ofName "Wait") = some waitAction) {j : Nat}
    {other : Key} (hj : t.Remembers j other)
    (hmoves : ∀ m ∈ t.movesOfRounds root b rounds, ∀ i, m.before.visiting? = some i →
      i ≠ j ∧ ((∃ key, t.Remembers i key) ∨ m.memoryAfter.find? other = m.memory.find? other)) :
    (t.afterRounds root b rounds).find? other = b.find? other := by
  refine ((trail_of_rounds hf root b rounds).keeps (P := fun b' => b'.find? other = b.find? other)
    (fun m hm hb => ?_) rfl).2
  obtain ⟨-, r, -, hstep⟩ := step_of_mem_moves hm
  obtain ⟨i, hvisit⟩ := exists_visiting hstep
  obtain ⟨hne, hkept⟩ := hmoves m hm i hvisit
  cases hkept with
  | inl hi =>
    obtain ⟨key, hi⟩ := hi
    exact (find?_of_visiting hf hactions hm hvisit hi hj hne).trans hb
  | inr hkept => exact hkept.trans hb

/-- Up to an index of 2 ^ 30 - 1000 the keys of waits and of repeaters tell the indices apart, are
never the same and never 0, and are computed without overflow. So in a tree, no step of any ticks
at a wait or a repeater changes what another of them remembers; and any ticks keep what a node
remembers that they do not come to, as far as the nodes of other kinds keep it. -/
theorem memory_apart :
    (∀ i j, i < 2 ^ 30 - 1000 → j < 2 ^ 30 - 1000 →
      (waitTimerKey i = waitTimerKey j → i = j) ∧
      (repeaterCounterKey i = repeaterCounterKey j → i = j) ∧
      waitTimerKey i ≠ repeaterCounterKey j ∧ waitTimerKey i ≠ 0 ∧ repeaterCounterKey i ≠ 0 ∧
      (Int32.ofNat i).toInt = i ∧ (Int32.ofNat i + 1000).toInt = i + 1000 ∧
      (repeaterCounterKey i).toInt = -(i + 1000)) ∧
    ∀ (ε : Type) (nodes : Array BakedNode) (ids : Array IdEntry) (t : BakedTree),
      ofNodes nodes ids = .ok t →
      ∀ (root : Int32) (b : Blackboard) (rounds : List (Round ε)),
      (∀ r ∈ rounds, r.actions.get? (Key.ofName "Wait") = some waitAction) →
      ∀ j other, t.Remembers j other →
        (∀ m ∈ t.movesOfRounds root b rounds, ∀ i key, m.before.visiting? = some i →
          t.Remembers i key → i ≠ j →
          key ≠ other ∧ m.memoryAfter.find? other = m.memory.find? other) ∧
        ((∀ m ∈ t.movesOfRounds root b rounds, ∀ i, m.before.visiting? = some i →
            i ≠ j ∧
              ((∃ key, t.Remembers i key) ∨ m.memoryAfter.find? other = m.memory.find? other)) →
          (t.afterRounds root b rounds).find? other = b.find? other) := by
  constructor
  · intro i j hi hj
    have hwait := toInt_waitTimerKey_lt (i := i) (by omega)
    have hcounter := toInt_repeaterCounterKey hi
    refine ⟨waitTimerKey_inj (by omega) (by omega), repeaterCounterKey_inj hi hj,
      waitTimerKey_ne_repeaterCounterKey (by omega) hj, fun hzero => ?_, fun hzero => ?_,
      toInt_ofNat_of_lt (by omega), toInt_ofNat_add hi, hcounter⟩
    · rw [hzero, Int32.toInt_zero] at hwait
      omega
    · rw [hzero, Int32.toInt_zero] at hcounter
      omega
  · intro ε nodes ids t ht root b rounds hactions j other hj
    have hf : IsForest t.nodes := forest_of_ofNodes ht
    constructor
    · intro m hm i key hvisit hi hne
      exact ⟨fun heq => hne (hi.eq_of_key_eq hf hj heq),
        find?_of_visiting hf hactions hm hvisit hi hj hne⟩
    · exact find?_afterRounds hf hactions hj

/-- A wait beside a repeater of a wait. -/
def waiting : BakedTree where
  nodes := #[
    { BakedNode.ofKind .parallel with firstChild := 1 },
    { BakedNode.action (Key.ofName "Wait") with nextSibling := 2, floats := #v[1, 0, 0, 0] },
    { BakedNode.repeater 2 with firstChild := 3 },
    .action (Key.ofName "Wait")]
  ids := #[⟨"root", 0⟩]

/-- `memory_apart` for `waiting` with a count of one left from before: the step at its first wait
leaves it. -/
theorem memory_apart_waiting :
    let rounds : List (Round Unit) := [⟨.registerStandard .empty, 0.5, ()⟩]
    let b := Blackboard.empty.set (repeaterCounterKey 3) 1
    ofNodes waiting.nodes waiting.ids = .ok waiting ∧
      (∀ r ∈ rounds, r.actions.get? (Key.ofName "Wait") = some waitAction) ∧
      waiting.Remembers 1 (waitTimerKey 1) ∧ waiting.Remembers 2 (repeaterCounterKey 3) ∧
      waitTimerKey 1 ≠ repeaterCounterKey 3 ∧
      ∃ m ∈ waiting.movesOfRounds 0 b rounds, m.before.visiting? = some 1 ∧
        m.memoryAfter.find? (repeaterCounterKey 3) = some 1 := by
  intro rounds b
  have ht : ofNodes waiting.nodes waiting.ids = .ok waiting := by cbv
  have hactions : ∀ r ∈ rounds, r.actions.get? (Key.ofName "Wait") = some waitAction := by
    simp [rounds, ActionTable.get?_registerStandard]
  have hwait : waiting.Remembers 1 (waitTimerKey 1) := .wait rfl rfl rfl (by decide)
  have hrepeater : waiting.Remembers 2 (repeaterCounterKey 3) :=
    .repeater rfl rfl (by decide) (by decide)
  obtain ⟨m, hm, hvisit, hcount⟩ : ∃ m ∈ waiting.movesOfRounds 0 b rounds,
      m.before.visiting? = some 1 ∧ m.memory.find? (repeaterCounterKey 3) = some 1 := by
    decide +kernel
  obtain ⟨hne, hkept⟩ := (memory_apart.2 Unit _ _ _ ht 0 b rounds hactions 2 _ hrepeater).1 m hm
    1 _ hvisit hwait (by decide)
  exact ⟨ht, hactions, hwait, hrepeater, hne, m, hm, hvisit, hkept.trans hcount⟩

end BakedTree

end BehaviorTree
