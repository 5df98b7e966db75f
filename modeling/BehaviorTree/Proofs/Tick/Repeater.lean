import BehaviorTree.Proofs.Number.Whole
import BehaviorTree.Proofs.Memory.Table
import BehaviorTree.Proofs.Tick.Termination

/-!
# How far a repeater counts

A tick of a repeater counts what a tick of its child gives (`tick_repeater`). The count is a
`Float32`, and so is the target that it is compared with: up to 2 ^ 24 both are exact, and there
the repeater succeeds with the success of its child that makes the count its target. From
2 ^ 24 + 2 on it never does, for the count stays at 2 ^ 24 (`repeater_counts`). In between, a
target of 2 ^ 24 + 1 is taken for 2 ^ 24 (`repeater_miscounts`).
-/

namespace BehaviorTree

open Machine Binary32

variable {ε : Type}

/-! ## One success -/

section
variable {key : Key} {target : Int32} {n c : Nat} {w : World ε}

theorem number?_target (htarget : target.toInt = n) (hpos : 0 < n) :
    ∃ q, number? (Float32.ofInt target.toInt) = some q ∧ Approximates q n := by
  have hlt := target.toInt_lt
  rw [htarget]
  exact number?_ofNat hpos (by omega)

theorem countRepeat_running (hless : ¬ Float32.ofInt target.toInt ≤ w.get key + 1) :
    countRepeat key target .success w = (.running, w.set key (w.get key + 1)) := by
  show (if 0 ≤ target ∧ Float32.ofInt target.toInt ≤ w.get key + 1 then _ else _) = _
  rw [if_neg fun h => hless h.2]

theorem countRepeat_success (hnonneg : 0 ≤ target.toInt)
    (hreached : Float32.ofInt target.toInt ≤ w.get key + 1) :
    countRepeat key target .success w = (.success, w.set key 0) := by
  show (if 0 ≤ target ∧ Float32.ofInt target.toInt ≤ w.get key + 1 then _ else _) = _
  rw [if_pos ⟨Int32.le_iff_toInt_le.2 hnonneg, hreached⟩]

theorem World.get_set_self (w : World ε) (key : Key) (value : Float32) :
    (w.set key value).get key = value := Blackboard.get_set_self ..

theorem number?_counted (hstart : number? (w.get key) = some (c : ℚ)) (hc : c ≤ 2 ^ 24) :
    number? (w.get key + 1) = some ((min (c + 1) (2 ^ 24) : ℕ) : ℚ) := by
  rcases Nat.lt_or_ge c (2 ^ 24) with hlt | hge
  · rw [number?_add_one hstart hlt, min_eq_left hlt]
    push_cast
    rfl
  · obtain rfl : c = 2 ^ 24 := Nat.le_antisymm hc hge
    rw [min_eq_right (Nat.le_succ _)]
    exact_mod_cast number?_add_one_full (by exact_mod_cast hstart)

/-- A success below the target, or below a target out of reach, counts. -/
theorem countRepeat_below (htarget : target.toInt = n)
    (hbelow : n ≤ 2 ^ 24 ∧ c + 1 < n ∨ 2 ^ 24 + 2 ≤ n) (hc : c ≤ 2 ^ 24)
    (hstart : number? (w.get key) = some (c : ℚ)) :
    (countRepeat key target .success w).1 = .running ∧
      number? ((countRepeat key target .success w).2.get key) =
        some ((min (c + 1) (2 ^ 24) : ℕ) : ℚ) := by
  have hcounted := number?_counted hstart hc
  obtain ⟨q, hq, happrox⟩ := number?_target htarget (by omega)
  have hq' : ((min (c + 1) (2 ^ 24) : ℕ) : ℚ) < q := by
    rcases hbelow with ⟨hsmall, hlt⟩ | hlarge
    · rw [happrox.exact hsmall, Nat.cast_lt]
      exact (min_le_left _ _).trans_lt hlt
    · have hle : ((min (c + 1) (2 ^ 24) : ℕ) : ℚ) ≤ 2 ^ 24 := by
        exact_mod_cast min_le_right (c + 1) (2 ^ 24)
      linarith [happrox.large hlarge]
  have hpos : (0 : ℚ) < (min (c + 1) (2 ^ 24) : ℕ) := by
    rw [Nat.cast_pos]
    omega
  have hless : ¬ Float32.ofInt target.toInt ≤ w.get key + 1 := by
    rw [le_iff_of_number? hq hcounted (hpos.trans hq') hpos]
    exact not_le.2 hq'
  rw [countRepeat_running hless, World.get_set_self]
  exact ⟨rfl, hcounted⟩

/-- The success that makes the count the target ends it. -/
theorem countRepeat_reached (htarget : target.toInt = n) (hsmall : n ≤ 2 ^ 24)
    (hreached : c + 1 = n) (hstart : number? (w.get key) = some (c : ℚ)) :
    countRepeat key target .success w = (.success, w.set key 0) := by
  have hcounted := number?_counted hstart (by omega)
  obtain ⟨q, hq, happrox⟩ := number?_target htarget (by omega)
  obtain rfl := happrox.exact hsmall
  rw [hreached, min_eq_left hsmall] at hcounted
  have hpos : (0 : ℚ) < n := by
    rw [Nat.cast_pos]
    omega
  refine countRepeat_success (by omega) ?_
  exact (le_iff_of_number? hq hcounted hpos hpos).2 le_rfl

end

/-! ## One tick -/

namespace BakedTree

variable {t : BakedTree} {nodes : Array BakedNode} {ids : Array IdEntry} {root : Int32}
  {i child : Nat} {record : BakedNode}

/-- A repeater ticks its child and counts. -/
theorem tick_repeater (hf : IsForest t.nodes) (hroot : linkTarget? root = some i)
    (hrecord : t.get? i = some record) (hkind : record.kind = .repeater)
    (hchild : record.firstChild? = some child) (actions : ActionTable ε) (dt : Float32)
    (w : World ε) :
    let r := t.tick actions record.firstChild dt w
    t.tick actions root dt w =
      countRepeat (repeaterCounterKey child) record.repeatCount r.1 r.2 := by
  obtain ⟨b, hb⟩ := exists_behavior hf (lt_size_of_get hrecord)
  obtain ⟨hindex, hfits⟩ := fits_of_behavior hf hb
  obtain ⟨j, record', bs⟩ := b
  obtain rfl : j = i := hindex
  obtain ⟨hrecord', hchained, hbs⟩ := Behavior.fits_node.1 hfits
  cases hrecord.symm.trans hrecord'
  rw [hchild] at hchained
  cases bs with
  | nil => cases hchained
  | cons b bs =>
    obtain ⟨hindex, -⟩ := hchained
    obtain rfl : child = b.index := Option.some.inj hindex
    rw [tick_of_fits hf hfits actions hroot, tick_of_fits hf (hbs b (by simp)) actions hchild,
      Behavior.evaluate_decorator _ (.inr (.inr hkind))]
    simp only [Behavior.told, Behavior.settleBy, hkind]

/-! ## Many ticks -/

/-- What one tick is given. -/
structure Turn (ε : Type) where
  actions : ActionTable ε
  deltaTime : Float32
  world : World ε

/-- The tick of a turn. -/
def Turn.tick (turn : Turn ε) (t : BakedTree) (root : Int32) : Status × World ε :=
  t.tick turn.actions root turn.deltaTime turn.world

/-- In the first turns the child succeeds, and nothing but the tick at the root changes the number
under the key: not the child, and nothing between the turns. -/
structure Undisturbed (t : BakedTree) (root child : Int32) (key : Key) (turns : Nat → Turn ε)
    (count : Nat) : Prop where
  succeeds : ∀ k < count, ((turns k).tick t child).1 = .success
  spared : ∀ k < count, ((turns k).tick t child).2.get key = (turns k).world.get key
  kept : ∀ k, k + 1 < count → (turns (k + 1)).world.get key = ((turns k).tick t root).2.get key

section
variable {turns : Nat → Turn ε} {count n c : Nat}
  (hf : IsForest t.nodes) (hroot : linkTarget? root = some i) (hrecord : t.get? i = some record)
  (hkind : record.kind = .repeater) (hchild : record.firstChild? = some child)
  (hturns : Undisturbed t root record.firstChild (repeaterCounterKey child) turns count)
include hf hroot hrecord hkind hchild hturns

/-- A turn counts a success from the number that is there before it. -/
theorem turn_counts {k : Nat} (hk : k < count) : ∃ w : World ε,
    w.get (repeaterCounterKey child) = (turns k).world.get (repeaterCounterKey child) ∧
    (turns k).tick t root =
      countRepeat (repeaterCounterKey child) record.repeatCount .success w := by
  have htick := tick_repeater hf hroot hrecord hkind hchild (turns k).actions (turns k).deltaTime
    (turns k).world
  have hsucceeds := hturns.succeeds k hk
  rw [Turn.tick] at hsucceeds
  refine ⟨((turns k).tick t record.firstChild).2, hturns.spared k hk, ?_⟩
  rw [Turn.tick, htick, hsucceeds]
  rfl

/-- What is counted before a turn that does not come after a success. -/
theorem number?_before (htarget : record.repeatCount.toInt = n)
    (hstart : number? ((turns 0).world.get (repeaterCounterKey child)) = some (c : ℚ))
    (hc : c ≤ 2 ^ 24) {k : Nat} (hk : k < count)
    (hbelow : n ≤ 2 ^ 24 ∧ c + k < n ∨ 2 ^ 24 + 2 ≤ n) :
    number? ((turns k).world.get (repeaterCounterKey child)) =
      some ((min (c + k) (2 ^ 24) : ℕ) : ℚ) := by
  -- the turns before this one were below the target as well, so none of them started anew
  induction k with
  | zero =>
    rw [hstart, Nat.add_zero, min_eq_left hc]
  | succ k ih =>
    have hbefore := ih (by omega) (by omega)
    obtain ⟨w, hw, htick⟩ := turn_counts hf hroot hrecord hkind hchild hturns (k := k) (by omega)
    rw [hturns.kept k hk, htick]
    rw [← hw] at hbefore
    have hcounted := (countRepeat_below htarget (by omega) (min_le_right _ _) hbefore).2
    rw [hcounted]
    congr 2
    omega

end

/-- Let a repeater be ticked at the root, its child succeed in every tick, and nothing else write
its counter, which reads the whole number `c` at first. Up to a target of 2 ^ 24 it runs while it
counts exactly, and succeeds, and starts again at 0, with the success that makes the count the
target. Targets from 2 ^ 24 + 2 on are never reached, for the count stays at 2 ^ 24. -/
theorem repeater_counts (ht : ofNodes nodes ids = .ok t) (hroot : linkTarget? root = some i)
    (hrecord : t.get? i = some record) (hkind : record.kind = .repeater)
    (hchild : record.firstChild? = some child) {n : Nat} (htarget : record.repeatCount.toInt = n)
    {turns : Nat → Turn ε} {count : Nat}
    (hturns : Undisturbed t root record.firstChild (repeaterCounterKey child) turns count)
    {c : Nat} (hexact : c ≤ 2 ^ 24)
    (hstart : number? ((turns 0).world.get (repeaterCounterKey child)) = some (c : ℚ)) :
    ∀ k < count,
      let r := (turns k).tick t root
      (n ≤ 2 ^ 24 →
        (c + (k + 1) < n → r.1 = .running ∧
          number? (r.2.get (repeaterCounterKey child)) = some ((c + (k + 1) : ℕ) : ℚ)) ∧
        (c + (k + 1) = n → r.1 = .success ∧ r.2.get (repeaterCounterKey child) = 0)) ∧
      (2 ^ 24 + 2 ≤ n → r.1 = .running ∧
        number? (r.2.get (repeaterCounterKey child)) =
          some ((min (c + (k + 1)) (2 ^ 24) : ℕ) : ℚ)) := by
  have hf : IsForest t.nodes := forest_of_ofNodes ht
  intro k hk r
  obtain ⟨w, hw, htick⟩ := turn_counts hf hroot hrecord hkind hchild hturns hk
  have hbefore := fun hbelow => number?_before hf hroot hrecord hkind hchild hturns htarget
    hstart hexact hk hbelow
  rw [← hw] at hbefore
  have hr : r = countRepeat _ _ _ w := htick
  rw [hr]
  refine ⟨fun hsmall => ⟨fun hless => ?_, fun hreached => ?_⟩, fun hlarge => ?_⟩
  · have hfrom := hbefore (.inl ⟨hsmall, by omega⟩)
    rw [min_eq_left (by omega)] at hfrom
    have hcounted := countRepeat_below htarget (.inl ⟨hsmall, by omega⟩) (by omega) hfrom
    rwa [min_eq_left (by omega)] at hcounted
  · have hfrom := hbefore (.inl ⟨hsmall, by omega⟩)
    rw [min_eq_left (by omega)] at hfrom
    rw [countRepeat_reached htarget hsmall (by omega) hfrom, World.get_set_self]
    exact ⟨rfl, rfl⟩
  · have hfrom := hbefore (.inr hlarge)
    have hcounted := countRepeat_below htarget (.inr hlarge) (min_le_right _ _) hfrom
    have hmin : min (min (c + k) (2 ^ 24) + 1) (2 ^ 24) = min (c + (k + 1)) (2 ^ 24) := by omega
    rwa [hmin] at hcounted

/-- A repeater above a leaf that writes under key 8. -/
def counter (target : Int32) : BakedTree where
  nodes := #[{ BakedNode.repeater target with firstChild := 1 }, .setBlackboard 8 1]
  ids := #[⟨"counter", 0⟩]

/-- `repeater_counts` for a target of 2, with memory that is empty at first. -/
theorem repeater_counts_two :
    let t := counter 2
    let key := repeaterCounterKey 1
    let worlds : Nat → World Unit := fun k => (fun w => (t.tick .empty 0 0.5 w).2)^[k] ⟨.empty, ()⟩
    let turns : Nat → Turn Unit := fun k => ⟨.empty, 0.5, worlds k⟩
    ofNodes t.nodes t.ids = .ok t ∧ Undisturbed t 0 1 key turns 2 ∧
      number? ((turns 0).world.get key) = some 0 ∧
      ((turns 0).tick t 0).1 = .running ∧
      number? (((turns 0).tick t 0).2.get key) = some 1 ∧
      ((turns 1).tick t 0).1 = .success ∧ ((turns 1).tick t 0).2.get key = 0 := by
  intro t key worlds turns
  have ht : ofNodes t.nodes t.ids = .ok t := by cbv
  have hroot : linkTarget? 0 = some 0 := by decide
  have hchild : linkTarget? 1 = some 1 := by decide
  have hturns : Undisturbed t 0 1 key turns 2 := by
    refine ⟨by decide +kernel, by decide +kernel, fun k hk => ?_⟩
    obtain rfl : k = 0 := by omega
    rfl
  have hstart : number? ((turns 0).world.get key) = some ((0 : ℕ) : ℚ) := by
    rw [Nat.cast_zero]
    exact number?_zero
  have hcounts := repeater_counts ht hroot rfl rfl hchild rfl hturns (by decide) hstart
  obtain ⟨hfirst, -⟩ := (hcounts 0 (by decide)).1 (by decide)
  obtain ⟨-, hsecond⟩ := (hcounts 1 (by decide)).1 (by decide)
  obtain ⟨hrun, hone⟩ := hfirst (by decide)
  exact ⟨ht, hturns, by exact_mod_cast hstart, hrun, by exact_mod_cast hone, hsecond (by decide)⟩

/-- A target that a float does not tell from 2 ^ 24: from one less the count goes up by one, to less
than the target, and the repeater has succeeded. -/
theorem repeater_miscounts :
    let t := counter 16777217
    let key := repeaterCounterKey 1
    let w : World Unit := ⟨Blackboard.empty.set key 16777215, ()⟩
    let r := t.tick .empty 0 0 w
    ofNodes t.nodes t.ids = .ok t ∧ (t.tick .empty 1 0 w).1 = .success ∧
      (t.tick .empty 1 0 w).2.get key = w.get key ∧
      number? (w.get key) = some 16777215 ∧ 16777215 + 1 < 16777217 ∧
      ¬ (r.1 = .running ∧ number? (r.2.get key) = some 16777216) := by
  intro t key w r
  have ht : ofNodes t.nodes t.ids = .ok t := by cbv
  have hread : number? (w.get key) = some 16777215 := by
    obtain ⟨q, hq, happrox⟩ := @number?_ofNat 16777215 (by decide) (by decide)
    obtain rfl := happrox.exact (by decide)
    exact hq
  have hr : r.1 = .success := by decide +kernel
  refine ⟨ht, by decide +kernel, by decide +kernel, hread, by decide, ?_⟩
  rintro ⟨hrun, -⟩
  rw [hr] at hrun
  cases hrun

end BakedTree

end BehaviorTree
