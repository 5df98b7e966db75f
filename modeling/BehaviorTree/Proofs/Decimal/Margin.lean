import BehaviorTree.Proofs.Decimal.Halfway
import BehaviorTree.Proofs.Decimal.Interval

/-!
# How near the shortest decimal comes to the ends

The shortest decimal of a number may lie on an end of the interval that rounds to the number. If it
does not, it is at least 2 ^ -51 of the end away from it (`clear_shortest`), with one exception
(`hard`): a double that is as near to the decimal as two roundings allow lies in the interval, too.
-/

namespace BehaviorTree.Decimal

namespace Magnitude

variable {m : Magnitude} {tie : Tie} {k : Int} {point : Nat} {y : ℚ}

/-- A number lies on an end of the interval or well inside of it. -/
structure Clear (m : Magnitude) (y : ℚ) : Prop where
  low : y = m.low ∨ m.low * (1 + 1 / 2 ^ 51) ≤ y
  high : y = m.high ∨ y ≤ m.high * (1 - 1 / 2 ^ 51)

/-! ## Fine grids -/

/-- A point that is not covered lies outside of the interval or on one of its ends. -/
theorem outside_of_not_covers (no : m.covers k point = false) :
    point * (m.scales k).2 ≤ m.quarters.1 * (m.scales k).1 ∨
      m.quarters.2.2 * (m.scales k).1 ≤ point * (m.scales k).2 := by
  by_contra inside
  rw [not_or, not_le, not_le] at inside
  rw [covers_of_lt inside.1 inside.2] at no
  cases no

/-- On a grid that is no wider than the unit, what is found is half a grid away at most. -/
theorem near_of_nearestOn? (hm : 0 < m.mantissa) (single : m.lowest = false)
    (fine : gridWidth m.exponent k ≤ 2 * halfUnit m.exponent k)
    (h : m.nearestOn? tie k = some point) :
    4 * m.mantissa * halfUnit m.exponent k ≤
        2 * (point * gridWidth m.exponent k) + gridWidth m.exponent k ∧
      2 * (point * gridWidth m.exponent k) ≤
        4 * m.mantissa * halfUnit m.exponent k + gridWidth m.exponent k := by
  obtain ⟨ha, hb⟩ := scales_pos m k
  have unit : halfUnit m.exponent k = 2 * (m.scales k).1 := rfl
  have width : gridWidth m.exponent k = (m.scales k).2 := rfl
  rw [unit, Nat.mul_left_comm, width]
  rw [unit, width] at fine
  have low : m.quarters.1 = 4 * m.mantissa - 2 := by simp [quarters, single]
  have value : m.quarters.2.1 = 4 * m.mantissa := rfl
  have high : m.quarters.2.2 = 4 * m.mantissa + 2 := rfl
  unfold nearestOn? at h
  dsimp only at h
  rw [value] at h
  have below := Nat.div_mul_le_self (4 * m.mantissa * (m.scales k).1) (m.scales k).2
  have above := Nat.lt_div_mul_add (a := 4 * m.mantissa * (m.scales k).1) hb
  have less : (4 * m.mantissa - 2) * (m.scales k).1 + 2 * (m.scales k).1 =
      4 * m.mantissa * (m.scales k).1 := by
    rw [← Nat.add_mul, Nat.sub_add_cancel (by omega)]
  have more : (4 * m.mantissa + 2) * (m.scales k).1 =
    4 * m.mantissa * (m.scales k).1 + 2 * (m.scales k).1 := by ring
  generalize 4 * m.mantissa * (m.scales k).1 / (m.scales k).2 = p at *
  have next : (p + 1) * (m.scales k).2 = p * (m.scales k).2 + (m.scales k).2 := by ring
  split at h
  case h_1 =>
    rw [next] at h
    cases tie <;> dsimp only at h <;> split_ifs at h <;> cases h <;> omega
  case h_2 yes no =>
    cases h
    have := outside_of_not_covers no
    rw [next, low, high, more] at this
    omega
  case h_3 no yes =>
    cases h
    have := outside_of_not_covers no
    rw [low, high] at this
    rw [next]
    omega
  case h_4 => cases h

theorem half (E : Int) : (2 : ℚ) ^ (E - 1) = 2 ^ E / 2 := by
  rw [zpow_sub_one₀ two_ne_zero, div_eq_mul_inv]

theorem low_halves (hm : 0 < m.mantissa) (single : m.lowest = false) :
    m.low = (2 * m.mantissa - 1) * 2 ^ (m.exponent - 1) := by
  rw [low_eq hm, single, half]
  simp only [Bool.false_eq_true, if_false]
  ring

theorem high_halves (m : Magnitude) : m.high = (2 * m.mantissa + 1) * 2 ^ (m.exponent - 1) := by
  rw [high_eq, half]
  ring

/-- The interval of a number that is not the lowest one, in halves of the unit. -/
theorem clear_of_halves (hm : 0 < m.mantissa) (single : m.lowest = false)
    (low : y = 2 * m.mantissa - 1 ∨ (2 * m.mantissa - 1) * (1 + 1 / 2 ^ 51) ≤ y)
    (high : y = 2 * m.mantissa + 1 ∨ y ≤ (2 * m.mantissa + 1) * (1 - 1 / 2 ^ 51)) :
    m.Clear (y * 2 ^ (m.exponent - 1)) := by
  constructor
  · rw [low_halves hm single]
    rcases low with rfl | low
    · exact .inl rfl
    · refine .inr ?_
      rw [mul_right_comm]
      gcongr
  · rw [high_halves]
    rcases high with rfl | high
    · exact .inl rfl
    · refine .inr ?_
      rw [mul_right_comm]
      gcongr

/-- A decimal in halves of the unit. -/
theorem decimal_eq_halves (e k : Int) (point : Nat) : (point * 10 ^ k : ℚ) =
    point * gridWidth e k / halfUnit e k * 2 ^ (e - 1) := by
  have := decimal_eq ⟨0, e, false⟩ k point
  rw [this, quarter, half]
  simp only [scales, gridWidth, halfUnit]
  push_cast
  ring

theorem fine_coarseGrid : ∀ j : Nat, j < 254 →
    let e : Int := j - 149
    2 ^ 26 * gridWidth e (coarseGrid e - 1) ≤
      (2 ^ 26 - 1) * (2 * halfUnit e (coarseGrid e - 1)) := by
  decide +kernel

theorem halfUnit_pos (e k : Int) : 0 < halfUnit e k :=
  Nat.mul_pos two_pos (Nat.mul_pos (Nat.two_pow_pos _) (Nat.pow_pos (by decide)))

/-- The width of a grid in halves of the unit. -/
theorem width_eq (e k : Int) :
    (gridWidth e k / halfUnit e k : ℚ) = 10 ^ k / 2 ^ (e - 1) := by
  have := decimal_eq_halves e k 1
  rw [eq_div_iff (by positivity)]
  simpa using this.symm

theorem width_le {e : Int} (least : -149 ≤ e) (greatest : e ≤ 104) (fine : k < coarseGrid e) :
    (gridWidth e k / halfUnit e k : ℚ) ≤ 2 * (1 - 1 / 2 ^ 26) := by
  have table := fine_coarseGrid (e + 149).toNat (by omega)
  rw [show (((e + 149).toNat : Nat) : Int) - 149 = e by omega] at table
  have pos : (0 : ℚ) < halfUnit e (coarseGrid e - 1) := by exact_mod_cast halfUnit_pos ..
  calc (gridWidth e k / halfUnit e k : ℚ) = 10 ^ k / 2 ^ (e - 1) := width_eq e k
    _ ≤ 10 ^ (coarseGrid e - 1) / 2 ^ (e - 1) := by
      gcongr
      · norm_num
      · omega
    _ = gridWidth e (coarseGrid e - 1) / halfUnit e (coarseGrid e - 1) := (width_eq ..).symm
    _ ≤ 2 * (1 - 1 / 2 ^ 26) := by
      have table' : (2 ^ 26 * gridWidth e (coarseGrid e - 1) : ℚ) ≤
          (2 ^ 26 - 1 : Nat) * (2 * halfUnit e (coarseGrid e - 1)) := by exact_mod_cast table
      rw [div_le_iff₀ pos]
      push_cast at table'
      linarith

theorem clear_of_fine (h : m.Single) (single : m.lowest = false)
    (hit : m.nearestOn? tie k = some point) (fine : k < coarseGrid m.exponent) :
    m.Clear (point * 10 ^ k) := by
  have pos : (0 : ℚ) < halfUnit m.exponent k := by exact_mod_cast halfUnit_pos ..
  have width := width_le h.least h.greatest fine
  have narrow : gridWidth m.exponent k ≤ 2 * halfUnit m.exponent k := by
    rw [div_le_iff₀ pos] at width
    have : (gridWidth m.exponent k : ℚ) ≤ 2 * halfUnit m.exponent k := by linarith
    exact_mod_cast this
  have near := near_of_nearestOn? h.pos single narrow hit
  obtain ⟨below, above⟩ : (4 * m.mantissa * halfUnit m.exponent k : ℚ) ≤
        2 * (point * gridWidth m.exponent k) + gridWidth m.exponent k ∧
      (2 * (point * gridWidth m.exponent k) : ℚ) ≤
        4 * m.mantissa * halfUnit m.exponent k + gridWidth m.exponent k := by exact_mod_cast near
  have most : (m.mantissa : ℚ) + 1 ≤ 2 ^ 24 := by exact_mod_cast h.lt
  rw [decimal_eq_halves m.exponent]
  rw [← le_div_iff₀ pos] at below
  rw [← sub_le_iff_le_add, ← div_le_iff₀ pos] at above
  apply clear_of_halves h.pos single
  · refine .inr ?_
    have split : (2 * (point * gridWidth m.exponent k) + gridWidth m.exponent k : ℚ) /
        halfUnit m.exponent k = 2 * (point * gridWidth m.exponent k / halfUnit m.exponent k) +
          gridWidth m.exponent k / halfUnit m.exponent k := by ring
    linarith
  · refine .inr ?_
    have split : (2 * (point * gridWidth m.exponent k) - gridWidth m.exponent k : ℚ) /
        halfUnit m.exponent k = 2 * (point * gridWidth m.exponent k / halfUnit m.exponent k) -
          gridWidth m.exponent k / halfUnit m.exponent k := by ring
    linarith

/-! ## Coarse grids -/

/-- A pair that is settled, as a ratio. -/
theorem ratio_of_far {e k : Int} {p : Pair}
    (h : p.gap (halfUnit e k) (gridWidth e k) = 0 ∨ p.Far (halfUnit e k) (gridWidth e k)) :
    (p.2 * gridWidth e k / halfUnit e k : ℚ) = p.1 ∨
      (p.1 : ℚ) ≤ 2 ^ 51 * |(p.2 * gridWidth e k / halfUnit e k : ℚ) - p.1| := by
  have pos : (0 : ℚ) < halfUnit e k := by exact_mod_cast halfUnit_pos ..
  have gap_eq : ((p.gap (halfUnit e k) (gridWidth e k) : Int) : ℚ) =
      (p.2 * gridWidth e k / halfUnit e k - p.1) * halfUnit e k := by
    rw [Pair.gap, sub_mul, div_mul_cancel₀ _ pos.ne']
    push_cast
    ring
  rcases h with zero | far
  · rw [zero, Int.cast_zero, eq_comm, mul_eq_zero, or_iff_left pos.ne', sub_eq_zero] at gap_eq
    exact .inl gap_eq
  · have far' : (p.1 * halfUnit e k : ℚ) ≤
        2 ^ 51 * |((p.gap (halfUnit e k) (gridWidth e k) : Int) : ℚ)| := by exact_mod_cast far
    rw [gap_eq, abs_mul, abs_of_pos pos, ← mul_assoc] at far'
    exact .inr (le_of_mul_le_mul_right far' pos)

/-- The one number whose shortest decimal is too near to an end of its interval. -/
def hard : Magnitude := ⟨11420669, -107, false⟩

theorem exceptional_below : ¬22841339 * halfUnit (-107) (coarseGrid (-107)) ≤
    7038531 * gridWidth (-107) (coarseGrid (-107)) := by
  decide

/-- What is admitted and hits the ends or misses them by far is clear of them. -/
theorem clear_of_far (hm : 0 < m.mantissa) (single : m.lowest = false)
    (admits : m.Admits (y * 2 ^ (m.exponent - 1)))
    (below : y = 2 * m.mantissa - 1 ∨
      (2 * m.mantissa - 1 : ℚ) ≤ 2 ^ 51 * |y - (2 * m.mantissa - 1)|)
    (above : y = 2 * m.mantissa + 1 ∨
      (2 * m.mantissa + 1 : ℚ) ≤ 2 ^ 51 * |y - (2 * m.mantissa + 1)|) :
    m.Clear (y * 2 ^ (m.exponent - 1)) := by
  have unit : (0 : ℚ) < 2 ^ (m.exponent - 1) := by positivity
  have high := admits.high
  have low := admits.low
  rw [high_halves, mul_le_mul_iff_left₀ unit] at high
  rw [low_halves hm single, mul_le_mul_iff_left₀ unit] at low
  apply clear_of_halves hm single
  · refine below.imp_right fun far => ?_
    rw [abs_of_nonneg (by linarith)] at far
    linarith
  · refine above.imp_right fun far => ?_
    rw [abs_of_nonpos (by linarith)] at far
    linarith

/-- The exception lies below the halfway point, so not in the interval above it. -/
theorem not_admits_exceptional (hm : 0 < m.mantissa) (single : m.lowest = false)
    (exponent : m.exponent = -107) (halves : 2 * m.mantissa - 1 = 22841339) :
    ¬m.Admits ((7038531 : Nat) * 10 ^ coarseGrid m.exponent) := by
  intro admits
  have low := admits.low
  have odd : (2 * m.mantissa - 1 : ℚ) = 22841339 := by
    have : 2 * m.mantissa = 22841340 := by omega
    have : (2 * m.mantissa : ℚ) = 22841340 := by exact_mod_cast this
    linarith
  rw [decimal_eq_halves m.exponent, low_halves hm single, mul_le_mul_iff_left₀ (by positivity),
    odd, exponent, le_div_iff₀ (by exact_mod_cast halfUnit_pos ..)] at low
  exact exceptional_below (by exact_mod_cast low)

/-- Below the upper end lies the exception itself. -/
theorem eq_hard {j : Nat} (single : m.lowest = false) (exponent : m.exponent = -107)
    (halves : 2 * m.mantissa + 1 = 22841339) (digits : point * 10 ^ j = 7038531) :
    m = hard ∧ point = 7038531 ∧ coarseGrid m.exponent + j = -32 := by
  have first : j = 0 := by
    cases j with
    | zero => rfl
    | succ j =>
      rw [pow_succ, ← mul_assoc] at digits
      omega
  have mantissa : m.mantissa = 11420669 := by omega
  subst first
  refine ⟨?_, by omega, ?_⟩
  · cases m
    cases mantissa
    cases exponent
    cases single
    rfl
  · rw [exponent]
    decide

theorem clear_of_coarse (h : m.Single) (single : m.lowest = false) (hc : m.covers k point)
    (coarse : coarseGrid m.exponent ≤ k) :
    m.Clear (point * 10 ^ k) ∨ m = hard ∧ point = 7038531 ∧ k = -32 := by
  have admits := admits_of_covers hc
  obtain ⟨j, rfl⟩ : ∃ j : Nat, k = coarseGrid m.exponent + j :=
    ⟨(k - coarseGrid m.exponent).toNat, by omega⟩
  have value : (point * 10 ^ (coarseGrid m.exponent + j) : ℚ) =
      (point * 10 ^ j : Nat) * 10 ^ coarseGrid m.exponent := by
    rw [zpow_add₀ (by norm_num), zpow_natCast]
    push_cast
    ring
  rw [value] at admits ⊢
  have small := h.lt
  have pos := h.pos
  -- the ends are odd multiples of half a unit
  rcases far_of_odd (p := (2 * m.mantissa + 1, point * 10 ^ j)) h.least h.greatest (by omega)
    (by omega) with above | ⟨found, exponent⟩
  · rcases far_of_odd (p := (2 * m.mantissa - 1, point * 10 ^ j)) h.least h.greatest (by omega)
      (by omega) with below | ⟨found, exponent⟩
    · have below := ratio_of_far below
      have above := ratio_of_far above
      rw [Nat.cast_sub (by omega)] at below
      rw [decimal_eq_halves m.exponent] at admits ⊢
      push_cast at below above admits ⊢
      exact .inl (clear_of_far pos single admits below above)
    · obtain ⟨halves, digits⟩ := Prod.ext_iff.1 found
      rw [show point * 10 ^ j = 7038531 from digits] at admits
      exact absurd admits (not_admits_exceptional pos single exponent halves)
  · obtain ⟨halves, digits⟩ := Prod.ext_iff.1 found
    exact .inr (eq_hard single exponent halves digits)

/-! ## The lowest numbers -/

/-- A point of a grid lies on an end of the interval or well inside of it. -/
def ClearOn (m : Magnitude) (k : Int) (point : Nat) : Prop :=
  (point * (m.scales k).2 = m.quarters.1 * (m.scales k).1 ∨
      m.quarters.1 * (m.scales k).1 * (2 ^ 51 + 1) ≤ point * (m.scales k).2 * 2 ^ 51) ∧
    (point * (m.scales k).2 = m.quarters.2.2 * (m.scales k).1 ∨
      point * (m.scales k).2 * 2 ^ 51 ≤ m.quarters.2.2 * (m.scales k).1 * (2 ^ 51 - 1))

instance (k : Int) (point : Nat) : Decidable (m.ClearOn k point) :=
  inferInstanceAs (Decidable ((_ ∨ _) ∧ (_ ∨ _)))

theorem clear_of_clearOn (h : m.ClearOn k point) : m.Clear (point * 10 ^ k) := by
  have pos : (0 : ℚ) < (m.scales k).1 := by exact_mod_cast (m.scales_pos k).1
  have unit : (0 : ℚ) < 2 ^ (m.exponent - 2) := by positivity
  rw [decimal_eq m]
  constructor
  · rw [low, mul_left_inj' unit.ne', mul_right_comm, mul_le_mul_iff_left₀ unit, div_eq_iff pos.ne',
      le_div_iff₀ pos]
    refine h.1.imp (fun eq => by exact_mod_cast eq) fun far => ?_
    have far' : (m.quarters.1 * (m.scales k).1 * (2 ^ 51 + 1) : ℚ) ≤
        (point * (m.scales k).2 : Nat) * 2 ^ 51 := by exact_mod_cast far
    linarith
  · rw [high, mul_left_inj' unit.ne', mul_right_comm, mul_le_mul_iff_left₀ unit, div_eq_iff pos.ne',
      div_le_iff₀ pos]
    refine h.2.imp (fun eq => by exact_mod_cast eq) fun far => ?_
    have far' : ((point * (m.scales k).2 : Nat) * 2 ^ 51 : ℚ) ≤
        m.quarters.2.2 * (m.scales k).1 * (2 ^ 51 - 1 : Nat) := by exact_mod_cast far
    push_cast at far' ⊢
    linarith

theorem clearOn_lowest : ∀ j : Nat, j < 253 →
    let m : Magnitude := ⟨2 ^ 23, j - 148, true⟩
    m.ClearOn (m.shortest .toEven).exponent (m.shortest .toEven).digits := by
  decide +kernel

/-- The shortest decimal of a number lies on an end of its interval or well inside of it. -/
theorem clear_shortest (h : m.Single) :
    m.Clear ((m.shortest .toEven).digits * 10 ^ (m.shortest .toEven).exponent) ∨
      m = hard ∧ (m.shortest .toEven).digits = 7038531 ∧ (m.shortest .toEven).exponent = -32 := by
  cases single : m.lowest with
  | false =>
    rcases lt_or_ge (m.shortest .toEven).exponent (coarseGrid m.exponent) with fine | coarse
    · exact .inl (clear_of_fine h single (shortest_spec h _).1 fine)
    · exact clear_of_coarse h single (covers_shortest h _) coarse
  | true =>
    obtain ⟨mantissa, least⟩ := h.lowest.1 single
    have table := clearOn_lowest (m.exponent + 148).toNat (by have := h.greatest; omega)
    rw [show (((m.exponent + 148).toNat : Nat) : Int) - 148 = m.exponent by omega, ← mantissa,
      ← single] at table
    exact .inl (clear_of_clearOn table)

end Magnitude
end BehaviorTree.Decimal
