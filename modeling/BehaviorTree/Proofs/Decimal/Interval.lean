import BehaviorTree.Proofs.Decimal.Shortest
import BehaviorTree.Proofs.Number.Rounding

/-!
# The interval that rounds to a number

`Admits y` says that the number `y` lies in the interval that rounds to a magnitude, whose ends
belong to it when the mantissa is even. A decimal that is covered is admitted (`admits_of_covers`),
and rounding to single precision takes what is admitted back to the magnitude (`round_of_admits`).
-/

namespace BehaviorTree.Decimal

open Rounding (two_pow_mul_zpow)

/-! ## Rounding a quotient -/

/-- A quotient half a unit from an integer at most is rounded to it, at a tie if that is even. -/
theorem divNearest_eq {n d q : Nat} (hd : 0 < d) (low : 2 * q * d ≤ 2 * n + d)
    (high : 2 * n ≤ 2 * q * d + d)
    (odd : q % 2 = 1 → 2 * q * d ≠ 2 * n + d ∧ 2 * n ≠ 2 * q * d + d) :
    Format.divNearest n d = q := by
  have parts := Nat.div_add_mod n d
  have rest := Nat.mod_lt n hd
  unfold Format.divNearest
  set i := n / d
  set j := n % d
  dsimp only
  have few : q = i ∨ q = i + 1 := by
    have : q < i + 2 := by nlinarith
    have : i < q + 1 := by nlinarith
    omega
  rcases few with rfl | rfl
  · have scaled : 2 * i * d = 2 * (d * i) := by ring
    rw [scaled] at high odd
    split_ifs <;> omega
  · have scaled : 2 * (i + 1) * d = 2 * (d * i) + 2 * d := by ring
    rw [scaled] at low odd
    split_ifs <;> omega

namespace Magnitude

variable {m : Magnitude} {k e : Int} {point r q t : Nat} {x y : ℚ}

/-! ## The interval -/

/-- The lower end of the interval. -/
def low (m : Magnitude) : ℚ := m.quarters.1 * 2 ^ (m.exponent - 2)

/-- The upper end of the interval. -/
def high (m : Magnitude) : ℚ := m.quarters.2.2 * 2 ^ (m.exponent - 2)

/-- A number lies in the interval. -/
structure Admits (m : Magnitude) (y : ℚ) : Prop where
  low : m.low ≤ y
  high : y ≤ m.high
  odd : m.mantissa % 2 = 1 → y ≠ m.low ∧ y ≠ m.high

theorem quarter (E : Int) : (2 : ℚ) ^ (E - 2) = 2 ^ E / 4 := by
  rw [zpow_sub₀ two_ne_zero]
  norm_num

theorem high_eq (m : Magnitude) : m.high = (m.mantissa + 1 / 2) * 2 ^ m.exponent := by
  rw [high, quarter]
  simp only [quarters]
  push_cast
  ring

theorem low_eq (hm : 0 < m.mantissa) :
    m.low = (m.mantissa - if m.lowest then 1 / 4 else 1 / 2) * 2 ^ m.exponent := by
  rw [low, quarter]
  simp only [quarters]
  split_ifs
  · rw [Nat.cast_sub (by omega)]
    push_cast
    ring
  · rw [Nat.cast_sub (by omega)]
    push_cast
    ring

theorem zpow_toNat (b : ℚ) (k : Int) : b ^ k = b ^ k.toNat / b ^ (-k).toNat := by
  rcases le_total 0 k with h | h
  · obtain ⟨j, rfl⟩ := Int.eq_ofNat_of_zero_le h
    simp
  · obtain ⟨j, rfl⟩ := Int.exists_eq_neg_ofNat h
    simp

/-- The factors of a grid bring its points to the scale of the quarters of a unit. -/
theorem grid_eq (m : Magnitude) (k : Int) :
    (10 : ℚ) ^ k = (m.scales k).2 / (m.scales k).1 * 2 ^ (m.exponent - 2) := by
  have ha : ((m.scales k).1 : ℚ) ≠ 0 := by exact_mod_cast (m.scales_pos k).1.ne'
  rw [div_mul_eq_mul_div, eq_div_iff ha, zpow_toNat 10, zpow_toNat 2]
  show _ * ((2 ^ (m.exponent - 2).toNat * 10 ^ (-k).toNat : Nat) : ℚ) =
    (10 ^ k.toNat * 2 ^ (-(m.exponent - 2)).toNat : Nat) * _
  push_cast
  field_simp

/-- A decimal in quarters of the unit. -/
theorem decimal_eq (m : Magnitude) (k : Int) (point : Nat) : (point * 10 ^ k : ℚ) =
    (point * (m.scales k).2 : Nat) / (m.scales k).1 * 2 ^ (m.exponent - 2) := by
  rw [m.grid_eq k, Nat.cast_mul]
  ring

theorem admits_of_covers (h : m.covers k point) : m.Admits (point * 10 ^ k) := by
  have ha : (0 : ℚ) < (m.scales k).1 := by exact_mod_cast (m.scales_pos k).1
  obtain ⟨below, above⟩ := bounds_of_covers h
  rw [decimal_eq m]
  constructor
  · unfold low
    gcongr
    rw [le_div_iff₀ ha]
    exact_mod_cast below
  · unfold high
    gcongr
    rw [div_le_iff₀ ha]
    exact_mod_cast above
  · intro odd
    rw [covers_iff, if_neg (by omega)] at h
    obtain ⟨below, above⟩ := h
    unfold low high
    constructor
    · refine ne_of_gt ?_
      gcongr
      rw [lt_div_iff₀ ha]
      exact_mod_cast below
    · refine ne_of_lt ?_
      gcongr
      rw [div_lt_iff₀ ha]
      exact_mod_cast above

theorem lt_of_admits (h : m.Single) (ha : m.Admits y) : y < 2 ^ ((24 : Nat) + m.exponent) := by
  have most : (m.mantissa : ℚ) + 1 ≤ 2 ^ 24 := by exact_mod_cast h.lt
  calc y ≤ (m.mantissa + 1 / 2) * 2 ^ m.exponent := by
        rw [← high_eq]
        exact ha.high
    _ < 2 ^ 24 * 2 ^ m.exponent := by gcongr; linarith
    _ = 2 ^ ((24 : Nat) + m.exponent) := two_pow_mul_zpow ..

/-! ## Rounding -/

/-- A quotient by a power of two, half a unit from an integer at most. -/
theorem divNearest_pow (low : ((q : ℚ) - 1 / 2) * 2 ^ (e + t) ≤ r * 2 ^ e)
    (high : r * 2 ^ e ≤ ((q : ℚ) + 1 / 2) * 2 ^ (e + t))
    (odd : q % 2 = 1 → (r * 2 ^ e : ℚ) ≠ (q - 1 / 2) * 2 ^ (e + t) ∧
      (r * 2 ^ e : ℚ) ≠ (q + 1 / 2) * 2 ^ (e + t)) :
    Format.divNearest r (twoTo t) = q := by
  have pos : (0 : ℚ) < 2 ^ e := by positivity
  have scaled (x : ℚ) : x * 2 ^ (e + t) = x * 2 ^ t * 2 ^ e := by
    rw [zpow_add₀ two_ne_zero, zpow_natCast]
    ring
  rw [scaled] at low high
  rw [scaled, scaled] at odd
  have low' := le_of_mul_le_mul_right low pos
  have high' := le_of_mul_le_mul_right high pos
  show Format.divNearest r (2 ^ t) = q
  refine divNearest_eq (Nat.two_pow_pos t) ?_ ?_ fun h => ⟨fun tie => ?_, fun tie => ?_⟩
  · have : (2 * q * 2 ^ t : ℚ) ≤ 2 * r + 2 ^ t := by linarith
    exact_mod_cast this
  · have : (2 * r : ℚ) ≤ 2 * q * 2 ^ t + 2 ^ t := by linarith
    exact_mod_cast this
  · have tie' : (2 * q * 2 ^ t : ℚ) = 2 * r + 2 ^ t := by exact_mod_cast tie
    refine (odd h).1 ?_
    rw [show (r : ℚ) = (q - 1 / 2) * 2 ^ t by linarith]
  · have tie' : (2 * r : ℚ) = 2 * q * 2 ^ t + 2 ^ t := by exact_mod_cast tie
    refine (odd h).2 ?_
    rw [show (r : ℚ) = (q + 1 / 2) * 2 ^ t by linarith]

/-- The bits of a magnitude. -/
def bits (m : Magnitude) : Nat := (m.exponent + 149).toNat * 2 ^ 23 + m.mantissa

/-- Rounding to single precision, once the unit in the last place is known. -/
theorem round_eq {unit : Int} (hlog : r.log2 = 52) (hunit : max (e + 29) (-149) = unit)
    (hq : Format.divNearest r (twoTo (unit - e).toNat) = q) :
    binary32.round r e = min ((unit + 149).toNat * 2 ^ 23 + q) (255 * 2 ^ 23) := by
  have pos : r ≠ 0 := by rintro rfl; simp at hlog
  have hunit' : max (e + (r.log2 : Int) - binary32.fractionBits) binary32.leastExponent = unit := by
    show max (e + (r.log2 : Int) - 23) (-149) = unit
    omega
  unfold Format.round
  simp only [if_neg pos, hunit']
  rw [if_neg (by omega), hq]
  show min ((unit - -149).toNat * _ + q) _ = _
  rw [Int.sub_neg]
  rfl

/-- The leading bit of an admitted number is not above that of the magnitude. -/
theorem exponent_le_of_admits (h : m.Single) (hlow : 2 ^ 52 ≤ r) (ha : m.Admits (r * 2 ^ e)) :
    e + 29 ≤ m.exponent := by
  have : (2 : ℚ) ^ ((52 : Nat) + e) < 2 ^ ((24 : Nat) + m.exponent) :=
    calc (2 : ℚ) ^ ((52 : Nat) + e) = 2 ^ 52 * 2 ^ e := (two_pow_mul_zpow ..).symm
      _ ≤ r * 2 ^ e := by gcongr; exact_mod_cast hlow
      _ < 2 ^ ((24 : Nat) + m.exponent) := lt_of_admits h ha
  have := (zpow_lt_zpow_iff_right₀ one_lt_two).1 this
  omega

/-- An admitted number has the bits of a power of two that is half a unit below the mantissa, or
less. -/
theorem exponent_lt_of_admits (h : m.Single) (hhigh : r < 2 ^ 53) (ha : m.Admits (r * 2 ^ e))
    (hk : (2 : ℚ) ^ t ≤ m.mantissa - 1 / 2) : (t + m.exponent : Int) < 53 + e := by
  have low := ha.low
  rw [low_eq h.pos] at low
  have : (2 : ℚ) ^ (t + m.exponent) < 2 ^ ((53 : Nat) + e) :=
    calc (2 : ℚ) ^ (t + m.exponent) = 2 ^ t * 2 ^ m.exponent := (two_pow_mul_zpow ..).symm
      _ ≤ (m.mantissa - if m.lowest then 1 / 4 else 1 / 2) * 2 ^ m.exponent := by
        gcongr
        refine hk.trans ?_
        gcongr
        split_ifs <;> norm_num
      _ ≤ r * 2 ^ e := low
      _ < 2 ^ 53 * 2 ^ e := by gcongr; exact_mod_cast hhigh
      _ = 2 ^ ((53 : Nat) + e) := two_pow_mul_zpow ..
  exact_mod_cast (zpow_lt_zpow_iff_right₀ one_lt_two).1 this

/-- In units of the magnitude an admitted number is rounded to the mantissa. -/
theorem divNearest_of_admits (h : m.Single) (ha : m.Admits (r * 2 ^ e))
    (hunit : max (e + 29) (-149) = m.exponent) :
    Format.divNearest r (twoTo (m.exponent - e).toNat) = m.mantissa := by
  have low := ha.low
  have high := ha.high
  rw [low_eq h.pos] at low
  rw [high_eq] at high
  obtain ⟨t, ht⟩ : ∃ t : Nat, m.exponent = e + t := ⟨(m.exponent - e).toNat, by omega⟩
  rw [ht, add_sub_cancel_left, Int.toNat_natCast]
  refine divNearest_pow (e := e) ?_ (by rwa [← ht]) fun odd => ?_
  · rw [← ht]
    refine le_trans ?_ low
    gcongr
    split_ifs <;> norm_num
  · have single : ¬m.lowest := fun lowest => by
      have := (h.lowest.1 lowest).1
      omega
    have ends := ha.odd odd
    rwa [low_eq h.pos, high_eq, if_neg single, ht] at ends

/-- An admitted number that is rounded in smaller units lies below a power of two. -/
theorem eq_of_carry (h : m.Single) (hlow : 2 ^ 52 ≤ r) (hhigh : r < 2 ^ 53)
    (ha : m.Admits (r * 2 ^ e)) (carry : max (e + 29) (-149) ≠ m.exponent) :
    m.mantissa = 2 ^ 23 ∧ m.exponent = e + 29 + 1 ∧ -149 < m.exponent := by
  have above := exponent_le_of_admits h hlow ha
  have least := h.least
  have lowest : m.mantissa = 2 ^ 23 := by
    by_contra more
    have : 2 ^ 23 < m.mantissa := lt_of_le_of_ne (h.full (by omega)) (Ne.symm more)
    have : (2 : ℚ) ^ 23 + 1 ≤ m.mantissa := by exact_mod_cast this
    have := exponent_lt_of_admits h hhigh ha (t := 23) (by linarith)
    omega
  have := exponent_lt_of_admits h hhigh ha (t := 22) (by rw [lowest]; norm_num)
  exact ⟨lowest, by omega, by omega⟩

/-- What lies below a power of two is rounded up to it. -/
theorem divNearest_of_carry (h : m.Single) (hhigh : r < 2 ^ 53) (ha : m.Admits (r * 2 ^ e))
    (lowest : m.mantissa = 2 ^ 23) (unit : m.exponent = e + 29 + 1) (normal : -149 < m.exponent) :
    Format.divNearest r (twoTo 29) = 2 ^ 24 := by
  have low := ha.low
  rw [low_eq h.pos, if_pos (h.lowest.2 ⟨lowest, normal⟩), lowest, unit,
    zpow_add_one₀ two_ne_zero] at low
  refine divNearest_pow (e := e) ?_ ?_ (fun odd => by omega)
  · push_cast at low ⊢
    linarith
  · calc (r : ℚ) * 2 ^ e ≤ 2 ^ 53 * 2 ^ e := by gcongr; exact_mod_cast hhigh.le
      _ = 2 ^ 24 * 2 ^ (e + (29 : Nat)) := by
        rw [two_pow_mul_zpow, two_pow_mul_zpow]
        congr 1
        omega
      _ ≤ ((2 ^ 24 : Nat) + 1 / 2) * 2 ^ (e + (29 : Nat)) := by gcongr; norm_num

theorem round_of_admits (h : m.Single) (hlow : 2 ^ 52 ≤ r) (hhigh : r < 2 ^ 53)
    (ha : m.Admits (r * 2 ^ e)) : binary32.round r e = m.bits := by
  have hlog : r.log2 = 52 := (Nat.log2_eq_iff (by omega)).2 ⟨hlow, hhigh⟩
  have small : (m.exponent + 149).toNat * 2 ^ 23 + m.mantissa ≤ 255 * 2 ^ 23 := by
    have := h.lt
    have := h.least
    have := h.greatest
    omega
  by_cases carry : max (e + 29) (-149) = m.exponent
  · rw [round_eq hlog carry (divNearest_of_admits h ha carry), Nat.min_eq_left small]
    rfl
  · obtain ⟨lowest, unit, normal⟩ := eq_of_carry h hlow hhigh ha carry
    have hq : Format.divNearest r (twoTo (e + 29 - e).toNat) = 2 ^ 24 := by
      rw [add_sub_cancel_left]
      exact divNearest_of_carry h hhigh ha lowest unit normal
    rw [round_eq hlog (by omega) hq]
    unfold bits
    omega

end Magnitude
end BehaviorTree.Decimal
