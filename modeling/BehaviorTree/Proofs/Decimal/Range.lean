import BehaviorTree.Proofs.Decimal.Margin

/-!
# The size of the shortest decimal

The shortest decimal of a number of single precision has less than 2 ^ 29 digits' worth
(`digits_lt`), and its exponent lies between -46 and 38 (`exponent_mem`). If it has no more bits
than double precision, its exponent is even smaller (`exponent_le_of_eq`).
-/

namespace BehaviorTree.Decimal

open Rounding (two_pow_mul_zpow)

namespace Magnitude

variable {m : Magnitude} {k g : Int} {c d : Nat}

theorem halfUnit_le_iff (e k : Int) :
    halfUnit e k ≤ gridWidth e k ↔ (2 : ℚ) ^ (e - 1) ≤ 10 ^ k := by
  have pos : (0 : ℚ) < halfUnit e k := by exact_mod_cast halfUnit_pos ..
  rw [← @Nat.cast_le ℚ, ← one_le_div₀ pos, width_eq, one_le_div₀ (by positivity)]

theorem coarse_firstGrid : ∀ j : Nat, j < 277 →
    let lead : Int := j - 148
    let first := Int.fdiv (lead * 30103) 100000 + 1
    halfUnit (lead - 1) (first + 1) ≤ gridWidth (lead - 1) (first + 1) := by
  decide +kernel

/-- One grid above that of the shortest decimal is no finer than half a unit. -/
theorem coarse_shortest (h : m.Single) (tie : Tie) :
    (2 : ℚ) ^ (m.exponent - 1) ≤ 10 ^ ((m.shortest tie).exponent + 1) := by
  rcases (shortest_spec h tie).2 with first | coarse
  · have lead : m.mantissa.log2 < 24 := (Nat.log2_lt h.pos.ne').2 h.lt
    have least := h.least
    have greatest := h.greatest
    have table := coarse_firstGrid (m.exponent + m.mantissa.log2 + 1 + 148).toNat (by omega)
    rw [show (((m.exponent + m.mantissa.log2 + 1 + 148).toNat : Nat) : Int) - 148 =
      m.exponent + m.mantissa.log2 + 1 by omega] at table
    rw [first]
    calc (2 : ℚ) ^ (m.exponent - 1) ≤ 2 ^ (m.exponent + m.mantissa.log2 + 1 - 1 - 1) := by
          gcongr
          · norm_num
          · omega
      _ ≤ 10 ^ (m.firstGrid + 1) := (halfUnit_le_iff _ _).1 table
  · exact (halfUnit_le_iff _ _).1 (not_lt.1 coarse)

theorem digits_lt (h : m.Single) (tie : Tie) : (m.shortest tie).digits < 2 ^ 29 := by
  have coarse := coarse_shortest h tie
  have admits := lt_of_admits h (admits_of_covers (covers_shortest h tie))
  have pos : (0 : ℚ) < 2 ^ (m.exponent - 1) := by positivity
  have : ((m.shortest tie).digits : ℚ) * 2 ^ (m.exponent - 1) <
      10 * 2 ^ 25 * 2 ^ (m.exponent - 1) :=
    calc ((m.shortest tie).digits : ℚ) * 2 ^ (m.exponent - 1)
        ≤ (m.shortest tie).digits * 10 ^ ((m.shortest tie).exponent + 1) := by gcongr
      _ = 10 * ((m.shortest tie).digits * 10 ^ (m.shortest tie).exponent) := by
        rw [zpow_add_one₀ (by norm_num)]
        ring
      _ < 10 * 2 ^ ((24 : Nat) + m.exponent) := by gcongr
      _ = 10 * 2 ^ 25 * 2 ^ (m.exponent - 1) := by
        rw [mul_assoc, two_pow_mul_zpow]
        congr 2
        push_cast
        ring
  have : ((m.shortest tie).digits : ℚ) < 2 ^ 29 :=
    (lt_of_mul_lt_mul_right this pos.le).trans (by norm_num)
  exact_mod_cast this

theorem exponent_mem (h : m.Single) (tie : Tie) :
    -46 ≤ (m.shortest tie).exponent ∧ (m.shortest tie).exponent ≤ 38 := by
  have coarse := coarse_shortest h tie
  have admits := lt_of_admits h (admits_of_covers (covers_shortest h tie))
  have one : (1 : ℚ) ≤ (m.shortest tie).digits := by exact_mod_cast digits_pos h tie
  have low : (10 : ℚ) ^ (-46 : ℤ) < 10 ^ ((m.shortest tie).exponent + 1) :=
    calc (10 : ℚ) ^ (-46 : ℤ) < 2 ^ (-150 : ℤ) := by norm_num
      _ ≤ 2 ^ (m.exponent - 1) := by
        gcongr
        · norm_num
        · have := h.least
          omega
      _ ≤ 10 ^ ((m.shortest tie).exponent + 1) := coarse
  have high : (10 : ℚ) ^ (m.shortest tie).exponent < 10 ^ (39 : ℤ) :=
    calc (10 : ℚ) ^ (m.shortest tie).exponent
        ≤ (m.shortest tie).digits * 10 ^ (m.shortest tie).exponent :=
          le_mul_of_one_le_left (by positivity) one
      _ < 2 ^ ((24 : Nat) + m.exponent) := admits
      _ ≤ 2 ^ (128 : ℤ) := by
        gcongr
        · norm_num
        · have := h.greatest
          omega
      _ < 10 ^ (39 : ℤ) := by norm_num
  have low' := (zpow_lt_zpow_iff_right₀ (by norm_num)).1 low
  have high' := (zpow_lt_zpow_iff_right₀ (by norm_num)).1 high
  omega

theorem le_of_five_pow_dvd {n j t : Nat} (pos : 0 < n) (small : n < 2 ^ 53)
    (h : 5 ^ j ∣ n * 2 ^ t) : j ≤ 22 := by
  have coprime : Nat.Coprime (5 ^ j) (2 ^ t) := Nat.Coprime.pow j t (by decide)
  have le := Nat.le_of_dvd pos (coprime.dvd_of_dvd_mul_right h)
  by_contra more
  have : 5 ^ 23 ≤ 5 ^ j := Nat.pow_le_pow_right (by decide) (by omega)
  omega

/-- A decimal that has no more bits than double precision needs no large power of five. -/
theorem exponent_le_of_eq (hd : 0 < d) (hd' : d < 2 ^ 53) (hc : c < 2 ^ 53)
    (h : (d * 10 ^ k : ℚ) = c * 2 ^ g) : |k| ≤ 22 := by
  have ten (j : Nat) : (10 : ℚ) ^ j = 5 ^ j * 2 ^ j := by rw [← mul_pow]; norm_num
  have hc' : 0 < c := by
    rw [Nat.pos_iff_ne_zero]
    rintro rfl
    rw [Nat.cast_zero, zero_mul] at h
    exact absurd h (by positivity)
  rw [zpow_toNat 2 g, mul_div_assoc', eq_div_iff (by positivity)] at h
  obtain ⟨j, rfl | rfl⟩ := k.eq_nat_or_neg
  · have multiple : 5 ^ j * (d * 2 ^ j * 2 ^ (-g).toNat) = c * 2 ^ g.toNat := by
      rw [zpow_natCast, ten] at h
      have : (5 ^ j * (d * 2 ^ j * 2 ^ (-g).toNat) : ℚ) = c * 2 ^ g.toNat := by linarith
      exact_mod_cast this
    have := le_of_five_pow_dvd hc' hc (Dvd.intro _ multiple)
    simpa using this
  · have multiple : 5 ^ j * (c * 2 ^ g.toNat * 2 ^ j) = d * 2 ^ (-g).toNat := by
      rw [zpow_neg, zpow_natCast, ten] at h
      have : (5 ^ j * (c * 2 ^ g.toNat * 2 ^ j) : ℚ) = d * 2 ^ (-g).toNat := by
        field_simp at h
        linarith
      exact_mod_cast this
    have := le_of_five_pow_dvd hd hd' (Dvd.intro _ multiple)
    simpa using this

end Magnitude
end BehaviorTree.Decimal
