import BehaviorTree.Json.Number
import BehaviorTree.Proofs.Number.Double

/-!
# Scaling by a power of ten

A double is scaled by one product or quotient with a power of ten that is itself rounded. The
result is as near to the exact one as two roundings allow (`scale_near`), and it is the exact one
if the power of ten and the result are numbers of double precision (`scale_exact`).
-/

namespace BehaviorTree.Json

open Binary64 (Stands Moderate parts?)
open Float.Model (Format)
open Rounding (Rounds)

/-- A mantissa and an exponent make a normal number near to a power of ten, and the power itself
up to the 22nd. -/
structure StoresPower (k : Nat) (r : Nat) (e : Int) : Prop where
  low : 2 ^ 52 ≤ r
  high : r < 2 ^ 53
  least : -52 ≤ e
  greatest : e ≤ 900
  above : r * 2 ^ (e + 52).toNat * 2 ^ 53 ≤ 10 ^ k * 2 ^ 52 * (2 ^ 53 + 1)
  below : 10 ^ k * 2 ^ 52 * (2 ^ 53 - 1) ≤ r * 2 ^ (e + 52).toNat * 2 ^ 53
  exact : k ≤ 22 → r * 2 ^ (e + 52).toNat = 10 ^ k * 2 ^ 52

instance (k r : Nat) (e : Int) : Decidable (StoresPower k r e) :=
  decidable_of_iff (2 ^ 52 ≤ r ∧ r < 2 ^ 53 ∧ -52 ≤ e ∧ e ≤ 900 ∧
      r * 2 ^ (e + 52).toNat * 2 ^ 53 ≤ 10 ^ k * 2 ^ 52 * (2 ^ 53 + 1) ∧
      10 ^ k * 2 ^ 52 * (2 ^ 53 - 1) ≤ r * 2 ^ (e + 52).toNat * 2 ^ 53 ∧
      (k ≤ 22 → r * 2 ^ (e + 52).toNat = 10 ^ k * 2 ^ 52))
    ⟨fun ⟨h₁, h₂, h₃, h₄, h₅, h₆, h₇⟩ => ⟨h₁, h₂, h₃, h₄, h₅, h₆, h₇⟩,
      fun h => ⟨h.low, h.high, h.least, h.greatest, h.above, h.below, h.exact⟩⟩

theorem storesPower_powerOfTen : ∀ k < 47, ∃ p ∈ parts? (powerOfTen k).toModel.unpack,
    StoresPower k p.1 p.2 := by
  decide +kernel

theorem stands_powerOfTen {k : Nat} (hk : k < 47) :
    ∃ p, Stands (powerOfTen k) p ∧ |p - 10 ^ k| ≤ 10 ^ k / 2 ^ 53 ∧ (k ≤ 22 → p = 10 ^ k) := by
  obtain ⟨⟨r, e⟩, hp, stores⟩ := storesPower_powerOfTen k hk
  obtain ⟨low, high, least, greatest, above, below, exact⟩ := stores
  obtain ⟨j, rfl⟩ : ∃ j : Nat, e = j - 52 := ⟨(e + 52).toNat, by omega⟩
  rw [sub_add_cancel, Int.toNat_natCast] at above below exact
  have normal : Packing.Normal Format.binary64 r (j - 52) :=
    ⟨⟨low, high⟩, show 0 < (j - 52 + 1023 + 52 : ℤ) by omega,
      show (j - 52 + 1023 + 52 + 1 : ℤ) < 2048 by omega⟩
  have stands := Binary64.stands_of_parts hp normal
  have value : (r : ℚ) * 2 ^ (j - 52 : ℤ) = (r * 2 ^ j : Nat) / 2 ^ 52 := by
    rw [zpow_sub₀ two_ne_zero, zpow_natCast, zpow_ofNat, ← mul_div_assoc]
    push_cast
    rfl
  rw [value] at stands
  refine ⟨_, stands, ?_, fun few => ?_⟩
  · have above' : ((r * 2 ^ j : Nat) : ℚ) * 2 ^ 53 ≤ 10 ^ k * 2 ^ 52 * (2 ^ 53 + 1) := by
      exact_mod_cast above
    have below' : (10 : ℚ) ^ k * 2 ^ 52 * (2 ^ 53 - 1 : Nat) ≤ (r * 2 ^ j : Nat) * 2 ^ 53 := by
      exact_mod_cast below
    rw [abs_le]
    push_cast at above' below' ⊢
    constructor <;> linarith
  · rw [exact few, Nat.cast_mul]
    norm_num

/-- A number is as near to another one as two roundings allow. -/
def Near (q z : ℚ) : Prop := |z - q| ≤ q * (1 / 2 ^ 52 + 1 / 2 ^ 100)

theorem near_of_mul {c p q z : ℚ} (hc : 0 < c) (hq : 0 < q) (hp : |p - q| ≤ q / 2 ^ 53)
    (hz : |z - c * p| ≤ c * p / 2 ^ 53) : Near (c * q) z := by
  rw [abs_le] at hp hz
  have pos : 0 < c * q := mul_pos hc hq
  have low : c * (q - q / 2 ^ 53) ≤ c * p := by gcongr; linarith
  have high : c * p ≤ c * (q + q / 2 ^ 53) := by gcongr; linarith
  rw [Near, abs_le]
  constructor <;> linarith

theorem near_of_div {c p q z : ℚ} (hc : 0 < c) (hq : 0 < q) (hp : |p - q| ≤ q / 2 ^ 53)
    (hz : |z - c / p| ≤ c / p / 2 ^ 53) : Near (c / q) z := by
  rw [abs_le] at hp
  have pos : 0 < p := by linarith
  have low : 1 - 1 / 2 ^ 53 ≤ q / p := by
    rw [le_div_iff₀ pos]
    linarith
  have high : q / p ≤ 1 + 1 / 2 ^ 53 + 1 / 2 ^ 104 := by
    rw [div_le_iff₀ pos]
    linarith
  have quotient : c / p = c / q * (q / p) := by field_simp
  have pos : 0 < c / q := by positivity
  have low' := mul_le_mul_of_nonneg_left low pos.le
  have high' := mul_le_mul_of_nonneg_left high pos.le
  rw [quotient, abs_le] at hz
  rw [Near, abs_le]
  constructor <;> linarith

theorem isInf_of_stands {y : Float} {z : ℚ} (h : Stands y z) : y.isInf = false := by
  obtain ⟨r, e, pos, hu, -⟩ := h
  show y.toModel.unpack.isInf = false
  rw [hu]
  rfl

variable {d : Nat} {k : Int}

theorem scale_up {j : Nat} (hj : j ≤ 308) {x : Float} {z : ℚ} (h : Stands (x * powerOfTen j) z) :
    scale x j = .ok (x * powerOfTen j) := by
  rw [scale, if_pos (by omega)]
  simp only [Int.toNat_natCast, isInf_of_stands h]
  rfl

theorem scale_down {j : Nat} (hj : j ≤ 308) (pos : 0 < j) (x : Float) :
    scale x (-j) = .ok (x / powerOfTen j) := by
  rw [scale, if_neg (by omega), if_pos (by omega)]
  simp only [neg_neg, Int.toNat_natCast]

theorem stored_mem {j : Nat} (hj : j < 47) {p : ℚ} (hp : |p - 10 ^ j| ≤ 10 ^ j / 2 ^ 53) :
    1 / 2 ≤ p ∧ p ≤ 2 ^ 154 := by
  have low : (1 : ℚ) ≤ 10 ^ j := one_le_pow₀ (by norm_num)
  have high : (10 : ℚ) ^ j ≤ 10 ^ 46 := pow_le_pow_right₀ (by norm_num) (by omega)
  rw [abs_le] at hp
  constructor <;> linarith

/-- A whole number is scaled to what is near to the exact number, and to the number itself if that
fits double precision and the power of ten does. -/
theorem scale_near (pos : 0 < d) (small : d < 2 ^ 53) (low : -46 ≤ k) (high : k ≤ 46) :
    ∃ y z, scale d.toUInt64.toFloat k = .ok y ∧ Stands y z ∧ Near (d * 10 ^ k) z ∧
      (|k| ≤ 22 → ∀ (c : Nat) (g : Int), c < 2 ^ 53 → (d * 10 ^ k : ℚ) = c * 2 ^ g →
        z = d * 10 ^ k) := by
  have stands := Binary64.stands_toUInt64 pos small
  have one : (1 : ℚ) ≤ d := by exact_mod_cast pos
  have most : (d : ℚ) ≤ 2 ^ 53 := by exact_mod_cast small.le
  obtain ⟨j, rfl | ⟨rfl, hj⟩⟩ : ∃ j : Nat, k = j ∨ k = -j ∧ 0 < j := ⟨k.natAbs, by omega⟩
  · obtain ⟨p, hp, near, exact⟩ := stands_powerOfTen (k := j) (by omega)
    obtain ⟨low, high⟩ := stored_mem (by omega) near
    have moderate : Moderate (d * p) :=
      Binary64.moderate_of_le (a := -1) (b := 207)
        (calc (2 : ℚ) ^ (-1 : ℤ) = 1 * (1 / 2) := by norm_num
          _ ≤ d * p := by gcongr)
        (calc (d : ℚ) * p ≤ 2 ^ 53 * 2 ^ 154 := by gcongr
          _ = 2 ^ (207 : ℤ) := by norm_num)
        (by decide) (by decide)
    obtain ⟨z, hz, rounds⟩ := Binary64.stands_mul stands hp moderate
    rw [zpow_natCast]
    refine ⟨_, z, scale_up (by omega) hz, hz, ?_, ?_⟩
    · exact near_of_mul (by positivity) (by positivity) near rounds.near
    · intro few c g hc hg
      rw [exact (by simpa using few)] at rounds
      exact rounds.exact c g hc hg
  · obtain ⟨p, hp, near, exact⟩ := stands_powerOfTen (k := j) (by omega)
    obtain ⟨low, high⟩ := stored_mem (by omega) near
    have moderate : Moderate (d / p) :=
      Binary64.moderate_of_le (a := -154) (b := 54)
        (calc (2 : ℚ) ^ (-154 : ℤ) = 1 / 2 ^ 154 := by norm_num
          _ ≤ d / p := by gcongr)
        (calc (d : ℚ) / p ≤ 2 ^ 53 / (1 / 2) := by gcongr
          _ = 2 ^ (54 : ℤ) := by norm_num)
        (by decide) (by decide)
    obtain ⟨z, hz, rounds⟩ := Binary64.stands_div stands hp moderate
    rw [zpow_neg, zpow_natCast, ← div_eq_mul_inv]
    refine ⟨_, z, scale_down (by omega) hj _, hz, ?_, ?_⟩
    · exact near_of_div (by positivity) (by positivity) near rounds.near
    · intro few c g hc hg
      rw [exact (by simpa using few)] at rounds
      exact rounds.exact c g hc hg

end BehaviorTree.Json
