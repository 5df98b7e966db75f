import BehaviorTree.Proofs.Number.Packing

/-!
# Rounding in Lean's model of floating-point numbers

`Accuracy` says how much of a number is left behind its mantissa (`Describes`). Shifting a mantissa
keeps that true (`Describes.shiftRight`), and rounding goes to an integer that is half a unit away
at most (`Describes.rounded`). So `roundWithAccuracy` gives a normal number of the format, half a
unit in the last place away at most (`roundWithAccuracy_near`).
-/

namespace BehaviorTree.Rounding

open Float.Model
open Packing (Full)
open Float.Model.UnpackedFloat (Sign Accuracy ExtendedMantissa roundWithAccuracy
  shiftToTargetExponent shiftToExponent accuracyOfFraction)

/-- A number is a mantissa and a part of a unit of which the accuracy tells. -/
def Describes (mantissa : Nat) : Accuracy → ℚ → Prop
  | .exact, x => x = mantissa
  | .inexact .lt, x => mantissa < x ∧ x < mantissa + 1 / 2
  | .inexact .eq, x => x = mantissa + 1 / 2
  | .inexact .gt, x => mantissa + 1 / 2 < x ∧ x < mantissa + 1

variable {spec : Float.Model.Format} {m n d shift : Nat} {e : Int} {acc : Accuracy} {x : ℚ}
  {em : ExtendedMantissa}

theorem describes_ofMantissaAndAccuracy (h : Describes m acc x) :
    Describes (ExtendedMantissa.ofMantissaAndAccuracy m acc).mantissa
      (ExtendedMantissa.ofMantissaAndAccuracy m acc).accuracy x := by
  rcases acc with _ | _ | _ | _ <;> exact h

/-- A quotient is described by its integer part and the remainder. -/
theorem describes_quotient (hd : 0 < d) :
    Describes (n / d) (accuracyOfFraction (n % d) d) (n / d : ℚ) := by
  have pos : (0 : ℚ) < d := by exact_mod_cast hd
  have parts : (n : ℚ) = d * (n / d : Nat) + (n % d : Nat) := by
    exact_mod_cast (Nat.div_add_mod n d).symm
  have value : (n / d : ℚ) = (n / d : Nat) + (n % d : Nat) / d := by
    rw [parts]
    field_simp
  have small : ((n % d : Nat) : ℚ) / d < 1 := by
    rw [div_lt_one pos]
    exact_mod_cast Nat.mod_lt n hd
  unfold accuracyOfFraction
  split_ifs with none
  · simp [Describes, value, none]
  · have some : 0 < ((n % d : Nat) : ℚ) / d := by
      have := Nat.pos_of_ne_zero none
      positivity
    rcases lt_trichotomy (2 * (n % d)) d with less | same | more
    · have : ((n % d : Nat) : ℚ) / d < 1 / 2 := by
        rw [div_lt_div_iff₀ pos two_pos]
        exact_mod_cast show n % d * 2 < 1 * d by omega
      rw [Nat.compare_eq_lt.2 less]
      constructor <;> linarith
    · have : ((n % d : Nat) : ℚ) / d = 1 / 2 := by
        rw [div_eq_div_iff pos.ne' two_ne_zero]
        exact_mod_cast show n % d * 2 = 1 * d by omega
      rw [Nat.compare_eq_eq.2 same]
      show (n / d : ℚ) = _
      linarith
    · have : 1 / 2 < ((n % d : Nat) : ℚ) / d := by
        rw [div_lt_div_iff₀ two_pos pos]
        exact_mod_cast show 1 * d < n % d * 2 by omega
      rw [Nat.compare_eq_gt.2 more]
      constructor <;> linarith

namespace Describes

theorem rounded (h : Describes m acc x) : |(acc.roundToNearestEven m : ℚ) - x| ≤ 1 / 2 := by
  rw [abs_le]
  rcases acc with _ | _ | _ | _ <;> simp only [Describes, Accuracy.roundToNearestEven] at h ⊢
  · simp [h]
  · constructor <;> linarith
  · have bit : ((m % 2 : Nat) : ℚ) ≤ 1 := by exact_mod_cast Nat.le_of_lt_succ (Nat.mod_lt m two_pos)
    have := Nat.cast_nonneg (α := ℚ) (m % 2)
    push_cast at bit ⊢
    constructor <;> linarith
  · push_cast
    constructor <;> linarith

theorem shiftRightOne (h : Describes em.mantissa em.accuracy x) :
    Describes em.shiftRightOne.mantissa em.shiftRightOne.accuracy (x / 2) := by
  obtain ⟨m, round, sticky⟩ := em
  have parts : ((m % 2 : Nat) : ℚ) + 2 * (m / 2 : Nat) = m := by exact_mod_cast Nat.mod_add_div m 2
  rcases Nat.mod_two_eq_zero_or_one m with last | last <;> cases round <;> cases sticky <;>
    simp [ExtendedMantissa.shiftRightOne, ExtendedMantissa.accuracy, Describes, last]
      at h parts ⊢ <;>
    first | linarith | constructor <;> linarith

theorem shiftRight (h : Describes em.mantissa em.accuracy x) (shift : Nat) :
    Describes (em >>> shift).mantissa (em >>> shift).accuracy (x / 2 ^ shift) := by
  induction shift with
  | zero =>
    rw [pow_zero, div_one]
    exact h
  | succ shift ih =>
    rw [pow_succ, ← div_div]
    exact ih.shiftRightOne

end Describes

theorem shiftRight_mantissa (em : ExtendedMantissa) (n : Nat) :
    (em >>> n).mantissa = em.mantissa / 2 ^ n := by
  induction n with
  | zero => exact (Nat.div_one _).symm
  | succ n ih =>
    rw [pow_succ, ← Nat.div_div_eq_div_mul, ← ih]
    rfl

theorem le_roundToNearestEven (m : Nat) (acc : Accuracy) : m ≤ acc.roundToNearestEven m := by
  rcases acc with _ | _ | _ | _ <;> simp [Accuracy.roundToNearestEven]

theorem roundToNearestEven_le (m : Nat) (acc : Accuracy) : acc.roundToNearestEven m ≤ m + 1 := by
  rcases acc with _ | _ | _ | _ <;> simp only [Accuracy.roundToNearestEven] <;> omega

theorem shiftToTargetExponent_eq (acc : Accuracy) (shift : Nat)
    (hlog : m.log2 = spec.mantissaBitsWithoutImplicit + shift)
    (hlow : spec.minExponent ≤ e + shift) :
    shiftToTargetExponent spec m e acc =
      (ExtendedMantissa.ofMantissaAndAccuracy m acc >>> shift, e + shift) := by
  have htarget : spec.targetExponent (totalExponent m e) = e + shift := by
    unfold Format.targetExponent totalExponent Format.mantissaBits
    push_cast [hlog]
    omega
  have hamount : (e + shift - e).toNat = shift := by omega
  unfold shiftToTargetExponent shiftToExponent
  simp only [htarget, hamount]

/-- A full mantissa stays as it is. -/
theorem shiftToTargetExponent_full (full : Full spec m) (hlow : spec.minExponent ≤ e) :
    shiftToTargetExponent spec m e .exact = (⟨m, false, false⟩, e) := by
  rw [shiftToTargetExponent_eq .exact 0 full.log2 (by omega)]
  simp
  rfl

/-- A mantissa that has grown by a bit is shifted once. -/
theorem shiftToTargetExponent_carry (hlow : spec.minExponent ≤ e) :
    shiftToTargetExponent spec (2 ^ (spec.mantissaBitsWithoutImplicit + 1)) e .exact =
      (⟨2 ^ spec.mantissaBitsWithoutImplicit, false, false⟩, e + 1) := by
  rw [shiftToTargetExponent_eq .exact 1 Nat.log2_two_pow (by omega)]
  show (ExtendedMantissa.shiftRightOne ⟨_, false, false⟩, _) = _
  simp [ExtendedMantissa.shiftRightOne, pow_succ]

/-- The leading bits of a mantissa fill the format. -/
theorem full_div (hm : m ≠ 0) (hlog : m.log2 = spec.mantissaBitsWithoutImplicit + shift) :
    Full spec (m / 2 ^ shift) := by
  obtain ⟨hge, hlt⟩ := (Nat.log2_eq_iff hm).1 hlog
  constructor
  · rwa [Nat.le_div_iff_mul_le (by positivity), ← pow_add]
  · rwa [Nat.div_lt_iff_lt_mul (by positivity), ← pow_add, Nat.add_right_comm]

theorem ne_zero_of_log2 (hlog : m.log2 = spec.mantissaBitsWithoutImplicit + shift) : m ≠ 0 := by
  rintro rfl
  have := spec.hm
  simp at hlog
  omega

theorem roundWithAccuracy_near (s : Sign) (hx : Describes m acc x)
    (hlog : m.log2 = spec.mantissaBitsWithoutImplicit + shift)
    (hlow : spec.minExponent ≤ e + shift) :
    ∃ (r : Nat) (e' : Int) (h : 0 < r) (r₁ : Nat),
      roundWithAccuracy spec s m e acc = .finite s r e' h ∧ Full spec r ∧
      e + shift ≤ e' ∧ e' ≤ e + shift + 1 ∧ (r : ℚ) * 2 ^ e' = r₁ * 2 ^ (e + shift) ∧
      m / 2 ^ shift ≤ r₁ ∧ |(r₁ : ℚ) - x / 2 ^ shift| ≤ 1 / 2 := by
  have hfirst := shiftToTargetExponent_eq acc shift hlog hlow
  set em := ExtendedMantissa.ofMantissaAndAccuracy m acc >>> shift with hem
  have hmantissa : em.mantissa = m / 2 ^ shift := by
    rw [hem, shiftRight_mantissa]
    rcases acc with _ | _ | _ | _ <;> rfl
  have full : Full spec em.mantissa := hmantissa ▸ full_div (ne_zero_of_log2 hlog) hlog
  have hdescribes := (describes_ofMantissaAndAccuracy hx).shiftRight shift
  have hround : ∀ {r e'}, (h : 0 < r) →
      shiftToTargetExponent spec em.roundedMantissa (e + shift) .exact = (⟨r, false, false⟩, e') →
      roundWithAccuracy spec s m e acc = .finite s r e' h := by
    intro r e' h hsecond
    unfold roundWithAccuracy
    simp only [hfirst, hsecond]
    rw [dif_neg h.ne']
  have hle : em.mantissa ≤ em.roundedMantissa := le_roundToNearestEven ..
  have hle' : em.roundedMantissa ≤ em.mantissa + 1 := roundToNearestEven_le ..
  by_cases hcarry : em.roundedMantissa = 2 ^ (spec.mantissaBitsWithoutImplicit + 1)
  · -- rounding up has carried into a bit more
    have hsecond := hcarry ▸ shiftToTargetExponent_carry hlow
    have full' : Full spec (2 ^ spec.mantissaBitsWithoutImplicit) :=
      ⟨le_rfl, Nat.pow_lt_pow_right (by decide) (by omega)⟩
    refine ⟨_, _, Nat.two_pow_pos _, em.roundedMantissa, hround _ hsecond, full', by omega,
      by omega, ?_, hmantissa ▸ hle, hdescribes.rounded⟩
    rw [hcarry, zpow_add_one₀ (by decide)]
    push_cast
    ring
  · have full' : Full spec em.roundedMantissa := ⟨full.low.trans hle, by have := full.high; omega⟩
    have pos : 0 < em.roundedMantissa := (Nat.two_pow_pos _).trans_le full'.low
    exact ⟨_, _, pos, em.roundedMantissa, hround pos (shiftToTargetExponent_full full' hlow), full',
      le_rfl, by omega, rfl, hmantissa ▸ hle, hdescribes.rounded⟩

/-- A number of a format is what another number is rounded to: it is near, and it is the same one
if that has no more bits than the format. -/
structure Rounds (spec : Float.Model.Format) (q z : ℚ) : Prop where
  near : |z - q| ≤ q / 2 ^ (spec.mantissaBitsWithoutImplicit + 1)
  exact : ∀ (c : Nat) (g : Int), c < 2 ^ (spec.mantissaBitsWithoutImplicit + 1) → q = c * 2 ^ g →
    z = q

/-- Integers that are no more than half a unit apart are the same. -/
theorem eq_of_near {i j : Nat} (h : |(i : ℚ) - j| ≤ 1 / 2) : i = j := by
  rw [abs_le] at h
  have : (i : ℚ) < j + 1 := by linarith
  have : (j : ℚ) < i + 1 := by linarith
  norm_cast at *
  omega

theorem Describes.le (h : Describes m acc x) : m ≤ x := by
  rcases acc with _ | _ | _ | _ <;> simp only [Describes] at h <;> linarith

theorem Describes.lt_succ (h : Describes m acc x) : x < m + 1 := by
  rcases acc with _ | _ | _ | _ <;> simp only [Describes] at h <;> linarith

theorem two_pow_mul_zpow (k : Nat) (e : Int) : (2 : ℚ) ^ k * 2 ^ e = 2 ^ (k + e) := by
  rw [zpow_add₀ two_ne_zero, zpow_natCast]

/-- In units of which it has all bits of a format, a number with no more bits is a whole number. -/
theorem exists_nat_of_few_bits {b c : Nat} {unit g : Int} (large : (2 : ℚ) ^ b ≤ x)
    (hc : c < 2 ^ (b + 1)) (hx : x * 2 ^ unit = c * 2 ^ g) : ∃ k : Nat, x = k := by
  have hc' : (c : ℚ) < 2 ^ (b + 1) := by exact_mod_cast hc
  have multiple : (2 : ℚ) ^ (b + unit) < 2 ^ ((b + 1 : Nat) + g) :=
    calc (2 : ℚ) ^ (b + unit) = 2 ^ b * 2 ^ unit := (two_pow_mul_zpow ..).symm
      _ ≤ x * 2 ^ unit := by gcongr
      _ = c * 2 ^ g := hx
      _ < 2 ^ (b + 1) * 2 ^ g := by gcongr
      _ = 2 ^ ((b + 1 : Nat) + g) := two_pow_mul_zpow ..
  have := (zpow_lt_zpow_iff_right₀ one_lt_two).1 multiple
  obtain ⟨j, rfl⟩ : ∃ j : Nat, g = unit + j := ⟨(g - unit).toNat, by omega⟩
  refine ⟨c * 2 ^ j, ?_⟩
  rw [zpow_add₀ two_ne_zero _ (j : Int), zpow_natCast, mul_left_comm, mul_comm] at hx
  push_cast
  exact mul_left_cancel₀ (zpow_ne_zero _ two_ne_zero) hx

theorem roundWithAccuracy_rounds (s : Sign) (hx : Describes m acc x)
    (hlog : m.log2 = spec.mantissaBitsWithoutImplicit + shift)
    (hlow : spec.minExponent ≤ e + shift) :
    ∃ (r : Nat) (e' : Int) (h : 0 < r), roundWithAccuracy spec s m e acc = .finite s r e' h ∧
      Full spec r ∧ e + shift ≤ e' ∧ e' ≤ e + shift + 1 ∧ Rounds spec (x * 2 ^ e) (r * 2 ^ e') := by
  obtain ⟨r, e', h, r₁, hround, full, hge, hle, hvalue, -, half⟩ :=
    roundWithAccuracy_near s hx hlog hlow
  refine ⟨r, e', h, hround, full, hge, hle, ?_⟩
  have unit : (0 : ℚ) < 2 ^ (e + shift) := by positivity
  have scaled : x * 2 ^ e = x / 2 ^ shift * 2 ^ (e + shift) := by
    rw [zpow_add₀ two_ne_zero, zpow_natCast]
    field_simp
  have large : (2 : ℚ) ^ spec.mantissaBitsWithoutImplicit ≤ x / 2 ^ shift := by
    rw [le_div_iff₀ (by positivity), ← pow_add, ← hlog]
    refine le_trans ?_ hx.le
    exact_mod_cast Nat.log2_self_le (ne_zero_of_log2 hlog)
  rw [hvalue, scaled]
  constructor
  · rw [← sub_mul, abs_mul, abs_of_pos unit, mul_div_right_comm]
    gcongr
    rw [le_div_iff₀ (by positivity)]
    calc |(r₁ : ℚ) - x / 2 ^ shift| * 2 ^ (spec.mantissaBitsWithoutImplicit + 1)
        ≤ 1 / 2 * 2 ^ (spec.mantissaBitsWithoutImplicit + 1) := by gcongr
      _ = 2 ^ spec.mantissaBitsWithoutImplicit := by rw [pow_succ]; ring
      _ ≤ x / 2 ^ shift := large
  · intro c g hc hq
    obtain ⟨k, whole⟩ := exists_nat_of_few_bits large hc hq
    rw [whole] at half ⊢
    rw [eq_of_near half]

end BehaviorTree.Rounding
