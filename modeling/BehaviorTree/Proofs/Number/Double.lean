import BehaviorTree.Proofs.Number.Rounding

/-!
# Double precision

What doubles stand for (`Stands`), far from the ends of their range: whole numbers up to 2 ^ 53 as
they are (`stands_toUInt64`), products and quotients rounded (`stands_mul`, `stands_div`).
-/

namespace BehaviorTree.Binary64

open Float.Model
open Float.Model.UnpackedFloat (Sign Accuracy roundWithAccuracy decreaseExponent accuracyOfFraction)
open Rounding (Describes Rounds)
open Packing (Full Normal)

/-- A double stands for a positive number. -/
def Stands (x : Float) (q : ℚ) : Prop :=
  ∃ (r : Nat) (e : Int) (h : 0 < r), x.toModel.unpack = .finite .positive r e h ∧
    Normal Format.binary64 r e ∧ (r : ℚ) * 2 ^ e = q

/-- The mantissa and the exponent of a positive number. -/
def parts? : UnpackedFloat → Option (Nat × Int)
  | .finite .positive r e _ => some (r, e)
  | _ => none

theorem stands_of_parts {x : Float} {r : Nat} {e : Int} (h : parts? x.toModel.unpack = some (r, e))
    (normal : Normal Format.binary64 r e) : Stands x (r * 2 ^ e) := by
  unfold parts? at h
  split at h
  next r' e' pos hu =>
    cases h
    exact ⟨r, e, pos, hu, normal, rfl⟩
  next => cases h

/-- A number is far from the ends of the range. -/
structure Moderate (q : ℚ) : Prop where
  low : 2 ^ (-500 : ℤ) < q
  high : q < 2 ^ (500 : ℤ)

variable {x y : Float} {p q v : ℚ} {m n shift : Nat} {e a b : Int}

theorem moderate_of_le (low : 2 ^ a ≤ q) (high : q ≤ 2 ^ b) (ha : -500 < a) (hb : b < 500) :
    Moderate q :=
  ⟨(zpow_lt_zpow_right₀ one_lt_two ha).trans_le low,
    high.trans_lt (zpow_lt_zpow_right₀ one_lt_two hb)⟩

/-- A moderate number that is rounded is stored. -/
theorem stands_of_round (acc : Accuracy)
    (hx : x.toModel = .pack (roundWithAccuracy Format.binary64 .positive m e acc))
    (hv : Describes m acc v) (hm : 2 ^ 52 ≤ m) (hq : Moderate (v * 2 ^ e)) :
    ∃ z, Stands x z ∧ Rounds Format.binary64 (v * 2 ^ e) z := by
  obtain ⟨shift, hlog⟩ : ∃ shift, m.log2 = 52 + shift :=
    ⟨_, (Nat.add_sub_cancel' ((Nat.le_log2 (by omega)).2 hm)).symm⟩
  obtain ⟨hge, hlt⟩ := (Nat.log2_eq_iff (by omega)).1 hlog
  have low : (2 : ℚ) ^ (-500 : ℤ) < 2 ^ ((53 + shift : Nat) + e) :=
    calc (2 : ℚ) ^ (-500 : ℤ) < v * 2 ^ e := hq.low
      _ ≤ 2 ^ (53 + shift) * 2 ^ e := by
        gcongr
        refine hv.lt_succ.le.trans ?_
        rw [Nat.add_right_comm] at hlt
        exact_mod_cast hlt
      _ = 2 ^ ((53 + shift : Nat) + e) := Rounding.two_pow_mul_zpow ..
  have high : (2 : ℚ) ^ ((52 + shift : Nat) + e) < 2 ^ (500 : ℤ) :=
    calc (2 : ℚ) ^ ((52 + shift : Nat) + e)
        = 2 ^ (52 + shift) * 2 ^ e := (Rounding.two_pow_mul_zpow ..).symm
      _ ≤ v * 2 ^ e := by
        gcongr
        refine le_trans ?_ hv.le
        exact_mod_cast hge
      _ < 2 ^ (500 : ℤ) := hq.high
  have low' := (zpow_lt_zpow_iff_right₀ one_lt_two).1 low
  have high' := (zpow_lt_zpow_iff_right₀ one_lt_two).1 high
  have least : Format.binary64.minExponent = -1074 := rfl
  have hmin : Format.binary64.minExponent ≤ e + shift := by omega
  obtain ⟨r, e', h, hround, full, hge', hle', rounds⟩ :=
    Rounding.roundWithAccuracy_rounds .positive hv hlog hmin
  have normal : Normal Format.binary64 r e' :=
    ⟨full, show 0 < e' + 1023 + 52 by omega, show e' + 1023 + 52 + 1 < 2048 by omega⟩
  refine ⟨r * 2 ^ e', ⟨r, e', h, ?_, normal, rfl⟩, rounds⟩
  rw [hx, hround]
  exact Packing.unpack_pack normal

theorem stands_mul (hx : Stands x p) (hy : Stands y q) (hpq : Moderate (p * q)) :
    ∃ z, Stands (x * y) z ∧ Rounds Format.binary64 (p * q) z := by
  obtain ⟨r, e, h, hux, nx, rfl⟩ := hx
  obtain ⟨r', e', h', huy, ny, rfl⟩ := hy
  have value : (r * 2 ^ e * (r' * 2 ^ e') : ℚ) = (r * r' : Nat) * 2 ^ (e + e') := by
    rw [zpow_add₀ two_ne_zero]
    push_cast
    ring
  rw [value] at hpq ⊢
  refine stands_of_round .exact ?_ rfl ?_ hpq
  · show Float.Model.pack (UnpackedFloat.mul Format.binary64 x.toModel.unpack y.toModel.unpack) = _
    rw [hux, huy]
    rfl
  · exact le_trans (by decide) (Nat.mul_le_mul nx.low ny.low)

/-- The quotient of two full mantissas to 53 bits more. -/
theorem divCore_eq {r r' : Nat} {e e' : Int} (nx : Normal Format.binary64 r e)
    (ny : Normal Format.binary64 r' e') (small : -1000 < e - e') :
    UnpackedFloat.divCore Format.binary64 r e r' e' =
      (r * 2 ^ 53 / r', e - e' - 53, accuracyOfFraction (r * 2 ^ 53 % r') r') := by
  have target : min (e - e') (Format.binary64.targetExponent
      (totalExponent r e - totalExponent r' e')) = e - e' - 53 := by
    show min _ (max (_ - 53) (-1074)) = _
    rw [totalExponent, totalExponent, nx.log2, ny.log2]
    omega
  have shift : (e - e' - (e - e' - 53)).toNat = 53 := by omega
  unfold UnpackedFloat.divCore
  simp only [target, shift, Nat.shiftLeft_eq]

theorem stands_div (hx : Stands x p) (hy : Stands y q) (hpq : Moderate (p / q)) :
    ∃ z, Stands (x / y) z ∧ Rounds Format.binary64 (p / q) z := by
  obtain ⟨r, e, h, hux, nx, rfl⟩ := hx
  obtain ⟨r', e', h', huy, ny, rfl⟩ := hy
  have value : (r * 2 ^ e / (r' * 2 ^ e') : ℚ) = (r * 2 ^ 53 : Nat) / r' * 2 ^ (e - e' - 53) := by
    have : (r' : ℚ) ≠ 0 := by positivity
    rw [zpow_sub₀ two_ne_zero, zpow_sub₀ two_ne_zero]
    push_cast
    field_simp
  have less : (r : ℚ) / r' < 2 := by
    rw [div_lt_iff₀ (by positivity)]
    exact_mod_cast lt_of_lt_of_le nx.high (Nat.mul_le_mul_left 2 ny.low)
  have small : -1000 < e - e' := by
    have : (2 : ℚ) ^ (-500 : ℤ) < 2 ^ ((1 : Nat) + (e - e')) :=
      calc (2 : ℚ) ^ (-500 : ℤ) < r * 2 ^ e / (r' * 2 ^ e') := hpq.low
        _ = r / r' * 2 ^ (e - e') := by rw [zpow_sub₀ two_ne_zero]; ring
        _ ≤ 2 ^ 1 * 2 ^ (e - e') := by gcongr; simpa using less.le
        _ = 2 ^ ((1 : Nat) + (e - e')) := Rounding.two_pow_mul_zpow ..
    have := (zpow_lt_zpow_iff_right₀ one_lt_two).1 this
    omega
  rw [value] at hpq ⊢
  refine stands_of_round (accuracyOfFraction (r * 2 ^ 53 % r') r') ?_
    (Rounding.describes_quotient h') ?_ hpq
  · show Float.Model.pack (UnpackedFloat.div Format.binary64 x.toModel.unpack y.toModel.unpack) = _
    rw [hux, huy]
    simp only [UnpackedFloat.div, divCore_eq nx ny small]
    rfl
  · rw [Nat.le_div_iff_mul_le h']
    exact Nat.mul_le_mul nx.low ny.high.le

theorem stands_toUInt64 (pos : 0 < n) (small : n < 2 ^ 53) : Stands n.toUInt64.toFloat n := by
  have word : n.toUInt64.toNat = n := by
    rw [Nat.toUInt64, UInt64.toNat_ofNat', Nat.mod_eq_of_lt (by omega)]
  have log : n.log2 < 53 := (Nat.log2_lt pos.ne').2 small
  obtain ⟨hge, -⟩ := (Nat.log2_eq_iff pos.ne').1 rfl
  obtain ⟨shift, hshift⟩ : ∃ shift, n.log2 + shift = 52 := ⟨52 - n.log2, by omega⟩
  have target : Format.binary64.targetExponent (totalExponent n 0) = -shift := by
    show max ((n.log2 : ℤ) + 1 + 0 - 53) (-1074) = _
    omega
  have amount : (0 - (-shift : ℤ)).toNat = shift := by omega
  have compared : compare (n : ℤ) 0 = .gt := compare_gt_iff_gt.2 (by omega)
  have model : n.toUInt64.toFloat.toModel =
      .pack (roundWithAccuracy Format.binary64 .positive (n * 2 ^ shift) (-shift) .exact) := by
    show Float.Model.pack (UnpackedFloat.ofNat Format.binary64 n.toUInt64.toNat) = _
    rw [word, UnpackedFloat.ofNat, UnpackedFloat.ofInt, UnpackedFloat.normalize, compared]
    simp only [UnpackedFloat.round, Int.toNat_natCast, target, decreaseExponent, amount,
      Nat.shiftLeft_eq]
    rw [zero_sub]
  have value : ((n * 2 ^ shift : Nat) : ℚ) * 2 ^ (-shift : ℤ) = n := by
    push_cast
    rw [mul_assoc, Rounding.two_pow_mul_zpow, add_neg_cancel, zpow_zero, mul_one]
  have large : 2 ^ 52 ≤ n * 2 ^ shift := by
    rw [← hshift, pow_add]
    exact Nat.mul_le_mul_right _ hge
  have moderate : Moderate (n : ℚ) :=
    moderate_of_le (a := 0) (b := 53) (by rw [zpow_zero]; exact_mod_cast pos)
      (by exact_mod_cast small.le) (by decide) (by decide)
  obtain ⟨z, stands, rounds⟩ := stands_of_round .exact model rfl large (by rwa [value])
  rw [value] at rounds
  rwa [← rounds.exact n 0 small (by rw [zpow_zero, mul_one])]

theorem unpack_neg {r : Nat} {h : 0 < r} (normal : Normal Format.binary64 r e)
    (hx : x.toModel.unpack = .finite .positive r e h) :
    (-x).toModel.unpack = .finite .negative r e h := by
  show UnpackedFloat.unpack _ (UnpackedFloat.pack _ x.toModel.unpack.neg) = _
  rw [hx]
  exact Packing.unpack_pack normal

end BehaviorTree.Binary64
