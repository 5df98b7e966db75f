import BehaviorTree.Proofs.Number.Single

/-!
# Whole numbers in single precision

Up to 2 ^ 24 a float tells whole numbers apart: each is stored as it is (`number?_ofNat`), and
below adding one is exact (`number?_add_one`). At 2 ^ 24 adding one changes nothing
(`number?_add_one_full`).
-/

namespace BehaviorTree.Binary32

open Float.Model
open Float.Model.UnpackedFloat (Sign roundWithAccuracy decreaseExponent)

/-- What a whole number becomes: itself up to 2 ^ 24, and more than 2 ^ 24 from 2 ^ 24 + 2 on. -/
structure Approximates (q : ℚ) (n : Nat) : Prop where
  exact : n ≤ 2 ^ 24 → q = n
  large : 2 ^ 24 + 2 ≤ n → 2 ^ 24 + 2 ≤ q

/-- A normal number that approximates a whole number. -/
def Rounded (n : Nat) (u : UnpackedFloat) : Prop :=
  ∃ (r : Nat) (e : Int) (h : 0 < r), u = .finite .positive r e h ∧ Normal r e ∧
    Approximates (r * 2 ^ e) n

/-! ## Rounding -/

theorem log2_mul_two_pow {n : Nat} (hn : 0 < n) (k : Nat) : (n * 2 ^ k).log2 = n.log2 + k := by
  obtain ⟨hlow, hhigh⟩ := (Nat.log2_eq_iff hn.ne').1 rfl
  refine Packing.log2_eq ?_ ?_
  · rw [pow_add]
    gcongr
  · rw [Nat.add_right_comm, pow_add]
    gcongr

section
variable {n k shift : Nat} (hn : 0 < n) (hshift : n.log2 + k = 23 + shift)
include hn hshift

/-- Up to 2 ^ 24 all but 24 bits are zeros. -/
theorem two_pow_dvd (hsize : n ≤ 2 ^ 24) : 2 ^ shift ∣ n * 2 ^ k := by
  by_cases hfew : n.log2 ≤ 23
  · exact Dvd.dvd.mul_left (pow_dvd_pow 2 (by omega)) n
  · have hmost : 2 ^ 24 ≤ n := (Nat.le_log2 hn.ne').1 (by omega)
    obtain rfl : n = 2 ^ 24 := by omega
    rw [Nat.log2_two_pow] at hshift
    rw [← pow_add]
    exact pow_dvd_pow 2 (by omega)

/-- From 2 ^ 24 + 2 on the first 24 bits alone make more than 2 ^ 24. -/
theorem exists_kept (hsize : 2 ^ 24 + 2 ≤ n) :
    ∃ d, shift = d + k ∧ 2 ^ 24 + 2 ≤ n * 2 ^ k / 2 ^ shift * 2 ^ d := by
  have hlog : 24 ≤ n.log2 := (Nat.le_log2 hn.ne').2 (by omega)
  obtain ⟨hlow, -⟩ := (Nat.log2_eq_iff hn.ne').1 rfl
  obtain ⟨d, rfl⟩ : ∃ d, shift = d + k := ⟨shift - k, by omega⟩
  refine ⟨d, rfl, ?_⟩
  rw [pow_add 2 d, Nat.mul_div_mul_right _ _ (Nat.two_pow_pos k)]
  rcases Nat.lt_or_ge 1 d with hd | hd
  · have hfour : 2 ^ 2 ≤ 2 ^ d := Nat.pow_le_pow_right (by decide) hd
    have hq : 2 ^ 23 ≤ n / 2 ^ d := by
      rw [Nat.le_div_iff_mul_le (Nat.two_pow_pos d), ← pow_add]
      rwa [show 23 + d = n.log2 by omega]
    calc 2 ^ 24 + 2 ≤ 2 ^ 23 * 2 ^ 2 := by decide
      _ ≤ n / 2 ^ d * 2 ^ d := Nat.mul_le_mul hq hfour
  · obtain rfl : d = 1 := by omega
    omega

end

theorem rounded_of_shifted {n k : Nat} (hn : 0 < n) (hlarge : 23 ≤ n.log2 + k)
    (hsmall : n.log2 < 127) :
    Rounded n (roundWithAccuracy Format.binary32 .positive (n * 2 ^ k) (-k) .exact) := by
  obtain ⟨shift, hshift⟩ : ∃ shift, n.log2 + k = 23 + shift :=
    ⟨_, (Nat.add_sub_cancel' hlarge).symm⟩
  have hlog : (n * 2 ^ k).log2 = 23 + shift := (log2_mul_two_pow hn k).trans hshift
  obtain ⟨r, e, h, r₁, hround, hnormal, hvalue, hle, hexact⟩ :=
    roundWithAccuracy_eq .positive hlog (e := -k) (by omega) (by omega)
  refine ⟨r, e, h, hround, hnormal, ?_, ?_⟩
  · intro hsize
    have hdvd := two_pow_dvd hn hshift hsize
    have hmul : (r₁ * 2 ^ shift : ℚ) = n * 2 ^ k := by
      rw [hexact hdvd]
      exact_mod_cast Nat.div_mul_cancel hdvd
    have hpow : (2 : ℚ) ^ shift = 2 ^ (-k + shift : ℤ) * 2 ^ k := by
      rw [← zpow_natCast, ← zpow_natCast, ← zpow_add₀ two_ne_zero]
      congr 1
      omega
    rw [hpow, ← mul_assoc] at hmul
    rw [hvalue]
    exact mul_right_cancel₀ (by positivity) hmul
  · intro hsize
    obtain ⟨d, hd, hkept⟩ := exists_kept hn hshift hsize
    have hle' : 2 ^ 24 + 2 ≤ r₁ * 2 ^ d := hkept.trans (Nat.mul_le_mul_right _ hle)
    rw [hvalue, show (-k + shift : ℤ) = d by omega, zpow_natCast]
    exact_mod_cast hle'

theorem rounded_of_round {n k : Nat} (hn : 0 < n) (hsmall : n.log2 < 127) :
    Rounded n (UnpackedFloat.round Format.binary32 .positive (n * 2 ^ k) (-k)) := by
  obtain ⟨a, ha⟩ : ∃ a, (-k - (n.log2 - 23 : ℤ)).toNat = a := ⟨_, rfl⟩
  have htarget : Format.binary32.targetExponent (totalExponent (n * 2 ^ k) (-k)) = n.log2 - 23 := by
    show max (((n * 2 ^ k).log2 : ℤ) + 1 + -k - 24) (-149) = _
    rw [log2_mul_two_pow hn]
    push_cast
    omega
  have hmantissa : (n * 2 ^ k) <<< a = n * 2 ^ (k + a) := by
    rw [Nat.shiftLeft_eq, mul_assoc, pow_add]
  have hexponent : (-k - a : ℤ) = -(k + a : ℕ) := by
    push_cast
    ring
  unfold UnpackedFloat.round
  simp only [htarget, decreaseExponent, ha, hmantissa, hexponent]
  exact rounded_of_shifted hn (by omega) hsmall

/-- What is rounded is stored as it is. -/
theorem Rounded.number? {n : Nat} {u : UnpackedFloat} (h : Rounded n u) {x : Float32}
    (hx : x.toModel = .pack u) : ∃ q, Binary32.number? x = some q ∧ Approximates q n := by
  obtain ⟨r, e, hpos, rfl, hnormal, happrox⟩ := h
  have hunpack : x.toModel.unpack = .finite .positive r e hpos := by
    rw [hx]
    exact unpack_pack hpos hnormal
  exact ⟨r * 2 ^ e, number?_of_unpack hunpack, happrox⟩

theorem unpack_one : (1 : Float32).toModel.unpack =
    .finite .positive (2 ^ 23) (-23) (by decide) := rfl

theorem unpack_tenToZero : Float32.exactlyRepresentablePowersOfTen[0].toModel.unpack =
    .finite .positive (2 ^ 23) (-23) (by decide) := rfl

theorem normalize_natCast {n : Nat} (hn : 0 < n) (e : Int) (s : Sign) :
    UnpackedFloat.normalize Format.binary32 n e s =
      UnpackedFloat.round Format.binary32 .positive n e := by
  have hcompare : compare (n : ℤ) 0 = .gt := compare_gt_iff_gt.2 (by omega)
  simp [UnpackedFloat.normalize, hcompare]

/-- A whole number below 2 ^ 24 has no exponent above 0. -/
theorem Canonical.shifted {m c : Nat} {e : Int} (h : Canonical m e) (hm : (m : ℚ) * 2 ^ e = c)
    (hc : c < 2 ^ 24) : ∃ k : Nat, e = -k ∧ m = c * 2 ^ k := by
  have he : e ≤ 0 := by
    by_contra hpos
    have hlow : 2 ^ 23 ≤ m := h.normal.resolve_right (by omega)
    have hlarge : (2 ^ 24 : ℚ) ≤ m * 2 ^ e :=
      calc (2 ^ 24 : ℚ) = 2 ^ 23 * 2 ^ (1 : ℤ) := by norm_num
        _ ≤ m * 2 ^ e := by
          gcongr
          · exact_mod_cast hlow
          · norm_num
          · omega
    rw [hm] at hlarge
    exact absurd hc (not_lt.2 (by exact_mod_cast hlarge))
  obtain ⟨k, rfl⟩ : ∃ k : Nat, e = -k := ⟨e.natAbs, by omega⟩
  refine ⟨k, rfl, ?_⟩
  rw [zpow_neg, zpow_natCast, mul_inv_eq_iff_eq_mul₀ (by positivity)] at hm
  exact_mod_cast hm

/-! ## Reading whole numbers -/

theorem number?_toUInt64 {n : Nat} (hn : 0 < n) (hsmall : n < 2 ^ 24) :
    number? n.toUInt64.toFloat32 = some (n : ℚ) := by
  have hword : n.toUInt64.toNat = n := by
    rw [Nat.toUInt64, UInt64.toNat_ofNat', Nat.mod_eq_of_lt (by omega)]
  have hlog : n.log2 < 24 := (Nat.log2_lt hn.ne').2 hsmall
  have hround : Rounded n (UnpackedFloat.ofNat Format.binary32 n.toUInt64.toNat) := by
    rw [hword, UnpackedFloat.ofNat, UnpackedFloat.ofInt, normalize_natCast hn]
    simpa using rounded_of_round (k := 0) hn (by omega)
  obtain ⟨q, hq, happrox⟩ := hround.number? (x := n.toUInt64.toFloat32) rfl
  rw [hq, happrox.exact (by omega)]

/-- A few digits are read by a product with a power of ten. -/
theorem number?_ofNat_few {n : Nat} (hn : 0 < n) (hfew : n < 2 ^ 23) :
    ∃ q, number? (Float32.ofNat n) = some q ∧ Approximates q n := by
  have hlog : n.log2 < 23 := (Nat.log2_lt hn.ne').2 hfew
  obtain ⟨m, e, hm, hunpack, hcanonical, hvalue⟩ :=
    unpack_of_number? (number?_toUInt64 hn (by omega)) (by exact_mod_cast hn)
  obtain ⟨k, rfl, rfl⟩ := hcanonical.shifted hvalue (by omega)
  have hofNat : (Float32.ofNat n).toModel =
      .pack (UnpackedFloat.mul Format.binary32 (.finite .positive (n * 2 ^ k) (-k) hm)
        (.finite .positive (2 ^ 23) (-23) (by decide))) := by
    show (Float32.ofScientific n false 0).toModel = _
    unfold Float32.ofScientific
    rw [dif_pos ⟨hfew, by decide⟩, ← hunpack, ← unpack_tenToZero]
    rfl
  refine Rounded.number? ?_ hofNat
  show Rounded n (roundWithAccuracy Format.binary32 .positive (n * 2 ^ k * 2 ^ 23) (-k + -23)
    .exact)
  rw [mul_assoc, ← pow_add, show (-k + -23 : ℤ) = -(k + 23 : ℕ) by push_cast; ring]
  exact rounded_of_shifted hn (by omega) (by omega)

theorem number?_ofNat {n : Nat} (hn : 0 < n) (hsmall : n < 2 ^ 31) :
    ∃ q, number? (Float32.ofNat n) = some q ∧ Approximates q n := by
  by_cases hfew : n < 2 ^ 23
  · exact number?_ofNat_few hn hfew
  · have hlog : n.log2 < 31 := (Nat.log2_lt hn.ne').2 hsmall
    have hofNat : (Float32.ofNat n).toModel =
        .pack (UnpackedFloat.ofScientific Format.binary32 n 0) := by
      show (Float32.ofScientific n false 0).toModel = _
      unfold Float32.ofScientific
      rw [dif_neg (by omega)]
      rfl
    have hbits : Format.binary32.mantissaBits = 24 := rfl
    have hexponent : ¬ (0 : ℤ) < -(2 ^ Format.binary32.exponentBits + n.log2) := by
      have hpos : (0 : ℤ) < 2 ^ Format.binary32.exponentBits := by positivity
      omega
    refine Rounded.number? ?_ hofNat
    unfold UnpackedFloat.ofScientific
    rw [dif_neg hn.ne', if_neg (by decide), if_neg hexponent, if_pos le_rfl]
    simp only [UnpackedFloat.mul, hbits, Int.toNat_zero, pow_zero, mul_one, Nat.shiftLeft_eq,
      add_zero]
    exact rounded_of_shifted hn (by omega) (by omega)

/-! ## Adding one -/

theorem decreaseExponent_eq {m : Nat} {e e' : Int} {a : Nat} (he : e = e' + a) :
    decreaseExponent m e e' = (m * 2 ^ a, e') := by
  have ha : (e - e').toNat = a := by omega
  simp only [decreaseExponent, ha, Nat.shiftLeft_eq]
  congr 1
  omega

/-- Below 2 ^ 24 one more is exact. -/
theorem number?_add_one {x : Float32} {c : Nat} (hx : number? x = some (c : ℚ)) (hc : c < 2 ^ 24) :
    number? (x + 1) = some (c + 1 : ℚ) := by
  rcases Nat.eq_zero_or_pos c with rfl | hpos
  · obtain ⟨s, hzero⟩ := unpack_of_number?_zero (hx.trans (by simp))
    have hadd : (x + 1).toModel.unpack = .finite .positive (2 ^ 23) (-23) (by decide) := by
      show UnpackedFloat.unpack _ (UnpackedFloat.pack _ (UnpackedFloat.add Format.binary32
        x.toModel.unpack (1 : Float32).toModel.unpack)) = _
      rw [hzero, unpack_one]
      exact unpack_pack (by decide) ⟨by decide, by decide, by decide, by decide⟩
    rw [number?_of_unpack hadd]
    norm_num
  · obtain ⟨m, e, hm, hunpack, hcanonical, hvalue⟩ := unpack_of_number? hx (by exact_mod_cast hpos)
    obtain ⟨k, rfl, rfl⟩ := hcanonical.shifted hvalue hc
    -- what the two mantissas are shifted by to come to the smaller exponent
    obtain ⟨a, b, hab⟩ : ∃ a b, k + a = 23 + b ∧ a * b = 0 :=
      ⟨23 - k, k - 23, by omega, by rcases Nat.le_total k 23 with h | h <;> simp [h]⟩
    have hmin : min (-k : ℤ) (-23) = -(k + a : ℕ) := by
      rcases mul_eq_zero.1 hab.2 with rfl | rfl <;> omega
    have hsum : c * 2 ^ k * 2 ^ a + 2 ^ 23 * 2 ^ b = (c + 1) * 2 ^ (k + a) := by
      rw [mul_assoc, ← pow_add, ← pow_add, ← hab.1]
      ring
    have hadd : (x + 1).toModel = .pack (UnpackedFloat.round Format.binary32 .positive
        ((c + 1) * 2 ^ (k + a)) (-(k + a : ℕ))) := by
      show Float32.Model.pack (UnpackedFloat.add Format.binary32 x.toModel.unpack
        (1 : Float32).toModel.unpack) = _
      have hfirst := @decreaseExponent_eq (c * 2 ^ k) (-k) (-(k + a : ℕ)) a (by omega)
      have hsecond := @decreaseExponent_eq (2 ^ 23) (-23) (-(k + a : ℕ)) b (by omega)
      rw [hunpack, unpack_one]
      simp only [UnpackedFloat.add, hmin, hfirst, hsecond, Sign.apply]
      rw [← normalize_natCast (by positivity) _ .positive, ← hsum]
      push_cast
      rfl
    have hlog : (c + 1).log2 < 127 := (Nat.log2_lt (Nat.succ_ne_zero c)).2 (by omega)
    obtain ⟨q, hq, happrox⟩ := (rounded_of_round (Nat.succ_pos c) hlog).number? hadd
    rw [hq, happrox.exact (by omega)]
    push_cast
    rfl

theorem unpack_add_full : UnpackedFloat.unpack Format.binary32 (UnpackedFloat.pack Format.binary32
    (UnpackedFloat.add Format.binary32 (.finite .positive (2 ^ 23) 1 (by decide))
      (.finite .positive (2 ^ 23) (-23) (by decide)))) =
    .finite .positive (2 ^ 23) 1 (by decide) := rfl

/-- At 2 ^ 24 a float no longer tells one more. -/
theorem number?_add_one_full {x : Float32} (hx : number? x = some (2 ^ 24)) :
    number? (x + 1) = some (2 ^ 24) := by
  obtain ⟨m, e, hm, hunpack, hcanonical, hvalue⟩ := unpack_of_number? hx (by norm_num)
  have he : 1 ≤ e := by
    by_contra hsmall
    have hone : (2 : ℚ) ^ e ≤ 1 := zpow_le_one_of_nonpos₀ one_le_two (by omega)
    have hlt : (m : ℚ) < 2 ^ 24 := by exact_mod_cast hcanonical.high
    have hle : (m : ℚ) * 2 ^ e ≤ m := mul_le_of_le_one_right (by positivity) hone
    linarith
  have hlow : 2 ^ 23 ≤ m := hcanonical.normal.resolve_right (by omega)
  obtain ⟨j, rfl⟩ : ∃ j : Nat, e = (j + 1 : ℕ) := ⟨(e - 1).toNat, by omega⟩
  have hmul : m * 2 ^ (j + 1) = 2 ^ 24 := by
    rw [zpow_natCast] at hvalue
    exact_mod_cast hvalue
  obtain rfl : j = 0 := by
    by_contra hj
    have hfour : 2 ^ 2 ≤ 2 ^ (j + 1) := Nat.pow_le_pow_right (by decide) (by omega)
    have hle := Nat.mul_le_mul hlow hfour
    omega
  obtain rfl : m = 2 ^ 23 := by omega
  have hadd : (x + 1).toModel.unpack = .finite .positive (2 ^ 23) 1 (by decide) := by
    show UnpackedFloat.unpack _ (UnpackedFloat.pack _ (UnpackedFloat.add Format.binary32
      x.toModel.unpack (1 : Float32).toModel.unpack)) = _
    rw [hunpack, unpack_one]
    exact unpack_add_full
  rw [number?_of_unpack hadd]
  norm_num

end BehaviorTree.Binary32
