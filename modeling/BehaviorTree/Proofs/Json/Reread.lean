import BehaviorTree.Proofs.Decimal.Narrow
import BehaviorTree.Proofs.Decimal.Range
import BehaviorTree.Proofs.Json.Decoding
import BehaviorTree.Proofs.Json.Scaling

/-!
# Single-precision numbers survive JSON
-/

namespace BehaviorTree.Json

open Binary64 (Stands)
open Decimal (Magnitude binary32 Digits)

variable {m : Magnitude} {y z : ℚ} {n : Numeral} {s : Nat}

/-! ## From the decimal to the double -/

theorem end_lt {u v : ℚ} (h : u * (1 + 1 / 2 ^ 51) ≤ v) (pos : 0 < u) (near : Near v z) :
    u < z := by
  rw [Near, abs_le] at near
  linarith

theorem lt_end {u v : ℚ} (h : v ≤ u * (1 - 1 / 2 ^ 51)) (pos : 0 < u) (near : Near v z) :
    z < u := by
  rw [Near, abs_le] at near
  linarith

/-- What is near to a number that is admitted is admitted, unless the number lies on an end. -/
theorem admits_of_near (h : m.Single) (clear : m.Clear y) (ha : m.Admits y) (near : Near y z)
    (exact : ∀ (c : Nat) (g : Int), c < 2 ^ 53 → y = c * 2 ^ g → z = y) : m.Admits z := by
  have hm := h.lt
  have hpos := h.pos
  have quarters : 0 < m.quarters.1 ∧ m.quarters.1 < 2 ^ 53 ∧ m.quarters.2.2 < 2 ^ 53 := by
    simp only [Magnitude.quarters]
    split_ifs <;> omega
  have low : 0 < m.low := mul_pos (by exact_mod_cast quarters.1) (by positivity)
  have high : 0 < m.high := low.trans_le (ha.low.trans ha.high)
  rcases clear.low with atLow | aboveLow
  · rwa [exact _ _ quarters.2.1 atLow]
  · rcases clear.high with atHigh | belowHigh
    · rwa [exact _ _ quarters.2.2 atHigh]
    · have above := end_lt aboveLow low near
      have below := lt_end belowHigh high near
      exact ⟨above.le, below.le, fun _ => ⟨above.ne', below.ne⟩⟩

theorem parts_hard :
    Binary64.parts? ((7038531 : Nat).toUInt64.toFloat / powerOfTen 32).toModel.unpack =
      some (6131425250115583, -136) := by
  decide +kernel

/-- The exception is no exception for the double that it is scaled to. -/
theorem scale_hard : ∃ y z, scale (7038531 : Nat).toUInt64.toFloat (-32) = .ok y ∧ Stands y z ∧
    Magnitude.hard.Admits z := by
  have low : Magnitude.hard.low < (6131425250115583 : Nat) * 2 ^ (-136 : ℤ) := by
    show ((45682674 : Nat) : ℚ) * 2 ^ (-109 : ℤ) < _
    norm_num
  have high : ((6131425250115583 : Nat) : ℚ) * 2 ^ (-136 : ℤ) < Magnitude.hard.high := by
    show _ < ((45682678 : Nat) : ℚ) * 2 ^ (-109 : ℤ)
    norm_num
  exact ⟨_, _, scale_down (j := 32) (by decide) (by decide) _,
    Binary64.stands_of_parts parts_hard ⟨⟨by decide, by decide⟩, by decide, by decide⟩,
    low.le, high.le, fun _ => ⟨low.ne', high.ne⟩⟩

theorem scale_shortest (h : m.Single) : ∃ y z,
    scale (m.shortest .toEven).digits.toUInt64.toFloat (m.shortest .toEven).exponent = .ok y ∧
      Stands y z ∧ m.Admits z := by
  have small : (m.shortest .toEven).digits < 2 ^ 53 := (Magnitude.digits_lt h _).trans (by decide)
  have pos := Magnitude.digits_pos h .toEven
  obtain ⟨low, high⟩ := Magnitude.exponent_mem h .toEven
  rcases Magnitude.clear_shortest h with clear | ⟨rfl, digits, exponent⟩
  · obtain ⟨y, z, hy, stands, near, exact⟩ := scale_near pos small low (by omega)
    refine ⟨y, z, hy, stands, admits_of_near h clear
      (Magnitude.admits_of_covers (Magnitude.covers_shortest h _)) near fun c g hc hg => ?_⟩
    exact exact (Magnitude.exponent_le_of_eq pos small hc hg) c g hc hg
  · rw [digits, exponent]
    exact scale_hard

/-! ## From the numeral to the decimal -/

/-- A numeral whose digits fit 64 bits is scaled once. -/
theorem toDouble_eq (hs : Nat.ofDigitChars 10 (n.whole ++ n.fraction) 0 = s)
    (small : s < UInt64.size) : n.toDouble =
      (scale s.toUInt64.toFloat (n.exponentValue - n.fraction.length)).map
        fun x => if n.negative then -x else x := by
  rw [Nat.ofDigitChars_append] at hs
  have taken := le_ofDigitChars n.fraction (Nat.ofDigitChars 10 n.whole 0)
  rw [hs] at taken
  have whole : takeDigits 0 0 n.whole =
      (Nat.ofDigitChars 10 n.whole 0, 0 + n.whole.length, 0) := takeDigits_of_lt 0 (by omega)
  have fraction : takeDigits (Nat.ofDigitChars 10 n.whole 0) 0 n.fraction =
      (s, 0 + n.fraction.length, 0) := by
    rw [takeDigits_of_lt 0 (by omega), hs]
  unfold Numeral.toDouble
  rw [whole]
  dsimp only
  rw [fraction]
  simp

/-- The double that a numeral is scaled to is admitted. -/
def Rereads (m : Magnitude) (n : Numeral) : Prop :=
  ∃ y z, n.toDouble = .ok (if n.negative then -y else y) ∧ Stands y z ∧ m.Admits z

variable {negative : Bool}

theorem rereads_of_scale (hs : Nat.ofDigitChars 10 (n.whole ++ n.fraction) 0 = s)
    (small : s < UInt64.size)
    (h : ∃ y z, scale s.toUInt64.toFloat (n.exponentValue - n.fraction.length) = .ok y ∧
      Stands y z ∧ m.Admits z) : Rereads m n := by
  obtain ⟨y, z, hy, stands, admits⟩ := h
  refine ⟨y, z, ?_, stands, admits⟩
  rw [toDouble_eq hs small, hy]
  rfl

theorem rereads_of_digits (h : m.Single)
    (hd : Nat.ofDigitChars 10 (n.whole ++ n.fraction) 0 = (m.shortest .toEven).digits)
    (he : n.exponentValue - n.fraction.length = (m.shortest .toEven).exponent) : Rereads m n := by
  refine rereads_of_scale hd ((Magnitude.digits_lt h _).trans (by decide)) ?_
  rw [he]
  exact scale_shortest h

/-- A decimal without places behind the point is written with a zero behind the point. -/
theorem rereads_of_whole (h : m.Single) {j : Nat} (hj : (m.shortest .toEven).exponent = j)
    (small : (m.shortest .toEven).digits * 10 ^ j * 10 < 2 ^ 53)
    (hd : Nat.ofDigitChars 10 (n.whole ++ n.fraction) 0 = (m.shortest .toEven).digits * 10 ^ j * 10)
    (he : n.exponentValue - n.fraction.length = -1) : Rereads m n := by
  refine rereads_of_scale hd (small.trans (by decide)) ?_
  have pos : 0 < (m.shortest .toEven).digits * 10 ^ j := by
    have := Magnitude.digits_pos h .toEven
    positivity
  obtain ⟨y, z, hy, stands, -, exact⟩ := scale_near (k := -1) (Nat.mul_pos pos (by decide)) small
    (by decide) (by decide)
  have value : (((m.shortest .toEven).digits * 10 ^ j * 10 : Nat) : ℚ) * 10 ^ (-1 : ℤ) =
      ((m.shortest .toEven).digits * 10 ^ j : Nat) := by
    push_cast
    rw [zpow_neg_one, mul_assoc, mul_inv_cancel₀ (by norm_num), mul_one]
  have admits := Magnitude.admits_of_covers (Magnitude.covers_shortest h .toEven)
  rw [value] at exact
  rw [he]
  refine ⟨y, z, hy, stands, ?_⟩
  rw [exact (by decide) ((m.shortest .toEven).digits * 10 ^ j) 0 (by omega)
    (by rw [zpow_zero, mul_one])]
  rw [hj, zpow_natCast] at admits
  exact_mod_cast admits

section Layouts

variable {digits : List Char} {lead : Int}
  (number : Nat.ofDigitChars 10 digits 0 = (m.shortest .toEven).digits)
  (hlead : (m.shortest .toEven).exponent + digits.length - 1 = lead)
include number hlead

theorem rereads_exponentNumeral (h : m.Single) (some : 0 < digits.length) :
    Rereads m (Decimal.exponentNumeral negative digits lead) := by
  apply rereads_of_digits h
  · rw [Decimal.exponentNumeral, List.take_append_drop, number]
  · have value : (Decimal.exponentNumeral negative digits lead).exponentValue = lead := by
      simp only [Decimal.exponentNumeral, Numeral.exponentValue, natOfDigits_toDigits,
        Decimal.signed, decide_eq_true_eq]
      split_ifs <;> omega
    rw [value]
    simp only [Decimal.exponentNumeral, List.length_drop]
    omega

theorem rereads_plainNumeral (h : m.Single) (few : lead ≤ 12)
    (less : (m.shortest .toEven).digits < 10 ^ digits.length) :
    Rereads m (Decimal.plainNumeral negative digits lead) := by
  unfold Decimal.plainNumeral
  dsimp only
  split_ifs with neg all
  · -- a point in front of the digits
    apply rereads_of_digits h
    · simpa [Nat.ofDigitChars_cons, Nat.ofDigitChars_append] using number
    · simp [Numeral.exponentValue]
      omega
  · -- zeros behind the digits
    obtain ⟨j, hj⟩ : ∃ j : Nat, (m.shortest .toEven).exponent = j :=
      ⟨(m.shortest .toEven).exponent.toNat, by omega⟩
    have zeros : lead.toNat + 1 - digits.length = j := by omega
    have places : digits.length + j + 1 ≤ 14 := by omega
    apply rereads_of_whole h hj
    · calc (m.shortest .toEven).digits * 10 ^ j * 10 < 10 ^ digits.length * 10 ^ j * 10 := by
            gcongr
        _ = 10 ^ (digits.length + j + 1) := by rw [pow_succ, pow_add]
        _ ≤ 10 ^ 14 := Nat.pow_le_pow_right (by decide) places
        _ < 2 ^ 53 := by decide
    · simp only [zeros, Nat.ofDigitChars_append, number, Nat.ofDigitChars_replicate_zero,
        Nat.ofDigitChars_cons, Nat.ofDigitChars_nil]
      show 10 * (10 ^ j * _) + 0 = _
      ring
    · simp [Numeral.exponentValue]
  · -- a point among the digits
    apply rereads_of_digits h
    · simpa using number
    · simp [Numeral.exponentValue]
      omega

end Layouts

theorem rereads_numeral (h : m.Single) :
    Rereads m ((m.shortest .toEven).numeral numberLayout negative) := by
  have number : Nat.ofDigitChars 10 (Nat.toDigits 10 (m.shortest .toEven).digits) 0 =
      (m.shortest .toEven).digits := Nat.ofDigitChars_ten_toDigits
  have some : 0 < (Nat.toDigits 10 (m.shortest .toEven).digits).length := Nat.length_toDigits_pos
  have less : (m.shortest .toEven).digits <
      10 ^ (Nat.toDigits 10 (m.shortest .toEven).digits).length := by
    rw [← Nat.length_toDigits_le_iff (by decide) some]
  unfold Digits.numeral
  dsimp only
  split_ifs with plain
  · have few := of_decide_eq_true (Bool.and_eq_true_iff.1 plain).2
    exact rereads_plainNumeral number rfl h few less
  · exact rereads_exponentNumeral number rfl h some

/-! ## From the double to the number -/

theorem toFloat32_of_rereads {x : Float32}
    (hx : binary32.decode x.toBits.toNat = (negative, .finite m))
    (hn : n.negative = negative) (h : Rereads m n) :
    ∃ w, n.toDouble = .ok w ∧ Decimal.narrow w = x := by
  obtain ⟨y, z, hy, ⟨r, e, pos, hu, normal, rfl⟩, admits⟩ := h
  refine ⟨_, hy, ?_⟩
  rw [hn]
  cases negative with
  | false => exact Decimal.narrow_of_admits (s := .positive) hx hu normal.toFull admits
  | true =>
    exact Decimal.narrow_of_admits (s := .negative) hx (Binary64.unpack_neg normal hu)
      normal.toFull admits

theorem eq_of_toBits {x y : Float32} (h : x.toBits = y.toBits) : x = y := by
  obtain ⟨⟨a, ha⟩⟩ := x
  obtain ⟨⟨b, hb⟩⟩ := y
  cases h
  rfl

theorem narrow_zero : (Decimal.narrow ((0 : Nat).toUInt64.toFloat / powerOfTen 1)).toBits = 0 ∧
    (Decimal.narrow (-((0 : Nat).toUInt64.toFloat / powerOfTen 1))).toBits = 2147483648 := by
  decide +kernel

theorem toBits_of_zero {x : Float32} (hx : binary32.decode x.toBits.toNat = (negative, .zero)) :
    x.toBits = if negative then 2147483648 else 0 := by
  have word : x.toBits.toNat < 2 ^ 32 := x.toBits.toNat_lt
  rw [Magnitude.decode_eq, Prod.mk.injEq] at hx
  obtain ⟨hs, cls⟩ := hx
  apply UInt32.toNat_inj.1
  split_ifs at cls with ones none few zero
  cases negative <;> simp at hs ⊢ <;> omega

/-- Zero is read as zero, with its sign. -/
theorem toDouble_zero {x : Float32} (hx : binary32.decode x.toBits.toNat = (negative, .zero)) :
    ∃ w, (⟨negative, ['0'], ['0'], none⟩ : Numeral).toDouble = .ok w ∧ Decimal.narrow w = x := by
  have scaled := scale_down (j := 1) (by decide) (by decide) (0 : Nat).toUInt64.toFloat
  have read : (⟨negative, ['0'], ['0'], none⟩ : Numeral).toDouble = .ok
      (if negative then -((0 : Nat).toUInt64.toFloat / powerOfTen 1)
        else (0 : Nat).toUInt64.toFloat / powerOfTen 1) := by
    rw [toDouble_eq (s := 0) rfl (by decide)]
    show (scale _ (-(1 : Nat))).map _ = _
    rw [scaled]
    rfl
  have bits := toBits_of_zero hx
  refine ⟨_, read, eq_of_toBits ?_⟩
  cases negative with
  | false => exact narrow_zero.1.trans bits.symm
  | true => exact narrow_zero.2.trans bits.symm

theorem toDouble_numeral? {x : Float32} (h : numeral? x = some n) :
    ∃ w, n.toDouble = .ok w ∧ Decimal.narrow w = x := by
  unfold numeral? at h
  split at h
  next negative cls hx =>
  cases cls with
  | zero =>
    cases h
    exact toDouble_zero hx
  | finite m =>
    cases h
    exact toFloat32_of_rereads hx Digits.negative_numeral
      (rereads_numeral (Magnitude.single_of_decode hx))
  | infinite | nan => cases h

theorem isInteger_numeral? {x : Float32} (h : numeral? x = some n) : n.isInteger = false := by
  unfold numeral? at h
  split at h
  next negative cls hx =>
  cases cls with
  | zero =>
    cases h
    rfl
  | finite m =>
    cases h
    exact Digits.isInteger_numeral
  | infinite | nan => cases h

/-- The numbers that have a numeral are the finite ones. -/
theorem numeral?_isSome (x : Float32) : (numeral? x).isSome = x.isFinite := by
  have decoded : binary32.decode x.toBits.toNat = (_, Packing.classOf Float.Model.Format.binary32
    x.toModel.unpack) := Packing.decode_toNat Float.Model.Format.binary32 _
  show _ = x.toModel.unpack.isFinite
  unfold numeral?
  rw [decoded]
  cases x.toModel.unpack <;> rfl

/-- A finite number is read as it was written. -/
theorem Reads.float32 {x : Float32} (h : x.isFinite) : Reads Decoder.float32 (.float x) x := by
  obtain ⟨n, hn⟩ := Option.isSome_iff_exists.1 ((numeral?_isSome x).trans h)
  obtain ⟨w, hw, hx⟩ := toDouble_numeral? hn
  have value : n.value = .ok (.double w) := by
    unfold Numeral.value
    dsimp only
    rw [if_neg (by simp [isInteger_numeral? hn]), hw]
    rfl
  show Decoder.float32 (floatValue x) = _
  rw [floatValue, hn]
  simp only [Decoder.float32, value, orFault]
  rw [← hx]
  rfl

/-- An infinity and NaN are not read back. -/
theorem float32_of_not_isFinite {x : Float32} (h : x.isFinite = false) :
    Decoder.float32 (Document.float x).value =
      .error (.data "invalid type: null, expected f32") := by
  have none := (numeral?_isSome x).trans h
  rw [Option.isSome_eq_false_iff, Option.isNone_iff_eq_none] at none
  show Decoder.float32 (floatValue x) = _
  rw [floatValue, none]
  rfl

end BehaviorTree.Json
