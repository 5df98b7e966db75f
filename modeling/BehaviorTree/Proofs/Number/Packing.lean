import BehaviorTree.Decimal.Binary
import Mathlib

/-!
# The bits of floating-point numbers

Lean's model of floating-point numbers takes bits apart with `unpack` and puts them together with
`pack`. A finite number is packed as it was (`pack_unpack`), a normal one unpacked as it was
(`unpack_pack`), and `Decimal.Format.decode` reads the same from the bits as `unpack`
(`decode_toNat`, `decode_of_unpack`, `unpack_of_decode`).
-/

namespace BehaviorTree.Packing

open Float.Model (Format UnpackedFloat)
open Float.Model.UnpackedFloat
open Decimal (twoTo)

variable {spec : Float.Model.Format} {b : BitVec spec.numBits} {s : Sign} {m : Nat} {e : Int}
  {h : 0 < m}

/-! ## The parts -/

theorem toNat_unpackMantissa :
    (unpackMantissa b).toNat = b.toNat % 2 ^ spec.mantissaBitsWithoutImplicit := by
  have := spec.hm
  simp [unpackMantissa, BitVec.extractLsb_toNat, Nat.sub_add_cancel this]

theorem toNat_unpackExponent :
    (unpackExponent b).toNat =
      b.toNat / 2 ^ spec.mantissaBitsWithoutImplicit % 2 ^ spec.exponentBits := by
  have := spec.he
  have width : spec.mantissaBitsWithoutImplicit + spec.exponentBits - 1 -
    spec.mantissaBitsWithoutImplicit + 1 = spec.exponentBits := by omega
  simp [unpackExponent, BitVec.extractLsb_toNat, width, Nat.shiftRight_eq_div_pow]

theorem toNat_unpackSign :
    (unpackSign b).toNat =
      b.toNat / 2 ^ (spec.mantissaBitsWithoutImplicit + spec.exponentBits) := by
  have : b.toNat < 2 ^ (1 + spec.exponentBits + spec.mantissaBitsWithoutImplicit) := b.isLt
  rw [show 1 + spec.exponentBits + spec.mantissaBitsWithoutImplicit =
    1 + (spec.mantissaBitsWithoutImplicit + spec.exponentBits) by omega, pow_add] at this
  have small := (Nat.div_lt_iff_lt_mul (Nat.two_pow_pos _)).2 this
  simp [unpackSign, BitVec.extractLsb_toNat, Nat.shiftRight_eq_div_pow]
  omega

theorem toBitVec_ofBitVec (v : BitVec 1) : (Sign.ofBitVec v).toBitVec = v := by
  revert v
  decide

theorem toNat_packComponents (f : BitVec spec.exponentBits)
    (v : BitVec spec.mantissaBitsWithoutImplicit) :
    (packComponents spec s f v).toNat =
      (s.toBitVec.toNat * 2 ^ spec.exponentBits + f.toNat) *
        2 ^ spec.mantissaBitsWithoutImplicit + v.toNat := by
  unfold packComponents
  rw [BitVec.toNat_append, BitVec.toNat_append, ← Nat.shiftLeft_add_eq_or_of_lt v.isLt,
    ← Nat.shiftLeft_add_eq_or_of_lt f.isLt, Nat.shiftLeft_eq, Nat.shiftLeft_eq]

/-- A number is put together from its parts. -/
theorem packComponents_unpack (b : BitVec spec.numBits) :
    packComponents spec (Sign.ofBitVec (unpackSign b)) (unpackExponent b) (unpackMantissa b) =
      b := by
  apply BitVec.eq_of_toNat_eq
  rw [toNat_packComponents, toBitVec_ofBitVec, toNat_unpackSign, toNat_unpackExponent,
    toNat_unpackMantissa, pow_add, ← Nat.div_div_eq_div_mul, Nat.mul_comm _ (2 ^ spec.exponentBits),
    Nat.div_add_mod, Nat.mul_comm, Nat.div_add_mod]

/-- The leading bit that is not stored. -/
theorem toNat_one_append {k : Nat} (v : BitVec k) : (1#1 ++ v).toNat = 2 ^ k + v.toNat := by
  rw [BitVec.toNat_append, ← Nat.shiftLeft_add_eq_or_of_lt v.isLt, Nat.shiftLeft_eq]
  simp

theorem toNat_ones (k : Nat) : (-1#k).toNat = 2 ^ k - 1 := by
  rw [BitVec.neg_one_eq_allOnes, BitVec.toNat_allOnes]

/-! ## Packing and unpacking -/

/-- A mantissa with all bits of the format is stored without the leading one. -/
theorem pack_of_log2_eq {field : Nat} (hlog : m.log2 = spec.mantissaBitsWithoutImplicit)
    (hfield : (e + spec.exponentBias + spec.mantissaBitsWithoutImplicit).toNat = field)
    (bounded : field + 1 < 2 ^ spec.exponentBits) :
    pack spec (.finite s m e h) =
      packComponents spec s (BitVec.ofNat _ field) (BitVec.ofNat _ m) := by
  unfold pack
  simp only [hfield]
  rw [if_neg (by omega), if_pos (by rw [hlog, Format.mantissaBits, Nat.add_comm])]

/-- A mantissa with fewer bits is stored as it is, under the exponent field 0. -/
theorem pack_of_log2_lt (wide : 1 < spec.exponentBits)
    (hlog : m.log2 < spec.mantissaBitsWithoutImplicit)
    (hleast : (e + spec.exponentBias + spec.mantissaBitsWithoutImplicit).toNat = 1) :
    pack spec (.finite s m e h) = packComponents spec s 0#_ (BitVec.ofNat _ m) := by
  have small : ¬2 ^ spec.exponentBits ≤ 1 + 1 :=
    not_le.2 ((Nat.pow_lt_pow_right (by decide : 1 < 2) wide : 2 ^ 1 < _))
  unfold pack
  simp only [hleast]
  rw [if_neg small, if_neg (by rw [Format.mantissaBits]; omega)]

theorem pack_unpack (wide : 1 < spec.exponentBits) (hb : unpack spec b = .finite s m e h) :
    pack spec (.finite s m e h) = b := by
  revert hb
  fun_cases unpack spec b with
  | case1 => nofun
  | case2 => nofun
  | case3 => nofun
  | case4 fraction field exponent signBit sign _ hfield hfraction =>
    intro hb
    obtain ⟨rfl, rfl, rfl⟩ := UnpackedFloat.finite.inj hb
    have pos : fraction.toNat ≠ 0 := fun zero => hfraction (BitVec.eq_of_toNat_eq zero)
    have hlog : fraction.toNat.log2 < spec.mantissaBitsWithoutImplicit :=
      (Nat.log2_lt pos).2 fraction.isLt
    have hbiased : (exponent + 1 + spec.exponentBias + spec.mantissaBitsWithoutImplicit).toNat =
        1 := by
      simp only [exponent, hfield]
      simp
      omega
    rw [pack_of_log2_lt wide hlog hbiased, ← hfield, BitVec.ofNat_toNat, BitVec.setWidth_eq]
    exact packComponents_unpack b
  | case5 fraction field exponent signBit sign hnan hfield =>
    intro hb
    obtain ⟨rfl, rfl, rfl⟩ := UnpackedFloat.finite.inj hb
    have hlog : (1#1 ++ fraction).toNat.log2 = spec.mantissaBitsWithoutImplicit := by
      have := fraction.isLt
      rw [toNat_one_append, Nat.log2_eq_iff (by positivity), pow_succ]
      omega
    have hbiased : (exponent + spec.exponentBias + spec.mantissaBitsWithoutImplicit).toNat =
        field.toNat := by
      omega
    have bounded : field.toNat + 1 < 2 ^ spec.exponentBits := by
      refine lt_of_le_of_ne field.isLt fun top => hnan (BitVec.eq_of_toNat_eq ?_)
      rw [toNat_ones]
      omega
    have low : BitVec.ofNat _ (1#1 ++ fraction).toNat = fraction := by
      apply BitVec.eq_of_toNat_eq
      rw [toNat_one_append, BitVec.toNat_ofNat, Nat.add_mod_left, Nat.mod_eq_of_lt fraction.isLt]
    rw [pack_of_log2_eq hlog hbiased bounded, low, BitVec.ofNat_toNat, BitVec.setWidth_eq]
    exact packComponents_unpack b

/-- A mantissa with all bits of the format. -/
structure Full (spec : Float.Model.Format) (m : Nat) : Prop where
  low : 2 ^ spec.mantissaBitsWithoutImplicit ≤ m
  high : m < 2 ^ (spec.mantissaBitsWithoutImplicit + 1)

theorem log2_eq {m k : Nat} (hlow : 2 ^ k ≤ m) (hhigh : m < 2 ^ (k + 1)) : m.log2 = k :=
  (Nat.log2_eq_iff (by have := Nat.two_pow_pos k; omega)).2 ⟨hlow, hhigh⟩

theorem Full.log2 (h : Full spec m) : m.log2 = spec.mantissaBitsWithoutImplicit :=
  log2_eq h.low h.high

/-- A mantissa with all bits of the format, and an exponent in its range. -/
structure Normal (spec : Float.Model.Format) (m : Nat) (e : Int) : Prop extends Full spec m where
  least : 0 < e + spec.exponentBias + spec.mantissaBitsWithoutImplicit
  greatest : e + spec.exponentBias + spec.mantissaBitsWithoutImplicit + 1 < 2 ^ spec.exponentBits

theorem unpack_pack (normal : Normal spec m e) :
    unpack spec (UnpackedFloat.pack spec (.finite s m e h)) = .finite s m e h := by
  obtain ⟨full, least, greatest⟩ := normal
  have hlog := full.log2
  obtain ⟨low, high⟩ := full
  obtain ⟨field, hfield⟩ : ∃ field : Nat,
      (field : Int) = e + spec.exponentBias + spec.mantissaBitsWithoutImplicit :=
    ⟨_, Int.toNat_of_nonneg least.le⟩
  have bounded : field + 1 < 2 ^ spec.exponentBits := by
    zify
    omega
  have hpack : UnpackedFloat.pack spec (.finite s m e h) =
      packComponents spec s (BitVec.ofNat _ field) (BitVec.ofNat _ m) :=
    pack_of_log2_eq hlog (by omega) bounded
  have hfield' : (BitVec.ofNat spec.exponentBits field).toNat = field := by
    rw [BitVec.toNat_ofNat, Nat.mod_eq_of_lt (by omega)]
  have hnan : BitVec.ofNat spec.exponentBits field ≠ -1#_ := by
    intro heq
    rw [heq, toNat_ones] at hfield'
    omega
  have hzero : BitVec.ofNat spec.exponentBits field ≠ 0#_ := by
    intro heq
    rw [heq, BitVec.toNat_zero] at hfield'
    omega
  have hm : (1#1 ++ BitVec.ofNat spec.mantissaBitsWithoutImplicit m).toNat = m := by
    rw [pow_succ] at high
    rw [toNat_one_append, BitVec.toNat_ofNat, Nat.mod_eq_sub_mod low, Nat.mod_eq_of_lt (by omega)]
    omega
  rw [hpack]
  unfold unpack
  simp only [unpackMantissa_packComponents, unpackExponent_packComponents,
    unpackSign_packComponents]
  rw [if_neg hnan, if_neg hzero]
  simp only [hm, hfield', Sign.ofBitVec_toBitVec]
  congr 1
  omega

/-! ## Decoding -/

/-- The widths of a format. -/
def widths (spec : Float.Model.Format) : Decimal.Format :=
  ⟨spec.mantissaBitsWithoutImplicit, spec.exponentBits⟩

theorem least_eq : (widths spec).leastExponent =
    1 - (spec.exponentBias + spec.mantissaBitsWithoutImplicit : Int) := by
  have pos := Nat.two_pow_pos (spec.exponentBits - 1)
  show (2 : Int) - ((2 ^ (spec.exponentBits - 1) : Nat) : Int) - _ = _
  unfold Format.exponentBias
  simp only [widths]
  omega

/-- Whether a sign is a minus sign. -/
def isNegative : Sign → Bool
  | .negative => true
  | .positive => false

theorem isNegative_unpackSign :
    isNegative (Sign.ofBitVec (unpackSign b)) = decide ((widths spec).signBit ≤ b.toNat) := by
  have pos := Nat.two_pow_pos (spec.mantissaBitsWithoutImplicit + spec.exponentBits)
  have value : (widths spec).signBit =
      2 ^ (spec.mantissaBitsWithoutImplicit + spec.exponentBits) := by
    rw [Nat.add_comm]
    rfl
  have bit : unpackSign b = 0#1 ↔ b.toNat < (widths spec).signBit := by
    rw [value, ← Nat.div_eq_zero_iff_lt pos, ← toNat_unpackSign, ← BitVec.toNat_inj,
      BitVec.toNat_zero]
  unfold Sign.ofBitVec
  split_ifs with zero
  · exact (decide_eq_false (not_le.2 (bit.1 zero))).symm
  · exact (decide_eq_true (not_lt.1 (mt bit.2 zero))).symm

/-- What an unpacked number denotes, its sign apart. -/
def classOf (spec : Float.Model.Format) : UnpackedFloat → Decimal.Class
  | .zero _ => .zero
  | .finite _ m e _ => .finite ⟨m, e,
      m = 2 ^ spec.mantissaBitsWithoutImplicit && (widths spec).leastExponent < e⟩
  | .infinity _ => .infinite
  | .notANumber => .nan

variable (spec) in
theorem decode_toNat (b : BitVec spec.numBits) : (widths spec).decode b.toNat =
    (isNegative (Sign.ofBitVec (unpackSign b)), classOf spec (unpack spec b)) := by
  have fraction : b.toNat % twoTo (widths spec).fractionBits = (unpackMantissa b).toNat :=
    toNat_unpackMantissa.symm
  have field : b.toNat / twoTo (widths spec).fractionBits % twoTo (widths spec).exponentBits =
    (unpackExponent b).toNat := toNat_unpackExponent.symm
  have top : (unpackExponent b).toNat = (widths spec).topField ↔ unpackExponent b = -1#_ := by
    rw [← BitVec.toNat_inj, toNat_ones]
    rfl
  have none : (unpackMantissa b).toNat = 0 ↔ unpackMantissa b = 0#_ := by
    rw [← BitVec.toNat_inj, BitVec.toNat_zero]
  have low : (unpackExponent b).toNat = 0 ↔ unpackExponent b = 0#_ := by
    rw [← BitVec.toNat_inj, BitVec.toNat_zero]
  unfold Decimal.Format.decode
  rw [isNegative_unpackSign]
  simp only [fraction, field]
  refine Prod.ext rfl ?_
  unfold unpack
  simp only [top, none, low]
  split_ifs with ones zero few zero
  · rfl
  · rfl
  · rfl
  · have small : (unpackMantissa b).toNat ≠ 2 ^ spec.mantissaBitsWithoutImplicit :=
      (unpackMantissa b).isLt.ne
    have exponent : (widths spec).leastExponent =
        (BitVec.ofNat spec.exponentBits 0).toNat -
          (spec.exponentBias + spec.mantissaBitsWithoutImplicit : Int) + 1 := by
      rw [least_eq, BitVec.toNat_zero]
      omega
    simp [classOf, few, small, exponent]
  · have pos : (unpackExponent b).toNat ≠ 0 := mt low.1 few
    have exponent : (widths spec).leastExponent + ((unpackExponent b).toNat - 1 : Nat) =
        (unpackExponent b).toNat -
          (spec.exponentBias + spec.mantissaBitsWithoutImplicit : Int) := by
      rw [least_eq]
      omega
    have lowest : (widths spec).leastExponent <
        (unpackExponent b).toNat - (spec.exponentBias + spec.mantissaBitsWithoutImplicit : Int) ↔
          1 < (unpackExponent b).toNat := by
      omega
    have mantissa : twoTo (widths spec).fractionBits + (unpackMantissa b).toNat =
        (1#1 ++ unpackMantissa b).toNat := (toNat_one_append _).symm
    have first : (1#1 ++ unpackMantissa b).toNat = 2 ^ spec.mantissaBitsWithoutImplicit ↔
        unpackMantissa b = 0#_ := by
      rw [toNat_one_append, ← none]
      omega
    rw [classOf, exponent, mantissa]
    simp only [first, lowest]

theorem unpackSign_of_finite (hb : unpack spec b = .finite s m e h) :
    Sign.ofBitVec (unpackSign b) = s := by
  unfold unpack at hb
  dsimp only at hb
  split_ifs at hb <;> exact (UnpackedFloat.finite.inj hb).1

variable (spec) in
theorem decode_of_unpack (hb : unpack spec b = .finite s m e h) :
    ∃ lowest, (widths spec).decode b.toNat = (isNegative s, .finite ⟨m, e, lowest⟩) := by
  rw [decode_toNat, unpackSign_of_finite hb, hb]
  exact ⟨_, rfl⟩

variable (spec) in
theorem unpack_of_decode {negative : Bool} {magnitude : Decimal.Magnitude}
    (hd : (widths spec).decode b.toNat = (negative, .finite magnitude)) :
    ∃ s h, unpack spec b = .finite s magnitude.mantissa magnitude.exponent h ∧
      isNegative s = negative := by
  rw [decode_toNat, Prod.mk.injEq] at hd
  obtain ⟨hs, hc⟩ := hd
  cases hb : unpack spec b with
  | finite s m e h =>
    rw [hb] at hc
    cases hc
    exact ⟨s, h, rfl, by rw [← hs, unpackSign_of_finite hb]⟩
  | _ => rw [hb] at hc; cases hc

end BehaviorTree.Packing
