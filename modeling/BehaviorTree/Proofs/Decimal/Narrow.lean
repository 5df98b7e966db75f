import BehaviorTree.Proofs.Decimal.Interval
import BehaviorTree.Proofs.Number.Packing

/-!
# Narrowing to single precision

A finite float is what its sign and magnitude are packed to (`eq_pack`), so a double in the interval
of a magnitude narrows to the float with that magnitude and its own sign (`narrow_of_admits`).
-/

namespace BehaviorTree.Decimal

open Float.Model (Format UnpackedFloat)
open Float.Model.UnpackedFloat (Sign)
open Packing (isNegative)

namespace Magnitude

variable {m : Magnitude} {negative : Bool} {n : Nat}

theorem bits_of_decode (h : binary32.decode n = (negative, .finite m)) : m.bits = n % 2 ^ 31 := by
  rw [decode_eq, Prod.mk.injEq] at h
  obtain ⟨-, cls⟩ := h
  split_ifs at cls
  all_goals
    cases cls
    simp only [bits]
    omega

/-- The bits of a magnitude stand for it. -/
theorem decode_bits (h : binary32.decode n = (negative, .finite m)) :
    binary32.decode m.bits = (false, .finite m) := by
  have field : n % 2 ^ 31 / 8388608 % 256 = n / 8388608 % 256 := by omega
  have fraction : n % 2 ^ 31 % 8388608 = n % 8388608 := by omega
  rw [bits_of_decode h, decode_eq, field, fraction]
  rw [decode_eq, Prod.mk.injEq] at h
  rw [h.2, decide_eq_false (by omega)]

end Magnitude

variable {m : Magnitude} {x y : Float32} {w : Float} {s : Sign} {r : Nat} {e : Int} {h : 0 < r}
  {negative : Bool}

theorem eq_pack (hx : x.toModel.unpack = .finite s r e h) :
    x = .ofModel (.pack (.finite s r e h)) := by
  obtain ⟨⟨bits, valid⟩⟩ := x
  congr 2
  have packed : UnpackedFloat.pack Format.binary32 (.finite s r e h) = bits.toBitVec :=
    Packing.pack_unpack (by decide) hx
  rw [packed]

theorem unpack_of_decode (hx : binary32.decode x.toBits.toNat = (negative, .finite m)) :
    ∃ s h, x.toModel.unpack = .finite s m.mantissa m.exponent h ∧ isNegative s = negative :=
  Packing.unpack_of_decode Format.binary32 hx

theorem ofBits_bits (hx : binary32.decode x.toBits.toNat = (negative, .finite m)) :
    ∃ h, Float32.ofBits m.bits.toUInt32 =
        .ofModel (.pack (.finite .positive m.mantissa m.exponent h)) ∧
      -Float32.ofBits m.bits.toUInt32 =
        .ofModel (.pack (.finite .negative m.mantissa m.exponent h)) := by
  have word : m.bits.toUInt32.toBitVec.toNat = m.bits := by
    rw [Magnitude.bits_of_decode hx, Nat.toUInt32]
    show (UInt32.ofNat _).toNat = _
    rw [UInt32.toNat_ofNat', Nat.mod_eq_of_lt (by omega)]
  have hm := Magnitude.decode_bits hx
  rw [← word] at hm
  obtain ⟨s, h, hu, hs⟩ := Packing.unpack_of_decode Format.binary32 hm
  cases s with
  | negative => cases hs
  | positive =>
    have hb : Float32.ofBits m.bits.toUInt32 =
        .ofModel (.pack (.finite .positive m.mantissa m.exponent h)) := by
      show Float32.ofModel (.pack (UnpackedFloat.unpack _ _)) = _
      rw [hu]
    refine ⟨h, hb, ?_⟩
    have hu' : (Float32.ofBits m.bits.toUInt32).toModel.unpack =
        .finite .positive m.mantissa m.exponent h := by
      rw [hb]
      show UnpackedFloat.unpack _ (UnpackedFloat.pack _ _) = _
      rw [Packing.pack_unpack (by decide) hu, hu]
    show Float32.ofModel (.pack (Float32.ofBits m.bits.toUInt32).toModel.unpack.neg) = _
    rw [hu']
    rfl

theorem narrow_of_admits (hx : binary32.decode x.toBits.toNat = (isNegative s, .finite m))
    (hw : w.toModel.unpack = .finite s r e h) (normal : Packing.Full Format.binary64 r)
    (ha : m.Admits (r * 2 ^ e)) : narrow w = x := by
  obtain ⟨lowest, hd⟩ : ∃ lowest, binary64.decode w.toBits.toNat =
    (isNegative s, .finite ⟨r, e, lowest⟩) := Packing.decode_of_unpack Format.binary64 hw
  obtain ⟨s', h', hu, hs⟩ := unpack_of_decode hx
  obtain ⟨h'', positive, negative⟩ := ofBits_bits hx
  have hs : s' = s := by
    cases s <;> cases s' <;> first | rfl | cases hs
  rw [eq_pack hu, hs]
  unfold narrow
  rw [hd]
  show ite _ _ _ = _
  simp only [Magnitude.round_of_admits (Magnitude.single_of_decode hx) normal.low normal.high ha]
  cases s with
  | positive => exact positive
  | negative => exact negative

end BehaviorTree.Decimal
