import BehaviorTree.Proofs.Decimal.Shortest
import BehaviorTree.Proofs.Number.Rounding

/-!
# Single precision

What a `Float32` stands for (`number?`), by the model that Lean has of it: a sign, a mantissa and an
exponent. Rounding keeps the leading 24 bits of a mantissa and is exact if it drops zeros only
(`roundWithAccuracy_eq`), a normal number is stored as it is (`unpack_pack`), and positive floats
compare like the numbers that they stand for (`le_iff_of_number?`).
-/

namespace BehaviorTree.Binary32

open Float.Model
open Float.Model.UnpackedFloat (Sign roundWithAccuracy)

/-- The number that a float stands for. -/
def number? (x : Float32) : Option ℚ :=
  match x.toModel.unpack with
  | .zero _ => some 0
  | .finite s m e _ => some (s.apply m * 2 ^ e)
  | _ => none

/-! ## Rounding -/

/-- A mantissa of 24 bits, and an exponent in range. -/
structure Normal (m : Nat) (e : Int) : Prop where
  low : 2 ^ 23 ≤ m
  high : m < 2 ^ 24
  least : -149 ≤ e
  greatest : e ≤ 104

theorem normal_iff {m : Nat} {e : Int} : Normal m e ↔ Packing.Normal Format.binary32 m e := by
  constructor
  · rintro ⟨low, high, least, greatest⟩
    exact ⟨⟨low, high⟩, show 0 < e + 127 + 23 by omega, show e + 127 + 23 + 1 < 256 by omega⟩
  · rintro ⟨⟨low, high⟩, (least : 0 < e + 127 + 23), (greatest : e + 127 + 23 + 1 < 256)⟩
    exact ⟨low, high, by omega, by omega⟩

/-- Rounding gives a normal number that is no less than what is left without the bits that are
dropped, and that is it if they are zeros. -/
theorem roundWithAccuracy_eq (s : Sign) {m shift : Nat} {e : Int} (hlog : m.log2 = 23 + shift)
    (hlow : -149 ≤ e + shift) (hhigh : e + shift < 104) :
    ∃ (r : Nat) (e' : Int) (h : 0 < r) (r₁ : Nat),
      roundWithAccuracy Format.binary32 s m e .exact = .finite s r e' h ∧ Normal r e' ∧
      (r : ℚ) * 2 ^ e' = r₁ * 2 ^ (e + shift) ∧ m / 2 ^ shift ≤ r₁ ∧
      (2 ^ shift ∣ m → r₁ = m / 2 ^ shift) := by
  have hexact : Rounding.Describes m .exact m := rfl
  obtain ⟨r, e', h, r₁, hround, full, hge, hle, hvalue, hkept, half⟩ :=
    @Rounding.roundWithAccuracy_near Format.binary32 _ _ _ _ _ s hexact hlog hlow
  refine ⟨r, e', h, r₁, hround, ⟨full.low, full.high, by omega, by omega⟩, hvalue, hkept, ?_⟩
  rintro ⟨d, rfl⟩
  have whole : ((2 ^ shift * d : Nat) : ℚ) / 2 ^ shift = d := by
    push_cast
    exact mul_div_cancel_left₀ _ (by positivity)
  rw [whole] at half
  rw [Nat.mul_div_cancel_left _ (by positivity), Rounding.eq_of_near half]

/-! ## Packing -/

/-- What a stored finite number is made of. -/
structure Canonical (m : Nat) (e : Int) : Prop where
  high : m < 2 ^ 24
  least : -149 ≤ e
  normal : 2 ^ 23 ≤ m ∨ e = -149

theorem canonical_of_unpack {b : BitVec Format.binary32.numBits} {s : Sign} {m : Nat} {e : Int}
    {h : 0 < m} (hb : UnpackedFloat.unpack Format.binary32 b = .finite s m e h) :
    Canonical m e := by
  obtain ⟨lowest, hdecode⟩ := Packing.decode_of_unpack Format.binary32 hb
  have hsingle := Decimal.Magnitude.single_of_decode hdecode
  have hleast : -149 ≤ e := hsingle.least
  refine ⟨hsingle.lt, hleast, ?_⟩
  rcases hleast.lt_or_eq with he | he
  · exact .inl (hsingle.full he)
  · exact .inr he.symm

/-- A normal number is stored as it is. -/
theorem unpack_pack {s : Sign} {m : Nat} {e : Int} (hpos : 0 < m) (h : Normal m e) :
    UnpackedFloat.unpack Format.binary32 (UnpackedFloat.pack Format.binary32 (.finite s m e hpos)) =
      .finite s m e hpos :=
  Packing.unpack_pack (normal_iff.1 h)

/-! ## Reading -/

/-- A float that stands for a positive number is made of its mantissa and exponent. -/
theorem unpack_of_number? {x : Float32} {q : ℚ} (hx : number? x = some q) (hq : 0 < q) :
    ∃ (m : Nat) (e : Int) (h : 0 < m), x.toModel.unpack = .finite .positive m e h ∧
      Canonical m e ∧ (m : ℚ) * 2 ^ e = q := by
  unfold number? at hx
  split at hx
  · cases hx
    exact absurd hq (lt_irrefl 0)
  · rename_i s m e h hu
    cases hx
    cases s with
    | negative =>
      have hpos : (0 : ℚ) < m * 2 ^ e := by positivity
      simp only [Sign.apply, Int.cast_neg, Int.cast_natCast] at hq
      linarith
    | positive => exact ⟨m, e, h, hu, canonical_of_unpack hu, rfl⟩
  · cases hx

theorem unpack_of_number?_zero {x : Float32} (hx : number? x = some 0) :
    ∃ s, x.toModel.unpack = .zero s := by
  unfold number? at hx
  split at hx
  · rename_i s hu
    exact ⟨s, hu⟩
  · rename_i s m e h hu
    have hm : (m : ℚ) ≠ 0 := by exact_mod_cast h.ne'
    cases s <;> simp [Sign.apply, hm, zpow_ne_zero] at hx
  · cases hx

theorem number?_of_unpack {x : Float32} {m : Nat} {e : Int} {h : 0 < m}
    (hx : x.toModel.unpack = .finite .positive m e h) : number? x = some ((m : ℚ) * 2 ^ e) := by
  rw [number?, hx]
  rfl

theorem number?_zero : number? 0 = some 0 := rfl

/-! ## Comparing -/

theorem le_iff (x y : Float32) : x ≤ y ↔ x.toModel.unpack.le y.toModel.unpack := by
  show decide (x.toModel.unpack.le y.toModel.unpack = true) = true ↔ _
  exact decide_eq_true_iff

/-- A number with a greater exponent is greater. -/
theorem Canonical.lt {m m' : Nat} {e e' : Int} (h : Canonical m e) (h' : Canonical m' e')
    (he : e < e') : (m : ℚ) * 2 ^ e < m' * 2 ^ e' := by
  have hlow : 2 ^ 23 ≤ m' := h'.normal.resolve_right (by have := h.least; omega)
  have hm : (m : ℚ) < 2 * m' := by
    have hlt : m < 2 * m' := by have := h.high; omega
    exact_mod_cast hlt
  calc (m : ℚ) * 2 ^ e < 2 * m' * 2 ^ e := by gcongr
    _ = m' * 2 ^ (e + 1) := by rw [zpow_add_one₀ two_ne_zero]; ring
    _ ≤ m' * 2 ^ e' := by gcongr <;> [norm_num; omega]

/-- Positive floats compare like the numbers that they stand for. -/
theorem le_iff_of_number? {x y : Float32} {a b : ℚ} (hx : number? x = some a)
    (hy : number? y = some b) (ha : 0 < a) (hb : 0 < b) : x ≤ y ↔ a ≤ b := by
  obtain ⟨m, e, hm, hux, hcx, rfl⟩ := unpack_of_number? hx ha
  obtain ⟨m', e', hm', huy, hcy, rfl⟩ := unpack_of_number? hy hb
  rw [le_iff, hux, huy]
  have hle : (UnpackedFloat.finite .positive m e hm).le (.finite .positive m' e' hm') =
      ((compare e e').then (compare m m')).isLE := rfl
  rw [hle]
  rcases lt_trichotomy e e' with he | rfl | he
  · rw [compare_lt_iff_lt.2 he]
    exact iff_of_true rfl (hcx.lt hcy he).le
  · rw [compare_eq_iff_eq.2 rfl]
    show (compare m m').isLE ↔ _
    rw [Nat.isLE_compare, mul_le_mul_iff_left₀ (by positivity), Nat.cast_le]
  · rw [compare_gt_iff_gt.2 he]
    exact iff_of_false Bool.false_ne_true (not_le.2 (hcy.lt hcx he))

end BehaviorTree.Binary32
