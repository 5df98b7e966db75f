import BehaviorTree.Key
import Mathlib

/-!
# Which names have the same key

Key 0 stands for "no name". The empty name has it, and so has a name whose last code unit equals
the state of the digest after the others (`Key.ofName_eq_zero_iff`); `Key.ofName_ppkttia` is such a
name.

A step of the digest can be undone, in the state and in the code unit (`Digest.Faithful`): the FNV
primes are odd. So names that are equally long and differ in one code unit have different keys
(`Key.ofName_ne_of_oneApart`).
-/

namespace BehaviorTree

namespace Digest

/-- The FNV prime is odd, so a product with it can be undone. -/
theorem mul_prime_injective : Function.Injective fun x : UInt32 => x * 16777619 := by
  have hunit : IsUnit (16777619 : UInt32) := IsUnit.of_mul_eq_one 899433627 (by decide)
  exact hunit.mul_left_injective

theorem mul_prime64_injective : Function.Injective fun x : UInt64 => x * 1099511628211 := by
  have hunit : IsUnit (1099511628211 : UInt64) :=
    IsUnit.of_mul_eq_one 14886173955864302971 (by decide)
  exact hunit.mul_left_injective

theorem mul_prime_eq_zero_iff {x : UInt32} : x * 16777619 = 0 ↔ x = 0 := by
  rw [← mul_prime_injective.eq_iff (a := x), UInt32.zero_mul]

theorem step32_eq_zero_iff {state : UInt32} {unit : UInt16} :
    step32 state unit = 0 ↔ state = unit.toUInt32 := by
  rw [step32, mul_prime_eq_zero_iff, UInt32.xor_eq_zero_iff]

theorem of32_eq_zero_iff {name : String} :
    of32 name = 0 ↔ name = "" ∨ ∃ units last, Text.units name = units ++ [last] ∧
      units.foldl step32 basis32 = last.toUInt32 := by
  unfold of32
  split
  · next h => simp [h]
  · next h =>
    rw [or_iff_right h]
    rcases List.eq_nil_or_concat (Text.units name) with hnil | ⟨units, last, hunits⟩
    · simp [hnil, basis32]
    · rw [hunits, List.concat_eq_append, List.foldl_append, List.foldl_cons, List.foldl_nil,
        step32_eq_zero_iff]
      constructor
      · intro hlast
        exact ⟨units, last, rfl, hlast⟩
      · rintro ⟨units', last', hsame, hlast⟩
        obtain ⟨rfl, hl⟩ := List.append_inj' hsame rfl
        cases hl
        exact hlast

end Digest

namespace Key

/-- Which names have key 0. -/
theorem ofName_eq_zero_iff {name : String} :
    ofName name = 0 ↔ name = "" ∨ ∃ units last, Text.units name = units ++ [last] ∧
      units.foldl Digest.step32 Digest.basis32 = last.toUInt32 := by
  rw [← Digest.of32_eq_zero_iff]
  constructor
  · intro h
    exact congrArg Int32.toUInt32 h
  · intro h
    rw [ofName, h]
    rfl

/-- A name of seven letters that has key 0. -/
theorem ofName_ppkttia : ofName "ppkttia" = 0 := by decide +kernel

end Key

/-! ## Names that differ in one code unit -/

namespace Text

/-- Two lists of code units are equally long and differ in just one place. -/
def OneApart (us vs : List UInt16) : Prop := us.length = vs.length ∧ ∃! i : Nat, us[i]? ≠ vs[i]?

theorem OneApart.split {us vs : List UInt16} (h : OneApart us vs) :
    ∃ before u v after, u ≠ v ∧ us = before ++ u :: after ∧ vs = before ++ v :: after := by
  obtain ⟨hlength, i, hi, honly⟩ := h
  have hsame : ∀ j, j ≠ i → us[j]? = vs[j]? := fun j hj => by_contra fun hne => hj (honly j hne)
  have hlt : i < us.length := by
    by_contra hge
    apply hi
    rw [List.getElem?_eq_none (by omega), List.getElem?_eq_none (by omega)]
  have hlt' : i < vs.length := hlength ▸ hlt
  have hbefore : us.take i = vs.take i := by
    apply List.ext_getElem?
    intro j
    rw [List.getElem?_take, List.getElem?_take]
    split
    · next hj => exact hsame j (by omega)
    · rfl
  have hafter : us.drop (i + 1) = vs.drop (i + 1) := by
    apply List.ext_getElem?
    intro j
    rw [List.getElem?_drop, List.getElem?_drop]
    exact hsame _ (by omega)
  refine ⟨us.take i, us[i], vs[i], us.drop (i + 1), ?_, ?_, ?_⟩
  · intro heq
    apply hi
    rw [List.getElem?_eq_getElem hlt, List.getElem?_eq_getElem hlt', heq]
  · rw [← List.drop_eq_getElem_cons hlt, List.take_append_drop]
  · rw [hbefore, hafter, ← List.drop_eq_getElem_cons hlt', List.take_append_drop]

theorem units_append (a b : String) : units (a ++ b) = units a ++ units b := by
  rw [units, String.toList_append, List.flatMap_append, units, units]

theorem units_singleton {c : Char} (h : c.toNat < 0x10000) :
    units (String.singleton c) = [c.toNat.toUInt16] := by
  simp [units, charUnits, h]

end Text

namespace Digest

/-- A step of a digest loses nothing: behind a given unit, the state before it can be told from the
state after it, and in a given state the unit can. -/
structure Faithful {σ : Type} (step : σ → UInt16 → σ) : Prop where
  state : ∀ unit, Function.Injective fun state => step state unit
  unit : ∀ state, Function.Injective (step state)

theorem faithful_step32 : Faithful step32 where
  state _ := mul_prime_injective.comp fun _ _ h => (UInt32.xor_left_inj _).1 h
  unit state := mul_prime_injective.comp fun _ _ h =>
    UInt16.toUInt32_inj.1 ((UInt32.xor_right_inj state).1 h)

theorem faithful_step64 : Faithful step64 where
  state _ := mul_prime64_injective.comp fun _ _ h => (UInt64.xor_left_inj _).1 h
  unit state := mul_prime64_injective.comp fun _ _ h =>
    UInt16.toUInt64_inj.1 ((UInt64.xor_right_inj state).1 h)

namespace Faithful

variable {σ : Type} {step : σ → UInt16 → σ}

/-- By induction on the units: states that differ stay different. -/
theorem foldl_injective (h : Faithful step) (units : List UInt16) :
    Function.Injective fun state => units.foldl step state := by
  induction units with
  | nil => exact Function.injective_id
  | cons unit units ih => exact ih.comp (h.state unit)

theorem foldl_ne (h : Faithful step) (state : σ) (before after : List UInt16) {u v : UInt16}
    (huv : u ≠ v) :
    (before ++ u :: after).foldl step state ≠ (before ++ v :: after).foldl step state := by
  rw [List.foldl_append, List.foldl_append, List.foldl_cons, List.foldl_cons]
  intro heq
  have hstates := h.foldl_injective after heq
  exact huv (h.unit _ hstates)

end Faithful

variable {name : String} {before after : List UInt16} {u : UInt16}

theorem ne_empty_of_units (h : Text.units name = before ++ u :: after) : name ≠ "" := by
  rintro rfl
  simp at h

theorem of32_eq_foldl (h : Text.units name = before ++ u :: after) :
    of32 name = (before ++ u :: after).foldl step32 basis32 := by
  rw [of32, if_neg (ne_empty_of_units h), h]

theorem of64_eq_foldl (h : Text.units name = before ++ u :: after) :
    of64 name = (before ++ u :: after).foldl step64 basis64 := by
  rw [of64, if_neg (ne_empty_of_units h), h]

end Digest

namespace Key

/-- Neither the digests nor the keys of two names are the same. -/
structure Apart (a b : String) : Prop where
  digest32 : Digest.of32 a ≠ Digest.of32 b
  digest64 : Digest.of64 a ≠ Digest.of64 b
  key : ofName a ≠ ofName b
  wideKey : wideOfName a ≠ wideOfName b

theorem apart_of_split {a b : String} {before after : List UInt16} {u v : UInt16} (huv : u ≠ v)
    (ha : Text.units a = before ++ u :: after) (hb : Text.units b = before ++ v :: after) :
    Apart a b := by
  have h32 : Digest.of32 a ≠ Digest.of32 b := by
    rw [Digest.of32_eq_foldl ha, Digest.of32_eq_foldl hb]
    exact Digest.faithful_step32.foldl_ne _ _ _ huv
  have h64 : Digest.of64 a ≠ Digest.of64 b := by
    rw [Digest.of64_eq_foldl ha, Digest.of64_eq_foldl hb]
    exact Digest.faithful_step64.foldl_ne _ _ _ huv
  exact ⟨h32, h64, fun h => h32 (congrArg Int32.toUInt32 h),
    fun h => h64 (congrArg Int64.toUInt64 h)⟩

/-- Two names that are equally long and differ in one code unit have different digests and keys,
whatever stands before and behind it. So have names that differ in one character of those that are
one code unit: numbered names, or names with one letter in the other case. -/
theorem ofName_ne_of_oneApart :
    (∀ a b, Text.OneApart (Text.units a) (Text.units b) → Apart a b) ∧
    ∀ (before after : String) (c d : Char), c.toNat < 0x10000 → d.toNat < 0x10000 → c ≠ d →
      Apart (before ++ String.singleton c ++ after) (before ++ String.singleton d ++ after) := by
  constructor
  · intro a b h
    obtain ⟨before, u, v, after, huv, ha, hb⟩ := h.split
    exact apart_of_split huv ha hb
  · intro before after c d hc hd hcd
    have hunits : ∀ {x : Char}, x.toNat < 0x10000 →
        Text.units (before ++ String.singleton x ++ after) =
          Text.units before ++ x.toNat.toUInt16 :: Text.units after := by
      intro x hx
      rw [Text.units_append, Text.units_append, Text.units_singleton hx, List.append_assoc]
      rfl
    refine apart_of_split (fun heq => hcd ?_) (hunits hc) (hunits hd)
    apply Char.toNat_inj.1
    have hmod : c.toNat % 2 ^ 16 = d.toNat % 2 ^ 16 := by
      simpa using congrArg UInt16.toNat heq
    omega

/-- `ofName_ne_of_oneApart` for two numbered names, and for names that differ in the case of a
letter. -/
theorem ofName_ne_of_oneApart_numbered :
    Text.OneApart (Text.units "key1") (Text.units "key9") ∧ Apart "key1" "key9" ∧
      Apart "Wait" "wait" := by
  have hunits : Text.units "key1" = [107, 101, 121, 49] ∧
      Text.units "key9" = [107, 101, 121, 57] := by decide
  have hone : Text.OneApart (Text.units "key1") (Text.units "key9") := by
    rw [hunits.1, hunits.2]
    refine ⟨rfl, 3, by decide, fun i hi => ?_⟩
    match i with
    | 0 | 1 | 2 => simp at hi
    | 3 => rfl
    | i + 4 => simp at hi
  exact ⟨hone, ofName_ne_of_oneApart.1 _ _ hone,
    ofName_ne_of_oneApart.2 "" "ait" 'W' 'w' (by decide) (by decide) (by decide)⟩

end Key

end BehaviorTree
