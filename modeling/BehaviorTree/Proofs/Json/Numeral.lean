import BehaviorTree.Json.Number
import BehaviorTree.Json.Reader
import Mathlib

/-!
# Numbers survive JSON

* `Numeral.spell` is the text of a numeral, and `Numeral.Proper` what makes it one that JSON admits;
  a proper numeral whose text is delimited is read as itself (`readNumber_spell`).
* `Numeral.ofInt` is the numeral that an integer is written as (`spell_ofInt`); within 64 bits its
  value is the integer again (`toInt?_ofInt`).
-/

namespace BehaviorTree.Json

open Decimal (digitValue natOfDigits spanDigits spanSign)

/-! ## Rows of digits -/

/-- All characters are decimal digits. -/
def AllDigits (s : List Char) : Prop := ∀ c ∈ s, c.isDigit

/-- The text does not go on as a number could. -/
def Delimited (s : List Char) : Prop :=
  ∀ c ∈ s.head?, ¬c.isDigit ∧ c ≠ '.' ∧ c ≠ 'e' ∧ c ≠ 'E'

theorem allDigits_toDigits (n : Nat) : AllDigits (Nat.toDigits 10 n) :=
  fun _ h => Nat.isDigit_of_mem_toDigits (by decide) (by decide) h

theorem natOfDigits_toDigits (n : Nat) : natOfDigits (Nat.toDigits 10 n) = n :=
  Nat.ofDigitChars_ten_toDigits

/-- Only zero has a leading zero. -/
theorem head?_toDigits_ne {n : Nat} (h : 0 < n) : (Nat.toDigits 10 n).head? ≠ some '0' := by
  induction n using Nat.strong_induction_on with
  | _ n ih =>
    rcases Nat.lt_or_ge n 10 with lt | ge
    · rw [Nat.toDigits_of_lt_base lt]
      simpa using h.ne'
    · have shorter := ih (n / 10) (by omega) (by omega)
      rw [Nat.toDigits_of_base_le (by decide) ge]
      cases hd : Nat.toDigits 10 (n / 10) with
      | nil => exact absurd hd Nat.toDigits_ne_nil
      | cons d ds => simpa [hd] using shorter

theorem spanDigits_append {digits rest : List Char} (hd : AllDigits digits)
    (hr : ∀ c ∈ rest.head?, ¬c.isDigit) : spanDigits (digits ++ rest) = (digits, rest) := by
  have hdrop : rest.dropWhile Char.isDigit = rest := by
    cases rest with
    | nil => rfl
    | cons c rest => simpa using hr c (by simp)
  have htake : rest.takeWhile Char.isDigit = [] := by
    cases rest with
    | nil => rfl
    | cons c rest => simpa using hr c (by simp)
  simp [spanDigits, List.takeWhile_append_of_pos hd, List.dropWhile_append_of_pos hd, hdrop, htake]

/-- More digits make no smaller number. -/
theorem le_ofDigitChars (digits : List Char) (n : Nat) : n ≤ Nat.ofDigitChars 10 digits n := by
  rw [Nat.ofDigitChars_eq_ofDigitChars_zero]
  have := Nat.le_mul_of_pos_left n (Nat.pow_pos (n := digits.length) (show 0 < 10 by decide))
  omega

/-- Digits whose number fits 64 bits are all taken. -/
theorem takeDigits_of_lt {digits : List Char} {significand : Nat} (taken : Nat)
    (h : Nat.ofDigitChars 10 digits significand < UInt64.size) :
    takeDigits significand taken digits =
      (Nat.ofDigitChars 10 digits significand, taken + digits.length, 0) := by
  induction digits generalizing significand taken with
  | nil => simp [takeDigits]
  | cons d rest ih =>
    have hv : significand * 10 + digitValue d = 10 * significand + (d.toNat - '0'.toNat) := by
      rw [digitValue, Nat.mul_comm]
    rw [Nat.ofDigitChars_cons] at h ⊢
    rw [takeDigits, hv, if_pos (Nat.lt_of_le_of_lt (le_ofDigitChars rest _) h), ih _ h]
    simp
    omega

/-! ## Numerals -/

/-- The fraction of a number as it is written. -/
def spellFraction (digits : List Char) : List Char := if digits = [] then [] else '.' :: digits

/-- The exponent of a number as it is written. -/
def spellExponent : Option (Bool × List Char) → List Char
  | none => []
  | some (negative, digits) => 'e' :: (if negative then '-' else '+') :: digits

namespace Numeral

/-- The text of a number behind its sign. -/
def spellUnsigned (n : Numeral) : List Char :=
  n.whole ++ (spellFraction n.fraction ++ spellExponent n.exponent)

/-- The text of a number. -/
def spell (n : Numeral) : List Char :=
  if n.negative then '-' :: n.spellUnsigned else n.spellUnsigned

/-- The number is written as JSON admits it: digits only, some before the point and some in an
exponent, and none behind a leading zero. -/
structure Proper (n : Numeral) : Prop where
  whole : AllDigits n.whole
  whole_ne : n.whole ≠ []
  leading : n.whole.head? = some '0' → n.whole = ['0']
  fraction : AllDigits n.fraction
  exponent : ∀ e ∈ n.exponent, AllDigits e.2 ∧ e.2 ≠ []

end Numeral

theorem spanSign_sign (negative : Bool) (s : List Char) :
    spanSign ((if negative then '-' else '+') :: s) = (negative, s) := by
  cases negative <;> rfl

theorem Delimited.noDigit {s : List Char} (h : Delimited s) : ∀ c ∈ s.head?, ¬c.isDigit :=
  fun c hc => (h c hc).1

theorem readAfterDigits_spell {n : Numeral} (hn : n.exponent = none)
    {e : Option (Bool × List Char)} (he : ∀ p ∈ e, AllDigits p.2 ∧ p.2 ≠ []) {rest : List Char}
    (hr : Delimited rest) :
    readAfterDigits n (spellExponent e ++ rest) =
      (.number { n with exponent := e }, some rest) := by
  cases e with
  | none =>
    have same : { n with exponent := none } = n := by rw [← hn]
    rw [same, spellExponent, List.nil_append, readAfterDigits.eq_def]
    split
    · exact absurd rfl (hr 'e' rfl).2.2.1
    · exact absurd rfl (hr 'E' rfl).2.2.2
    · rfl
  | some p =>
    obtain ⟨negative, digits⟩ := p
    obtain ⟨hd, hne⟩ := he _ rfl
    simp only [spellExponent, List.cons_append, readAfterDigits, readExponent, spanSign_sign,
      spanDigits_append hd hr.noDigit, if_neg hne]

/-- Behind the digits of a number comes an exponent or what delimits it, and no digit. -/
theorem spellExponent_noDigit (e : Option (Bool × List Char)) {rest : List Char}
    (hr : Delimited rest) : ∀ c ∈ (spellExponent e ++ rest).head?, ¬c.isDigit ∧ c ≠ '.' := by
  cases e with
  | none => exact fun c hc => ⟨(hr c hc).1, (hr c hc).2.1⟩
  | some p => simp [spellExponent]

theorem readAfterWhole_spell {n : Numeral} (hf : n.fraction = []) (hn : n.exponent = none)
    {f : List Char} (hfd : AllDigits f) {e : Option (Bool × List Char)}
    (he : ∀ p ∈ e, AllDigits p.2 ∧ p.2 ≠ []) {rest : List Char} (hr : Delimited rest) :
    readAfterWhole n (spellFraction f ++ (spellExponent e ++ rest)) =
      (.number { n with fraction := f, exponent := e }, some rest) := by
  have after := spellExponent_noDigit e hr
  by_cases hne : f = []
  · have same : { n with fraction := f, exponent := e } = { n with exponent := e } := by
      rw [hne, ← hf]
    rw [same, spellFraction, if_pos hne, List.nil_append, readAfterWhole.eq_def]
    split
    · next hs => exact absurd rfl (after '.' (by rw [hs]; rfl)).2
    · exact readAfterDigits_spell hn he hr
  · simp only [spellFraction, if_neg hne, List.cons_append, readAfterWhole,
      spanDigits_append hfd fun c hc => (after c hc).1]
    exact readAfterDigits_spell (n := { n with fraction := f }) hn he hr

/-- Behind the whole part of a number comes no digit. -/
theorem spellFraction_noDigit (f : List Char) (e : Option (Bool × List Char)) {rest : List Char}
    (hr : Delimited rest) :
    ∀ c ∈ (spellFraction f ++ (spellExponent e ++ rest)).head?, ¬c.isDigit := by
  by_cases hne : f = []
  · simpa [spellFraction, hne] using fun c hc => (spellExponent_noDigit e hr c hc).1
  · simp [spellFraction, hne]

theorem readNumber_spell {n : Numeral} (hn : n.Proper) {rest : List Char} (hr : Delimited rest) :
    readNumber n.negative (n.spellUnsigned ++ rest) = (.number n, some rest) := by
  have span : spanDigits (n.spellUnsigned ++ rest) =
      (n.whole, spellFraction n.fraction ++ (spellExponent n.exponent ++ rest)) := by
    rw [Numeral.spellUnsigned, List.append_assoc, List.append_assoc]
    exact spanDigits_append hn.whole (spellFraction_noDigit _ _ hr)
  rw [readNumber.eq_def, span]
  split
  · next hs => exact absurd (congrArg Prod.fst hs) hn.whole_ne
  · next hs =>
    have two : n.whole = '0' :: _ :: _ := congrArg Prod.fst hs
    have one := hn.leading (by rw [two]; rfl)
    simp [two] at one
  · next hs =>
    cases hs
    exact readAfterWhole_spell (n := ⟨n.negative, n.whole, [], none⟩) rfl rfl hn.fraction
      hn.exponent hr

/-! ## Integers -/

namespace Numeral

/-- The number that an integer is written as. -/
def ofInt (i : Int) : Numeral := { negative := i < 0, whole := Nat.toDigits 10 i.natAbs }

theorem negative_ofInt (i : Int) : (ofInt i).negative = decide (i < 0) := rfl

theorem ofInt_proper (i : Int) : (ofInt i).Proper where
  whole := allDigits_toDigits _
  whole_ne := Nat.toDigits_ne_nil
  leading h := by
    rcases Nat.eq_zero_or_pos i.natAbs with hz | hpos
    · simp [ofInt, hz]
    · exact absurd h (head?_toDigits_ne hpos)
  fraction := by simp [ofInt, AllDigits]
  exponent := by simp [ofInt]

theorem spell_ofInt (i : Int) : (ofInt i).spell = (toString i).toList := by
  cases i with
  | ofNat n =>
    have text : (toString (Int.ofNat n)).toList = Nat.toDigits 10 n := Nat.toList_repr
    have sign : (ofInt (Int.ofNat n)).negative = false := by simp [negative_ofInt]
    rw [text, spell, sign]
    simp [spellUnsigned, spellFraction, spellExponent, ofInt]
  | negSucc n =>
    have text : (toString (Int.negSucc n)).toList = '-' :: Nat.toDigits 10 (n + 1) := by
      show ("-" ++ (n + 1).repr).toList = _
      rw [String.toList_append, Nat.toList_repr]
      rfl
    have sign : (ofInt (Int.negSucc n)).negative = true := by
      simp [negative_ofInt, Int.negSucc_lt_zero]
    rw [text, spell, sign]
    simp [spellUnsigned, spellFraction, spellExponent, ofInt]

/-- An integer that fits 64 bits is the value of its numeral. -/
theorem toInt?_ofInt {i : Int} (low : Int64.minValue.toInt ≤ i) (high : i < UInt64.size) :
    ∃ v, (ofInt i).value = .ok v ∧ v.toInt? = some i := by
  have bound : i.natAbs < UInt64.size := by
    have : Int64.minValue.toInt = -9223372036854775808 := rfl
    have : UInt64.size = 18446744073709551616 := rfl
    omega
  have taken : takeDigits 0 0 (ofInt i).whole = (i.natAbs, (ofInt i).whole.length, 0) := by
    have digits : Nat.ofDigitChars 10 (ofInt i).whole 0 = i.natAbs := natOfDigits_toDigits _
    rw [takeDigits_of_lt 0 (digits ▸ bound), digits, Nat.zero_add]
  have integer : (ofInt i).isInteger = true := rfl
  rcases lt_or_ge i 0 with neg | nonneg
  · have sign : (ofInt i).negative = true := decide_eq_true neg
    have abs : -(i.natAbs : Int) = i := by omega
    refine ⟨.negative i, ?_, rfl⟩
    have pos : 0 < i.natAbs := by omega
    simp only [value, taken, integer, sign, abs, pos, low, and_self, if_true, Bool.not_true,
      Bool.false_eq_true, if_false]
  · have sign : (ofInt i).negative = false := decide_eq_false (by omega)
    refine ⟨.nat i.natAbs, ?_, by simp [Number.toInt?, nonneg]⟩
    simp [value, taken, integer, sign]

end Numeral

end BehaviorTree.Json
