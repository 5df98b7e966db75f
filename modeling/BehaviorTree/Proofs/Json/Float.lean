import BehaviorTree.Json.Writer
import BehaviorTree.Proofs.Decimal.Shortest
import BehaviorTree.Proofs.Json.Reading

/-!
# How single-precision numbers are spelled

A finite number is written as a numeral, `numeral? x`, that JSON admits (`proper_of_numeral?`); an
infinity and NaN are written as `null`. So the text of a number is read as `floatValue x`
(`spells_number_text`).
-/

namespace BehaviorTree

open Json (Numeral AllDigits)

/-! ## Decimals -/

namespace Decimal

/-- The numeral of digits with a plain point. -/
def plainNumeral (negative : Bool) (digits : List Char) (lead : Int) : Numeral :=
  if lead < 0 then ⟨negative, ['0'], List.replicate (-lead - 1).toNat '0' ++ digits, none⟩
  else
    let whole := lead.toNat + 1
    if digits.length ≤ whole then
      ⟨negative, digits ++ List.replicate (whole - digits.length) '0', ['0'], none⟩
    else ⟨negative, digits.take whole, digits.drop whole, none⟩

/-- The numeral of digits with the point behind the first one. -/
def exponentNumeral (negative : Bool) (digits : List Char) (lead : Int) : Numeral :=
  ⟨negative, digits.take 1, digits.drop 1, some (lead < 0, Nat.toDigits 10 lead.natAbs)⟩

/-- The numeral of a decimal in a layout. -/
def Digits.numeral (d : Digits) (layout : Layout) (negative : Bool) : Numeral :=
  let digits := Nat.toDigits 10 d.digits
  let lead := d.exponent + digits.length - 1
  if layout.isPlain lead then plainNumeral negative digits lead
  else exponentNumeral negative digits lead

/-- The text of a sign. -/
def signText (negative : Bool) : String := if negative then "-" else ""

theorem spell_eq (n : Numeral) :
    n.spell = (signText n.negative).toList ++ n.spellUnsigned := by
  cases hn : n.negative <;> simp [Numeral.spell, signText, hn]

variable {digits : List Char} {lead : Int} {negative : Bool}

theorem spell_plainNumeral (hd : digits ≠ []) :
    (plainNumeral negative digits lead).spellUnsigned = (plainText digits lead).toList := by
  unfold plainNumeral plainText zeros
  dsimp only
  split_ifs with neg all
  · simp [Numeral.spellUnsigned, Json.spellFraction, Json.spellExponent, hd]
  · simp [Numeral.spellUnsigned, Json.spellFraction, Json.spellExponent]
  · have more : digits.drop (lead.toNat + 1) ≠ [] := by simpa using all
    simp [Numeral.spellUnsigned, Json.spellFraction, Json.spellExponent, more]

theorem spell_exponentNumeral (hd : digits ≠ []) :
    (exponentNumeral negative digits lead).spellUnsigned = (exponentText digits lead).toList := by
  have mark : Json.spellExponent (some (decide (lead < 0), Nat.toDigits 10 lead.natAbs)) =
      ((if lead < 0 then "e-" else "e+") ++ toString lead.natAbs).toList := by
    rw [String.toList_append, Nat.toString_eq_ofList_toDigits, String.toList_ofList]
    by_cases h : lead < 0 <;> simp [Json.spellExponent, h]
  unfold exponentNumeral exponentText Numeral.spellUnsigned
  rw [mark]
  cases digits with
  | nil => exact absurd rfl hd
  | cons d rest => cases rest <;> simp [Json.spellFraction]

/-- All digits of a row, none of them a leading zero. -/
structure Significant (digits : List Char) : Prop where
  all : AllDigits digits
  ne_nil : digits ≠ []
  leading : digits.head? ≠ some '0'

theorem significant_toDigits {n : Nat} (h : 0 < n) : Significant (Nat.toDigits 10 n) :=
  ⟨Json.allDigits_toDigits n, Nat.toDigits_ne_nil, Json.head?_toDigits_ne h⟩

theorem allDigits_append {s t : List Char} (hs : AllDigits s) (ht : AllDigits t) :
    AllDigits (s ++ t) := by
  intro c hc
  rcases List.mem_append.1 hc with h | h
  · exact hs c h
  · exact ht c h

theorem allDigits_zeros (n : Nat) : AllDigits (List.replicate n '0') := by
  intro c hc
  rw [(List.mem_replicate.1 hc).2]
  decide

theorem proper_plainNumeral (h : Significant digits) :
    (plainNumeral negative digits lead).Proper := by
  obtain ⟨d, rest, rfl⟩ := List.exists_cons_of_ne_nil h.ne_nil
  have leading : d ≠ '0' := by simpa using h.leading
  unfold plainNumeral
  dsimp only
  split_ifs
  · exact ⟨allDigits_zeros 1, by simp, fun _ => rfl,
      allDigits_append (allDigits_zeros _) h.all, by simp⟩
  · exact ⟨allDigits_append h.all (allDigits_zeros _), by simp, by simp [leading],
      allDigits_zeros 1, by simp⟩
  · exact ⟨fun c hc => h.all c (List.mem_of_mem_take hc), by simp, by simp [leading],
      fun c hc => h.all c (List.mem_of_mem_drop hc), by simp⟩

theorem proper_exponentNumeral (h : Significant digits) :
    (exponentNumeral negative digits lead).Proper := by
  obtain ⟨d, rest, rfl⟩ := List.exists_cons_of_ne_nil h.ne_nil
  have leading : d ≠ '0' := by simpa using h.leading
  refine ⟨fun c hc => h.all c (List.mem_of_mem_take hc), by simp [exponentNumeral],
    by simp [exponentNumeral, leading], fun c hc => h.all c (List.mem_of_mem_drop hc), ?_⟩
  simp [exponentNumeral, Json.allDigits_toDigits]

namespace Digits

variable {d : Digits} {layout : Layout}

theorem negative_numeral : (d.numeral layout negative).negative = negative := by
  unfold numeral plainNumeral
  dsimp only
  split_ifs <;> rfl

/-- A decimal is not written like an integer. -/
theorem isInteger_numeral : (d.numeral layout negative).isInteger = false := by
  have some : Nat.toDigits 10 d.digits ≠ [] := Nat.toDigits_ne_nil
  unfold numeral plainNumeral
  dsimp only
  split_ifs with plain neg all
  · simp [Numeral.isInteger, some]
  · simp [Numeral.isInteger]
  · have more := not_le.1 all
    simp [Numeral.isInteger]
    omega
  · simp [Numeral.isInteger, exponentNumeral]

theorem spell_numeral :
    (d.numeral layout negative).spell = (signText negative ++ d.write layout).toList := by
  rw [spell_eq, String.toList_append, negative_numeral, numeral, write]
  split
  · rw [spell_plainNumeral Nat.toDigits_ne_nil]
  · rw [spell_exponentNumeral Nat.toDigits_ne_nil]

theorem proper_numeral (hd : 0 < d.digits) : (d.numeral layout negative).Proper := by
  unfold numeral
  dsimp only
  split
  · exact proper_plainNumeral (significant_toDigits hd)
  · exact proper_exponentNumeral (significant_toDigits hd)

end Digits

end Decimal

/-! ## Numbers -/

namespace Json

open Decimal (binary32 signText)

/-- The numeral that a number is written as, if it is finite. -/
def numeral? (x : Float32) : Option Numeral :=
  let (negative, cls) := binary32.decode x.toBits.toNat
  match cls with
  | .zero => some ⟨negative, ['0'], ['0'], none⟩
  | .finite m => some ((m.shortest numberLayout.tie).numeral numberLayout negative)
  | .infinite | .nan => none

/-- What the text of a number is read as. -/
def floatValue (x : Float32) : Value :=
  match numeral? x with
  | some n => .number n
  | none => .null

theorem proper_of_numeral? {x : Float32} {n : Numeral} (h : numeral? x = some n) : n.Proper := by
  unfold numeral? at h
  split at h
  next negative cls hdecode =>
  cases cls with
  | zero =>
    cases h
    exact ⟨Decimal.allDigits_zeros 1, by simp, fun _ => rfl, Decimal.allDigits_zeros 1, by simp⟩
  | finite m =>
    cases h
    exact Decimal.Digits.proper_numeral
      (Decimal.Magnitude.digits_pos (Decimal.Magnitude.single_of_decode hdecode) _)
  | infinite | nan => cases h

theorem toList_number (x : Float32) :
    (number x).toList = ((numeral? x).map Numeral.spell).getD ['n', 'u', 'l', 'l'] := by
  unfold number Decimal.Format.write? numeral?
  obtain ⟨negative, cls⟩ := binary32.decode x.toBits.toNat
  cases cls with
  | zero => cases negative <;> rfl
  | finite m => simp [Decimal.Digits.spell_numeral, signText]
  | infinite | nan => simp

theorem spells_number_text (x : Float32) : Spells (floatValue x) (number x).toList := by
  rw [toList_number, floatValue]
  cases h : numeral? x with
  | none => exact spells_null
  | some n => exact spells_number (proper_of_numeral? h)

end Json

end BehaviorTree
