import BehaviorTree.Authored.Params
import BehaviorTree.Proofs.Json.Numeral

/-!
# Which texts are integers

`Exact reader form follows`: the reader takes off the front of a text just the literals of a form,
where what comes after may follow one. A whole text is then read as a literal of that form between
blanks, and nothing else is (`Exact.whole_eq_some_iff`).

`Integer t n` is the form of integers: a sign or none, and digits, which denote `n`. The reader of
integers takes those within 32 bits (`exact_int`), so a text is an integer of 32 bits or none, and
the decimal text of such an integer is read back (`int?_exact`).
-/

namespace BehaviorTree.Literal

open Decimal
open Json (AllDigits)

/-! ## Blanks -/

/-- Nothing but spaces and tabs. -/
def Blank (b : List Char) : Prop := ∀ c ∈ b, isBlank c

theorem skipBlanks_append {b : List Char} (hb : Blank b) (s : List Char) :
    skipBlanks (b ++ s) = skipBlanks s :=
  List.dropWhile_append_of_pos hb

theorem skipBlanks_cons {c : Char} (hc : isBlank c = false) (s : List Char) :
    skipBlanks (c :: s) = c :: s := by
  simp [skipBlanks, hc]

theorem skipBlanks_eq_nil_iff {s : List Char} : skipBlanks s = [] ↔ Blank s := by
  simp [skipBlanks, Blank]

/-- Skipping blanks takes blanks off the front. -/
theorem exists_skipBlanks (s : List Char) : ∃ b, Blank b ∧ s = b ++ skipBlanks s :=
  ⟨s.takeWhile isBlank, fun _ hc => List.mem_takeWhile_imp hc,
    List.takeWhile_append_dropWhile.symm⟩

/-! ## Readers -/

variable {α : Type}

/-- A text is a literal of a form between blanks. -/
def Padded (form : List Char → α → Prop) (text : String) (a : α) : Prop :=
  ∃ before t after, Blank before ∧ Blank after ∧ text.toList = before ++ (t ++ after) ∧ form t a

/-- A reader takes the literals of a form off the front of a text, and nothing else. -/
structure Exact (reader : Reader α) (form : List Char → α → Prop) (follows : List Char → Prop) :
    Prop where
  opens : ∀ {t a}, form t a → ∃ c r, t = c :: r ∧ isBlank c = false
  blank : ∀ {rest}, Blank rest → follows rest
  sound : ∀ {s a rest}, reader s = some (a, rest) → ∃ t, s = t ++ rest ∧ form t a
  complete : ∀ {t a rest}, form t a → follows rest → reader (t ++ rest) = some (a, rest)

theorem Exact.whole_eq_some_iff {reader : Reader α} {form : List Char → α → Prop}
    {follows : List Char → Prop} (h : Exact reader form follows) {text : String} {a : α} :
    whole reader text = some a ↔ Padded form text a := by
  constructor
  · intro hw
    unfold whole at hw
    split at hw
    · next value rest hread =>
      split at hw
      · next hend =>
        cases hw
        obtain ⟨before, hbefore, htext⟩ := exists_skipBlanks text.toList
        obtain ⟨t, ht, hform⟩ := h.sound hread
        exact ⟨before, t, rest, hbefore, skipBlanks_eq_nil_iff.1 hend, by rw [htext, ht], hform⟩
      · cases hw
    · cases hw
  · rintro ⟨before, t, after, hbefore, hafter, htext, hform⟩
    obtain ⟨c, r, rfl, hc⟩ := h.opens hform
    have hstart : skipBlanks text.toList = c :: r ++ after := by
      rw [htext, skipBlanks_append hbefore, List.cons_append, skipBlanks_cons hc]
    rw [whole, hstart, h.complete hform (h.blank hafter)]
    exact if_pos (skipBlanks_eq_nil_iff.2 hafter)

/-! ## Signs and digits -/

/-- A sign or none, and whether it is a minus. -/
inductive Sign : List Char → Bool → Prop
  | absent : Sign [] false
  | plus : Sign ['+'] false
  | minus : Sign ['-'] true

/-- The text does not start with a digit. -/
def NoDigit (s : List Char) : Prop := ∀ c ∈ s.head?, ¬c.isDigit

theorem exists_spanSign (s : List Char) :
    ∃ sign, Sign sign (spanSign s).1 ∧ s = sign ++ (spanSign s).2 := by
  unfold spanSign
  split
  · exact ⟨['+'], .plus, rfl⟩
  · exact ⟨['-'], .minus, rfl⟩
  · exact ⟨[], .absent, rfl⟩

theorem spanSign_append {sign : List Char} {negative : Bool} (hs : Sign sign negative)
    {s : List Char} (h : ∀ c ∈ s.head?, c ≠ '+' ∧ c ≠ '-') :
    spanSign (sign ++ s) = (negative, s) := by
  cases hs with
  | absent =>
    rw [List.nil_append, spanSign.eq_def]
    split
    · exact absurd rfl (h '+' rfl).1
    · exact absurd rfl (h '-' rfl).2
    · rfl
  | plus => rfl
  | minus => rfl

theorem allDigits_spanDigits (s : List Char) : AllDigits (spanDigits s).1 :=
  fun _ hc => List.mem_takeWhile_imp hc

theorem spanDigits_append_rest (s : List Char) : (spanDigits s).1 ++ (spanDigits s).2 = s :=
  List.takeWhile_append_dropWhile

/-- A letter or a digit is no blank, no sign and no point. -/
theorem isAlphanum_ne {c : Char} (h : c.isAlphanum) :
    isBlank c = false ∧ (c ≠ '+' ∧ c ≠ '-') ∧ c ≠ '.' := by
  refine ⟨?_, ⟨?_, ?_⟩, ?_⟩
  · rw [isBlank, Bool.eq_false_iff]
    intro hb
    simp only [Bool.or_eq_true, decide_eq_true_eq] at hb
    rcases hb with rfl | rfl <;> simp at h
  all_goals
    rintro rfl
    simp at h

theorem isDigit_ne {c : Char} (h : c.isDigit) :
    isBlank c = false ∧ (c ≠ '+' ∧ c ≠ '-') ∧ c ≠ '.' :=
  isAlphanum_ne (by rw [Char.isAlphanum, h, Bool.or_true])

theorem noDigit_of_blank {b : List Char} (hb : Blank b) : NoDigit b := by
  intro c hc hdigit
  have hblank : isBlank c := hb c (List.mem_of_mem_head? hc)
  simp [(isDigit_ne hdigit).1] at hblank

/-- What opens with a sign or a digit opens with no blank. -/
theorem opens_sign {sign : List Char} {negative : Bool} (hs : Sign sign negative) {s : List Char}
    (h : ∃ c r, s = c :: r ∧ isBlank c = false) :
    ∃ c r, sign ++ s = c :: r ∧ isBlank c = false := by
  cases hs with
  | absent => exact h
  | plus => exact ⟨'+', s, rfl, rfl⟩
  | minus => exact ⟨'-', s, rfl, rfl⟩

/-! ## Integers -/

/-- The form of integers: a sign or none, and digits. -/
inductive Integer : List Char → Int → Prop
  | mk {sign digits : List Char} {negative : Bool} (signed : Sign sign negative)
    (all : AllDigits digits) (nonempty : digits ≠ []) :
    Integer (sign ++ digits) (Decimal.signed negative (Nat.ofDigitChars 10 digits 0))

/-- The text is an integer between blanks. -/
def IsInteger (text : String) (n : Int) : Prop := Padded Integer text n

theorem opens_digits {digits : List Char} (hd : AllDigits digits) (hne : digits ≠ []) :
    ∃ c r, digits = c :: r ∧ isBlank c = false := by
  obtain ⟨c, r, rfl⟩ := List.exists_cons_of_ne_nil hne
  exact ⟨c, r, rfl, (isDigit_ne (hd c (by simp))).1⟩

theorem no_sign_of_digits {digits : List Char} (hd : AllDigits digits) (hne : digits ≠ [])
    (rest : List Char) : ∀ c ∈ (digits ++ rest).head?, c ≠ '+' ∧ c ≠ '-' := by
  obtain ⟨d, r, rfl⟩ := List.exists_cons_of_ne_nil hne
  intro c hc
  obtain rfl : d = c := by simpa using hc
  exact (isDigit_ne (hd d (by simp))).2.1

/-- What the reader does with a sign and digits: it takes them if their number is in range. -/
theorem int_append {sign digits rest : List Char} {negative : Bool} (hs : Sign sign negative)
    (hd : AllDigits digits) (hne : digits ≠ []) (hr : NoDigit rest) {n : Int}
    (hn : n = signed negative (Nat.ofDigitChars 10 digits 0)) :
    int (sign ++ digits ++ rest) =
      if Int32.minValue.toInt ≤ n ∧ n ≤ Int32.maxValue.toInt then some (Int32.ofInt n, rest)
      else none := by
  have hvalue : natOfDigits digits = Nat.ofDigitChars 10 digits 0 := rfl
  rw [List.append_assoc, int]
  simp only [spanSign_append hs (no_sign_of_digits hd hne rest), Json.spanDigits_append hd hr,
    if_neg hne, hvalue, ← hn]

theorem exact_int : Exact int (fun t v => Integer t v.toInt) NoDigit where
  opens h := by
    generalize Int32.toInt _ = n at h
    obtain ⟨hs, hd, hne⟩ := h
    exact opens_sign hs (opens_digits hd hne)
  blank := noDigit_of_blank
  sound {s a rest} h := by
    obtain ⟨sign, hs, hsign⟩ := exists_spanSign s
    have hdigits := spanDigits_append_rest (spanSign s).2
    simp only [int] at h
    split at h
    · cases h
    · next hne =>
      split at h
      · next hrange =>
        cases h
        refine ⟨sign ++ (spanDigits (spanSign s).2).1, ?_, ?_⟩
        · rw [List.append_assoc, hdigits, ← hsign]
        · rw [Int32.toInt_ofInt_of_le hrange.1 (Int.lt_of_le_of_lt hrange.2 (by decide))]
          exact .mk hs (allDigits_spanDigits _) hne
      · cases h
  complete {t a rest} h hr := by
    have hrange : Int32.minValue.toInt ≤ a.toInt ∧ a.toInt ≤ Int32.maxValue.toInt :=
      ⟨Int32.minValue_le_toInt a, Int32.toInt_le a⟩
    generalize hn : a.toInt = n at h hrange
    obtain ⟨hs, hd, hne⟩ := h
    rw [int_append hs hd hne hr rfl, if_pos hrange, ← hn, Int32.ofInt_toInt]

/-- A text reads as an integer of 32 bits if and only if it is one. -/
theorem int?_eq_some_iff {text : String} {v : Int32} :
    int? text = some v ↔ IsInteger text v.toInt :=
  exact_int.whole_eq_some_iff

/-- The decimal text of an integer is one. -/
theorem integer_toString (n : Int) : Integer (toString n).toList n := by
  have hform {negative : Bool} {sign : List Char} (hs : Sign sign negative) :
      Integer (sign ++ Nat.toDigits 10 n.natAbs) (signed negative n.natAbs) := by
    have hvalue : Nat.ofDigitChars 10 (Nat.toDigits 10 n.natAbs) 0 = n.natAbs :=
      Json.natOfDigits_toDigits _
    have hint := Integer.mk hs (Json.allDigits_toDigits n.natAbs) Nat.toDigits_ne_nil
    rwa [hvalue] at hint
  cases n with
  | ofNat k =>
    have htext : (toString (Int.ofNat k)).toList = [] ++ Nat.toDigits 10 k := Nat.toList_repr
    rw [htext]
    exact hform .absent
  | negSucc k =>
    have htext : (toString (Int.negSucc k)).toList = ['-'] ++ Nat.toDigits 10 (k + 1) := by
      show ("-" ++ (k + 1).repr).toList = _
      rw [String.toList_append, Nat.toList_repr]
      rfl
    rw [htext]
    exact hform .minus

/-- An integer that is none of 32 bits is out of their range. -/
theorem int?_eq_none_iff {text : String} :
    int? text = none ↔ ∀ n, IsInteger text n → n < -2147483648 ∨ 2147483648 ≤ n := by
  constructor
  · intro hnone n hn
    by_contra hrange
    have htoInt : (Int32.ofInt n).toInt = n :=
      Int32.toInt_ofInt_of_le (by omega) (by omega)
    rw [int?_eq_some_iff.2 (htoInt.symm ▸ hn)] at hnone
    cases hnone
  · intro hout
    by_contra hsome
    obtain ⟨v, hv⟩ := Option.ne_none_iff_exists'.1 hsome
    have hlow := Int32.le_toInt v
    have hhigh := Int32.toInt_lt v
    rcases hout _ (int?_eq_some_iff.1 hv) with h | h <;> omega

/-- **Integers are read exactly**: a text reads as an integer of 32 bits if and only if it is one, a
sign or none and digits between blanks, and any other text reads as none. So the decimal text of
every such integer is read back, and a parameter has its default just when its text is no such
integer. -/
theorem int?_exact :
    (∀ text v, int? text = some v ↔ IsInteger text v.toInt) ∧
    (∀ text, int? text = none ↔
      ∀ n, IsInteger text n → n < -2147483648 ∨ 2147483648 ≤ n) ∧
    (∀ (n : Int32) (before after : List Char), Blank before → Blank after →
      int? (String.ofList before ++ toString n.toInt ++ String.ofList after) = some n) ∧
    ∀ (p : Params) (name text : String) (default : Int32), p.get? name = some text →
      (∀ v : Int32, IsInteger text v.toInt → p.intD name default = v) ∧
      ((∀ v : Int32, ¬IsInteger text v.toInt) → p.intD name default = default) := by
  refine ⟨fun _ _ => int?_eq_some_iff, fun _ => int?_eq_none_iff, ?_, ?_⟩
  · intro n before after hbefore hafter
    exact int?_eq_some_iff.2
      ⟨before, _, after, hbefore, hafter, by simp, integer_toString n.toInt⟩
  · intro p name text default htext
    have hread : p.intD name default = (int? text).getD default := by
      rw [Params.intD, htext, Option.bind_some]
    constructor
    · intro v hv
      rw [hread, int?_eq_some_iff.2 hv, Option.getD_some]
    · intro hno
      have hnone : int? text = none := by
        by_contra hsome
        obtain ⟨v, hv⟩ := Option.ne_none_iff_exists'.1 hsome
        exact hno v (int?_eq_some_iff.1 hv)
      rw [hread, hnone, Option.getD_none]

/-- `int?_exact` for the least integer between blanks, and for a parameter that is too great. -/
theorem int?_exact_extremes :
    Blank [' '] ∧ Blank ['\t'] ∧ int? " -2147483648\t" = some (-2147483648) ∧
      (∀ v : Int32, ¬IsInteger "2147483648" v.toInt) ∧
      (Params.ofList [("count", "2147483648")]).intD "count" 7 = 7 := by
  have hspace : Blank [' '] := by simp [Blank, isBlank]
  have htab : Blank ['\t'] := by simp [Blank, isBlank]
  have hbeyond : ∀ v : Int32, ¬IsInteger "2147483648" v.toInt := by
    intro v hv
    have hnone : int? "2147483648" = none := by decide
    rw [int?_eq_some_iff.2 hv] at hnone
    cases hnone
  exact ⟨hspace, htab, int?_exact.2.2.1 (-2147483648) [' '] ['\t'] hspace htab, hbeyond,
    (int?_exact.2.2.2 _ "count" "2147483648" 7 (by decide)).2 hbeyond⟩

end BehaviorTree.Literal
