import BehaviorTree.Proofs.Literal.Integer

/-!
# Which texts are numbers

`Number t x` is the form of numbers: a sign or none, digits with a point or without one and a digit
on one side of it at least, and an exponent whose mark has digits behind it, or none; or one of the
words `nan` and `inf`, in any case and without a sign. The reader of numbers takes just these, up to
where the text cannot go on as a number (`exact_number`).
-/

namespace BehaviorTree.Literal

open Decimal
open Json (AllDigits Delimited)

/-! ## The form -/

/-- Digits, with a point or without one. -/
inductive Mantissa : List Char → Scientific → Prop
  | whole {w : List Char} (all : AllDigits w) (nonempty : w ≠ []) :
    Mantissa w ⟨Nat.ofDigitChars 10 w 0, 0⟩
  | point {w f : List Char} (whole : AllDigits w) (fraction : AllDigits f)
    (nonempty : ¬(w = [] ∧ f = [])) :
    Mantissa (w ++ '.' :: f) ⟨Nat.ofDigitChars 10 (w ++ f) 0, -f.length⟩

/-- A mark, a sign or none, and digits; or nothing. -/
inductive Exponent : List Char → Int → Prop
  | absent : Exponent [] 0
  | marked {mark : Char} {sign digits : List Char} {negative : Bool}
    (isMark : mark = 'e' ∨ mark = 'E') (signed : Sign sign negative) (all : AllDigits digits)
    (nonempty : digits ≠ []) :
    Exponent (mark :: (sign ++ digits)) (Decimal.signed negative (Nat.ofDigitChars 10 digits 0))

/-- The letters are those of a word, which is in lower case. -/
def InAnyCase (word t : List Char) : Prop := t.map Char.toLower = word

/-- The form of numbers, and the number of single precision that each denotes. -/
inductive Number : List Char → Float32 → Prop
  | decimal {sign t e : List Char} {negative : Bool} {m : Scientific} {k : Int}
    (signed : Sign sign negative) (mantissa : Mantissa t m) (exponent : Exponent e k) :
    Number (sign ++ (t ++ e))
      (if negative then -(Scientific.mk m.mantissa (m.exponent + k)).toFloat32
        else (Scientific.mk m.mantissa (m.exponent + k)).toFloat32)
  | nan {t : List Char} (word : InAnyCase ['n', 'a', 'n'] t) : Number t (0 / 0)
  | inf {t : List Char} (word : InAnyCase ['i', 'n', 'f'] t) : Number t (1 / 0)

/-! ## Mantissas and exponents -/

/-- What comes after a mantissa: no digit and no point. -/
def NoPoint (s : List Char) : Prop := ∀ c ∈ s.head?, ¬c.isDigit ∧ c ≠ '.'

theorem mantissa_sound {s rest : List Char} {m : Scientific} (h : mantissa s = some (m, rest)) :
    ∃ t, s = t ++ rest ∧ Mantissa t m := by
  have hs := spanDigits_append_rest s
  have hall := allDigits_spanDigits s
  simp only [mantissa] at h
  split at h
  · next afterPoint hpoint =>
    have hafter := spanDigits_append_rest afterPoint
    split at h
    · cases h
    · next hne =>
      cases h
      refine ⟨(spanDigits s).1 ++ '.' :: (spanDigits afterPoint).1, ?_,
        .point hall (allDigits_spanDigits _) hne⟩
      rw [List.append_assoc, List.cons_append, hafter, ← hpoint, hs]
  · split at h
    · cases h
    · next hne =>
      cases h
      exact ⟨(spanDigits s).1, hs.symm, .whole hall hne⟩

theorem mantissa_append {t rest : List Char} {m : Scientific} (h : Mantissa t m)
    (hr : NoPoint rest) : mantissa (t ++ rest) = some (m, rest) := by
  have hdigit : NoDigit rest := fun c hc => (hr c hc).1
  cases h with
  | whole hall hne =>
    simp only [mantissa, Json.spanDigits_append hall hdigit]
    split
    · exact absurd rfl (hr '.' rfl).2
    · rw [if_neg hne]
      rfl
  | @point w f hwhole hfraction hne =>
    have hpoint : ∀ c ∈ ('.' :: (f ++ rest)).head?, ¬c.isDigit := by simp
    rw [List.append_assoc, List.cons_append, mantissa]
    simp only [Json.spanDigits_append hwhole hpoint, Json.spanDigits_append hfraction hdigit,
      if_neg hne]
    rfl

theorem exponent_sound {s rest : List Char} {k : Int} (h : exponent s = some (k, rest)) :
    ∃ e, s = e ++ rest ∧ Exponent e k := by
  unfold exponent at h
  split at h
  · next mark s =>
    split at h
    · next hmark =>
      obtain ⟨sign, hsign, hs⟩ := exists_spanSign s
      have hdigits := spanDigits_append_rest (spanSign s).2
      simp only at h
      split at h
      · cases h
      · next hne =>
        cases h
        refine ⟨mark :: (sign ++ (spanDigits (spanSign s).2).1), ?_,
          .marked hmark hsign (allDigits_spanDigits _) hne⟩
        rw [List.cons_append, List.append_assoc, hdigits, ← hs]
    · cases h
      exact ⟨[], rfl, .absent⟩
  · cases h
    exact ⟨[], rfl, .absent⟩

theorem exponent_append {e rest : List Char} {k : Int} (h : Exponent e k) (hr : Delimited rest) :
    exponent (e ++ rest) = some (k, rest) := by
  cases h with
  | absent =>
    rw [List.nil_append]
    cases rest with
    | nil => rfl
    | cons c rest =>
      have hc := (hr c rfl).2.2
      rw [exponent, if_neg (by simp [hc])]
  | marked hmark hsign hall hne =>
    rw [List.cons_append, List.append_assoc, exponent, if_pos hmark]
    simp only [spanSign_append hsign (no_sign_of_digits hall hne rest),
      Json.spanDigits_append hall hr.noDigit, if_neg hne]
    rfl

/-- Behind a mantissa comes an exponent, or what ends a number. -/
theorem noPoint_exponent {e rest : List Char} {k : Int} (h : Exponent e k) (hr : Delimited rest) :
    NoPoint (e ++ rest) := by
  cases h with
  | absent => exact fun c hc => ⟨(hr c hc).1, (hr c hc).2.1⟩
  | marked hmark =>
    intro c hc
    obtain rfl : _ = c := by simpa using hc
    rcases hmark with rfl | rfl <;> decide

/-- A mantissa opens with a digit or a point. -/
theorem Mantissa.opens {t : List Char} {m : Scientific} (h : Mantissa t m) :
    ∃ c r, t = c :: r ∧ isBlank c = false ∧ c ≠ '+' ∧ c ≠ '-' := by
  have digit {c : Char} {r : List Char} (hd : AllDigits (c :: r)) :
      isBlank c = false ∧ c ≠ '+' ∧ c ≠ '-' :=
    ⟨(isDigit_ne (hd c (by simp))).1, (isDigit_ne (hd c (by simp))).2.1⟩
  cases h with
  | whole hall hne =>
    obtain ⟨c, r, rfl⟩ := List.exists_cons_of_ne_nil hne
    exact ⟨c, r, rfl, digit hall⟩
  | @point w f hall =>
    cases w with
    | nil => exact ⟨'.', f, rfl, by decide⟩
    | cons c w => exact ⟨c, w ++ '.' :: f, rfl, digit hall⟩

/-! ## Words -/

theorem dropWord?_eq_some_iff {word s rest : List Char} :
    dropWord? word s = some rest ↔ ∃ t, s = t ++ rest ∧ InAnyCase word t := by
  induction word generalizing s with
  | nil => simp [dropWord?, InAnyCase]
  | cons w word ih =>
    cases s with
    | nil => simp [dropWord?, InAnyCase]
    | cons c s =>
      rw [dropWord?]
      split
      · next hc =>
        rw [ih]
        constructor
        · rintro ⟨t, rfl, ht⟩
          exact ⟨c :: t, rfl, by rw [InAnyCase, List.map_cons, hc, ht]⟩
        · rintro ⟨t, hs, ht⟩
          cases t with
          | nil => cases ht
          | cons d t =>
            cases hs
            exact ⟨t, rfl, (List.cons.inj ht).2⟩
      · next hc =>
        constructor
        · intro h
          cases h
        · rintro ⟨t, hs, ht⟩
          cases t with
          | nil => cases ht
          | cons d t =>
            cases hs
            exact absurd (List.cons.inj ht).1 hc

/-- A letter is no digit, no blank, no sign and no point. -/
theorem isAlpha_ne {c : Char} (h : c.isAlpha) :
    ¬c.isDigit ∧ isBlank c = false ∧ (c ≠ '+' ∧ c ≠ '-') ∧ c ≠ '.' := by
  refine ⟨fun hdigit => ?_, isAlphanum_ne (by rw [Char.isAlphanum, h, Bool.true_or])⟩
  simp only [Char.isAlpha, Char.isUpper, Char.isLower, Char.isDigit, Bool.or_eq_true,
    Bool.and_eq_true, decide_eq_true_eq, ge_iff_le, UInt32.le_iff_toNat_le] at h hdigit
  simp at h hdigit
  omega

/-- The letters of a word are letters in any case. -/
theorem InAnyCase.isAlpha {word t : List Char} (h : InAnyCase word t)
    (hword : ∀ w ∈ word, w.isAlpha) : ∀ c ∈ t, c.isAlpha := by
  intro c hc
  have hlower := hword c.toLower (h ▸ List.mem_map_of_mem hc)
  rwa [Char.isAlpha_toLower_eq_isAlpha] at hlower

/-- What opens with a letter is no mantissa, with or without a sign. -/
theorem mantissa_letter {c : Char} (hc : c.isAlpha) (s : List Char) :
    spanSign (c :: s) = (false, c :: s) ∧ mantissa (c :: s) = none := by
  obtain ⟨hdigit, -, hsign, hpoint⟩ := isAlpha_ne hc
  constructor
  · exact spanSign_append .absent (by simpa using hsign)
  · have hspan : spanDigits (c :: s) = ([], c :: s) := by simp [spanDigits, hdigit]
    simp only [mantissa, hspan]
    split
    · next heq => exact absurd (List.cons.inj heq).1 hpoint
    · rfl

/-! ## Numbers -/

theorem delimited_blank {b : List Char} (hb : Blank b) : Delimited b := by
  intro c hc
  have hblank : isBlank c := hb c (List.mem_of_mem_head? hc)
  simp only [isBlank, Bool.or_eq_true, decide_eq_true_eq] at hblank
  rcases hblank with rfl | rfl <;> decide

/-- Words are written in letters. -/
theorem InAnyCase.isAlpha_special {t : List Char}
    (h : InAnyCase ['n', 'a', 'n'] t ∨ InAnyCase ['i', 'n', 'f'] t) : ∀ c ∈ t, c.isAlpha := by
  rcases h with h | h <;> exact h.isAlpha (by simp)

theorem Number.opens {t : List Char} {x : Float32} (h : Number t x) :
    ∃ c r, t = c :: r ∧ isBlank c = false := by
  have word (ht : InAnyCase ['n', 'a', 'n'] t ∨ InAnyCase ['i', 'n', 'f'] t) :
      ∃ c r, t = c :: r ∧ isBlank c = false := by
    have hne : t ≠ [] := by
      rintro rfl
      rcases ht with h | h <;> cases h
    obtain ⟨c, r, rfl⟩ := List.exists_cons_of_ne_nil hne
    exact ⟨c, r, rfl, (isAlpha_ne (InAnyCase.isAlpha_special ht c (by simp))).2.1⟩
  cases h with
  | @decimal _ t e _ _ _ hs hm =>
    obtain ⟨c, r, rfl, hc, -⟩ := hm.opens
    exact opens_sign hs ⟨c, r ++ e, rfl, hc⟩
  | nan ht => exact word (.inl ht)
  | inf ht => exact word (.inr ht)

theorem special_sound {s rest : List Char} {x : Float32} (h : special s = some (x, rest)) :
    ∃ t, s = t ++ rest ∧ Number t x := by
  unfold special at h
  split at h
  · next hword =>
    cases h
    obtain ⟨t, ht, hcase⟩ := dropWord?_eq_some_iff.1 hword
    exact ⟨t, ht, .nan hcase⟩
  · obtain ⟨rest', hword, hx⟩ := Option.map_eq_some_iff.1 h
    cases hx
    obtain ⟨t, ht, hcase⟩ := dropWord?_eq_some_iff.1 hword
    exact ⟨t, ht, .inf hcase⟩

theorem special_nan {t : List Char} (h : InAnyCase ['n', 'a', 'n'] t) (rest : List Char) :
    special (t ++ rest) = some (0 / 0, rest) := by
  have hword : dropWord? ['n', 'a', 'n'] (t ++ rest) = some rest :=
    dropWord?_eq_some_iff.2 ⟨t, rfl, h⟩
  rw [special, hword]

theorem special_inf {t : List Char} (h : InAnyCase ['i', 'n', 'f'] t) (rest : List Char) :
    special (t ++ rest) = some (1 / 0, rest) := by
  have hword : dropWord? ['i', 'n', 'f'] (t ++ rest) = some rest :=
    dropWord?_eq_some_iff.2 ⟨t, rfl, h⟩
  have hother : dropWord? ['n', 'a', 'n'] (t ++ rest) = none := by
    cases t with
    | nil => cases h
    | cons c t =>
      have hi : c.toLower = 'i' := (List.cons.inj h).1
      rw [List.cons_append, dropWord?, if_neg (by rw [hi]; decide)]
  rw [special, hother, hword]
  rfl

theorem number_sound {s rest : List Char} {x : Float32} (h : number s = some (x, rest)) :
    ∃ t, s = t ++ rest ∧ Number t x := by
  obtain ⟨sign, hsign, hs⟩ := exists_spanSign s
  simp only [number] at h
  split at h
  · next m afterMantissa hm =>
    split at h
    · next k rest' hk =>
      cases h
      obtain ⟨t, ht, hmantissa⟩ := mantissa_sound hm
      obtain ⟨e, he, hexponent⟩ := exponent_sound hk
      refine ⟨sign ++ (t ++ e), ?_, .decimal hsign hmantissa hexponent⟩
      rw [List.append_assoc, List.append_assoc, ← he, ← ht, ← hs]
    · cases h
  · exact special_sound h

theorem number_append {t rest : List Char} {x : Float32} (h : Number t x) (hr : Delimited rest) :
    number (t ++ rest) = some (x, rest) := by
  have word (ht : InAnyCase ['n', 'a', 'n'] t ∨ InAnyCase ['i', 'n', 'f'] t) :
      number (t ++ rest) = special (t ++ rest) := by
    obtain ⟨c, r, rfl, -⟩ := h.opens
    have hletter := InAnyCase.isAlpha_special ht c (by simp)
    rw [number, List.cons_append, (mantissa_letter hletter _).1]
    simp only [(mantissa_letter hletter _).2]
  cases h with
  | @decimal sign t e negative m k hs hm he =>
    have hmantissa := mantissa_append hm (noPoint_exponent he hr)
    have hsign : ∀ c ∈ (t ++ (e ++ rest)).head?, c ≠ '+' ∧ c ≠ '-' := by
      obtain ⟨c, r, rfl, -, hc⟩ := hm.opens
      simpa using hc
    rw [number, List.append_assoc, List.append_assoc, spanSign_append hs hsign]
    simp only [hmantissa, exponent_append he hr]
  | nan ht => rw [word (.inl ht), special_nan ht]
  | inf ht => rw [word (.inr ht), special_inf ht]

theorem exact_number : Exact number Number Delimited where
  opens := Number.opens
  blank := delimited_blank
  sound := number_sound
  complete := number_append

theorem number?_eq_some_iff {text : String} {x : Float32} :
    number? text = some x ↔ Padded Number text x :=
  exact_number.whole_eq_some_iff

end BehaviorTree.Literal
