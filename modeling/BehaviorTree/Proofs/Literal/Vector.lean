import BehaviorTree.Proofs.Literal.Number

/-!
# Which texts are vectors

`IsVector opened closed text v`: between blanks, the text is three numbers with commas between them,
behind an opening parenthesis or not (`opened`) and in front of a closing one or not (`closed`). A
text reads as a vector if and only if it has this form (`vec3?_exact`), also where a parenthesis
stands on one side alone, as in `vec3?_unclosed`.
-/

namespace BehaviorTree.Literal

open Decimal
open Json (AllDigits Delimited)

/-! ## The form -/

/-- Three numbers with commas between them, and blanks around the commas. -/
inductive Components : List Char → Vec3 → Prop
  | mk {x y z b c d e : List Char} {v : Vec3} (first : Number x v.x) (second : Number y v.y)
    (third : Number z v.z) (blanks : Blank b ∧ Blank c ∧ Blank d ∧ Blank e) :
    Components (x ++ (b ++ ',' :: (c ++ (y ++ (d ++ ',' :: (e ++ z)))))) v

/-- An opening parenthesis and blanks, or nothing. -/
inductive Opening : Bool → List Char → Prop
  | absent : Opening false []
  | present {b : List Char} (blank : Blank b) : Opening true ('(' :: b)

/-- Blanks and a closing parenthesis, or nothing. -/
inductive Closing : Bool → List Char → Prop
  | absent : Closing false []
  | present {b : List Char} (blank : Blank b) : Closing true (b ++ [')'])

/-- Three components, with a parenthesis on either side or without. -/
def Enclosed (opened closed : Bool) (t : List Char) (v : Vec3) : Prop :=
  ∃ o m c, Opening opened o ∧ Components m v ∧ Closing closed c ∧ t = o ++ (m ++ c)

/-- The text is a vector between blanks. -/
def IsVector (opened closed : Bool) (text : String) (v : Vec3) : Prop :=
  Padded (Enclosed opened closed) text v

/-! ## Marks -/

/-- No comma and no parenthesis. -/
def Unmarked (s : List Char) : Prop := ∀ c ∈ s, c ≠ ',' ∧ c ≠ '(' ∧ c ≠ ')'

theorem Unmarked.append {s t : List Char} (hs : Unmarked s) (ht : Unmarked t) :
    Unmarked (s ++ t) := by
  intro c hc
  rcases List.mem_append.1 hc with h | h
  · exact hs c h
  · exact ht c h

theorem Unmarked.cons {c : Char} {s : List Char} (hc : c ≠ ',' ∧ c ≠ '(' ∧ c ≠ ')')
    (hs : Unmarked s) : Unmarked (c :: s) := by
  simpa [Unmarked] using ⟨hc, hs⟩

theorem unmarked_of_class {p : Char → Bool} (hp : p ',' = false ∧ p '(' = false ∧ p ')' = false)
    {s : List Char} (h : ∀ c ∈ s, p c) : Unmarked s := by
  intro c hc
  have hclass := h c hc
  refine ⟨?_, ?_, ?_⟩ <;> rintro rfl <;> simp [hp] at hclass

theorem unmarked_blank {b : List Char} (hb : Blank b) : Unmarked b :=
  unmarked_of_class (by decide) hb

theorem unmarked_digits {digits : List Char} (hd : AllDigits digits) : Unmarked digits :=
  unmarked_of_class (by decide) hd

theorem unmarked_sign {sign : List Char} {negative : Bool} (hs : Sign sign negative) :
    Unmarked sign := by
  cases hs <;> simp [Unmarked]

theorem Number.unmarked {t : List Char} {x : Float32} (h : Number t x) : Unmarked t := by
  have word (ht : InAnyCase ['n', 'a', 'n'] t ∨ InAnyCase ['i', 'n', 'f'] t) : Unmarked t :=
    unmarked_of_class (by decide) (InAnyCase.isAlpha_special ht)
  cases h with
  | decimal hs hm he =>
    refine (unmarked_sign hs).append (.append ?_ ?_)
    · cases hm with
      | whole hall => exact unmarked_digits hall
      | point hwhole hfraction =>
        exact (unmarked_digits hwhole).append (.cons (by decide) (unmarked_digits hfraction))
    · cases he with
      | absent => simp [Unmarked]
      | marked hmark hsign hall =>
        exact .cons (by rcases hmark with rfl | rfl <;> decide)
          ((unmarked_sign hsign).append (unmarked_digits hall))
  | nan ht => exact word (.inl ht)
  | inf ht => exact word (.inr ht)

/-- A number opens with neither a blank nor a parenthesis. -/
theorem Number.opens_unmarked {t : List Char} {x : Float32} (h : Number t x) :
    ∃ c r, t = c :: r ∧ isBlank c = false ∧ c ≠ '(' := by
  obtain ⟨c, r, rfl, hc⟩ := h.opens
  exact ⟨c, r, rfl, hc, (h.unmarked c (by simp)).2.1⟩

/-! ## Parts of the reader -/

theorem exists_dropOpen (s : List Char) :
    ∃ opened o, Opening opened o ∧ s = o ++ dropOpen s := by
  unfold dropOpen
  split
  · next rest =>
    obtain ⟨b, hb, hrest⟩ := exists_skipBlanks rest
    exact ⟨true, '(' :: b, .present hb, by rw [List.cons_append, ← hrest]⟩
  · exact ⟨false, [], .absent, rfl⟩

theorem dropOpen_append {opened : Bool} {o : List Char} (h : Opening opened o) {t : List Char}
    {x : Float32} (ht : Number t x) (s : List Char) : dropOpen (o ++ (t ++ s)) = t ++ s := by
  obtain ⟨c, r, rfl, hblank, hne⟩ := ht.opens_unmarked
  cases h with
  | absent =>
    rw [List.nil_append, List.cons_append, dropOpen.eq_def]
    split
    · next heq => exact absurd (List.cons.inj heq).1 hne
    · rfl
  | present hb =>
    rw [List.cons_append, List.cons_append, dropOpen, skipBlanks_append hb, skipBlanks_cons hblank]

theorem dropComma?_sound {s rest : List Char} (h : dropComma? s = some rest) :
    ∃ b c, Blank b ∧ Blank c ∧ s = b ++ ',' :: (c ++ rest) := by
  obtain ⟨b, hb, hs⟩ := exists_skipBlanks s
  unfold dropComma? at h
  split at h
  · next r hcomma =>
    cases h
    obtain ⟨c, hc, hr⟩ := exists_skipBlanks r
    exact ⟨b, c, hb, hc, by rw [← hr, ← hcomma, ← hs]⟩
  · cases h

theorem dropComma?_append {b c : List Char} (hb : Blank b) (hc : Blank c) {t : List Char}
    {x : Float32} (ht : Number t x) (s : List Char) :
    dropComma? (b ++ ',' :: (c ++ (t ++ s))) = some (t ++ s) := by
  obtain ⟨d, r, rfl, hd, -⟩ := ht.opens_unmarked
  rw [dropComma?, skipBlanks_append hb, skipBlanks_cons (by decide)]
  simp only [skipBlanks_append hc, List.cons_append, skipBlanks_cons hd]

theorem exists_dropClose (s : List Char) :
    ∃ closed c, Closing closed c ∧ s = c ++ dropClose s := by
  unfold dropClose
  split
  · next rest hclose =>
    obtain ⟨b, hb, hs⟩ := exists_skipBlanks s
    exact ⟨true, b ++ [')'], .present hb, by rw [List.append_assoc, List.singleton_append, ← hclose,
      ← hs]⟩
  · exact ⟨false, [], .absent, rfl⟩

/-- No closing parenthesis comes next. -/
def Unclosed (s : List Char) : Prop := ∀ c ∈ (skipBlanks s).head?, c ≠ ')'

theorem dropClose_append {closed : Bool} {c : List Char} (h : Closing closed c) {rest : List Char}
    (hr : Unclosed rest) : dropClose (c ++ rest) = rest := by
  cases h with
  | absent =>
    rw [List.nil_append, dropClose]
    split
    · next heq => exact absurd rfl (hr ')' (by rw [heq]; rfl))
    · rfl
  | present hb =>
    rw [List.append_assoc, dropClose, skipBlanks_append hb, List.singleton_append,
      skipBlanks_cons (by decide)]
    rfl

/-- What ends a number ends it behind blanks. -/
theorem delimited_append {b s : List Char} (hb : Blank b) (hs : Delimited s) :
    Delimited (b ++ s) := by
  cases b with
  | nil => exact hs
  | cons c b => exact fun d hd => delimited_blank hb d (by simpa using hd)

/-! ## Vectors -/

theorem vec3_sound {s rest : List Char} {v : Vec3} (h : vec3 s = some (v, rest)) :
    ∃ t, s = t ++ rest ∧ ∃ opened closed, Enclosed opened closed t v := by
  simp only [vec3, bind, pure, Option.bind_eq_some_iff, Option.some.injEq, Prod.exists,
    Prod.mk.injEq] at h
  obtain ⟨a, sx, hx, sc, hcomma, b, sy, hy, sd, hcomma', c, sz, hz, rfl, hrest⟩ := h
  obtain ⟨opened, o, ho, hs⟩ := exists_dropOpen s
  obtain ⟨x, hx, numberX⟩ := number_sound hx
  obtain ⟨b₁, b₂, hb₁, hb₂, hcomma⟩ := dropComma?_sound hcomma
  obtain ⟨y, hy, numberY⟩ := number_sound hy
  obtain ⟨b₃, b₄, hb₃, hb₄, hcomma'⟩ := dropComma?_sound hcomma'
  obtain ⟨z, hz, numberZ⟩ := number_sound hz
  obtain ⟨closed, e, he, hclose⟩ := exists_dropClose sz
  refine ⟨_, ?_, opened, closed, o, _, e, ho,
    .mk (v := ⟨a, b, c⟩) numberX numberY numberZ ⟨hb₁, hb₂, hb₃, hb₄⟩, he, rfl⟩
  rw [hs, hx, hcomma, hy, hcomma', hz, hclose, hrest]
  simp

/-- A comma ends a number, also behind blanks. -/
theorem delimited_comma {b : List Char} (hb : Blank b) (s : List Char) :
    Delimited (b ++ ',' :: s) :=
  delimited_append hb (by simp [Delimited])

theorem delimited_closing {closed : Bool} {c : List Char} (h : Closing closed c)
    {rest : List Char} (hr : Delimited rest) : Delimited (c ++ rest) := by
  cases h with
  | absent => exact hr
  | present hb =>
    rw [List.append_assoc]
    exact delimited_append hb (by simp [Delimited])

theorem vec3_append {opened closed : Bool} {t rest : List Char} {v : Vec3}
    (h : Enclosed opened closed t v) (hr : Delimited rest) (hclose : Unclosed rest) :
    vec3 (t ++ rest) = some (v, rest) := by
  obtain ⟨o, _, e, ho, ⟨hx, hy, hz, hb, hc, hd, he⟩, hclosing, rfl⟩ := h
  simp only [vec3, List.append_assoc, List.cons_append, dropOpen_append ho hx,
    number_append hx (delimited_comma hb _), dropComma?_append hb hc hy,
    number_append hy (delimited_comma hd _), dropComma?_append hd he hz,
    number_append hz (delimited_closing hclosing hr), dropClose_append hclosing hclose,
    Option.bind_eq_bind, Option.bind_some, Option.pure_def]

theorem exact_vec3 :
    Exact vec3 (fun t v => ∃ opened closed, Enclosed opened closed t v)
      fun rest => Delimited rest ∧ Unclosed rest where
  opens := by
    rintro t v ⟨opened, closed, o, _, e, ho, ⟨hx, -⟩, -, rfl⟩
    cases ho with
    | absent =>
      obtain ⟨c, r, rfl, hc⟩ := hx.opens
      exact ⟨c, _, rfl, hc⟩
    | present hb => exact ⟨'(', _, rfl, by decide⟩
  blank hb := by
    have hend : skipBlanks _ = [] := skipBlanks_eq_nil_iff.2 hb
    exact ⟨delimited_blank hb, by simp [Unclosed, hend]⟩
  sound := vec3_sound
  complete := by
    rintro t v rest ⟨opened, closed, h⟩ ⟨hr, hclose⟩
    exact vec3_append h hr hclose

theorem vec3?_eq_some_iff {text : String} {v : Vec3} :
    vec3? text = some v ↔ ∃ opened closed, IsVector opened closed text v := by
  rw [vec3?, exact_vec3.whole_eq_some_iff]
  constructor
  · rintro ⟨before, t, after, hbefore, hafter, htext, opened, closed, h⟩
    exact ⟨opened, closed, before, t, after, hbefore, hafter, htext, h⟩
  · rintro ⟨opened, closed, before, t, after, hbefore, hafter, htext, h⟩
    exact ⟨before, t, after, hbefore, hafter, htext, opened, closed, h⟩

/-! ## How often a mark occurs -/

theorem Unmarked.count {s : List Char} (h : Unmarked s) :
    s.count ',' = 0 ∧ s.count '(' = 0 ∧ s.count ')' = 0 :=
  ⟨List.count_eq_zero.2 fun hc => (h _ hc).1 rfl, List.count_eq_zero.2 fun hc => (h _ hc).2.1 rfl,
    List.count_eq_zero.2 fun hc => (h _ hc).2.2 rfl⟩

theorem Opening.count {opened : Bool} {o : List Char} (h : Opening opened o) :
    o.count ',' = 0 ∧ o.count '(' = opened.toNat ∧ o.count ')' = 0 := by
  cases h with
  | absent => simp
  | present hb => simp [(unmarked_blank hb).count]

theorem Closing.count {closed : Bool} {c : List Char} (h : Closing closed c) :
    c.count ',' = 0 ∧ c.count '(' = 0 ∧ c.count ')' = closed.toNat := by
  cases h with
  | absent => simp
  | present hb => simp [(unmarked_blank hb).count]

theorem Components.count {m : List Char} {v : Vec3} (h : Components m v) :
    m.count ',' = 2 ∧ m.count '(' = 0 ∧ m.count ')' = 0 := by
  obtain ⟨hx, hy, hz, hb, hc, hd, he⟩ := h
  simp [hx.unmarked.count, hy.unmarked.count, hz.unmarked.count, (unmarked_blank hb).count,
    (unmarked_blank hc).count, (unmarked_blank hd).count, (unmarked_blank he).count]

/-- A vector has two commas, and no parenthesis besides those around it. -/
theorem IsVector.count {opened closed : Bool} {text : String} {v : Vec3}
    (h : IsVector opened closed text v) :
    text.toList.count ',' = 2 ∧ text.toList.count '(' = opened.toNat ∧
      text.toList.count ')' = closed.toNat := by
  obtain ⟨before, _, after, hbefore, hafter, htext, o, m, c, ho, hm, hc, rfl⟩ := h
  simp [htext, (unmarked_blank hbefore).count, (unmarked_blank hafter).count, ho.count, hm.count,
    hc.count]

/-! ## Whole texts -/

/-- Texts read as vectors have a pair of parentheses or none, just where no side has one alone. -/
theorem paired_iff {text : String} :
    (∀ v, vec3? text = some v ↔ ∃ paired, IsVector paired paired text v) ↔
      vec3? text = none ∨ text.toList.count '(' = text.toList.count ')' := by
  constructor
  · intro h
    cases hread : vec3? text with
    | none => exact .inl rfl
    | some v =>
      obtain ⟨paired, hvector⟩ := (h v).1 hread
      obtain ⟨-, hopen, hclose⟩ := hvector.count
      exact .inr (hopen.trans hclose.symm)
  · intro h v
    rw [vec3?_eq_some_iff]
    constructor
    · rintro ⟨opened, closed, hvector⟩
      have hread := vec3?_eq_some_iff.2 ⟨opened, closed, hvector⟩
      obtain ⟨-, hopen, hclose⟩ := hvector.count
      obtain hnone | hcount := h
      · cases hnone.symm.trans hread
      · have same : opened.toNat = closed.toNat := hopen.symm.trans (hcount.trans hclose)
        obtain rfl := Function.LeftInverse.injective Bool.ofNat_toNat same
        exact ⟨_, hvector⟩
    · rintro ⟨paired, hvector⟩
      exact ⟨paired, paired, hvector⟩

/-- **Vectors are read exactly**: a text reads as a vector if and only if it is three numbers with
commas between them, enclosed in a parenthesis on each side or without it, all between blanks. So it
has two commas and no further parenthesis, and each component is what its number reads as. A text
with as many closing parentheses as opening ones is a vector only with a pair of them or none; any
other is one only with a parenthesis on one side alone. -/
theorem vec3?_exact (text : String) :
    (∀ v, vec3? text = some v ↔ ∃ opened closed, IsVector opened closed text v) ∧
    (∀ opened closed v, IsVector opened closed text v →
      text.toList.count ',' = 2 ∧ text.toList.count '(' = opened.toNat ∧
        text.toList.count ')' = closed.toNat) ∧
    ((∀ v, vec3? text = some v ↔ ∃ paired, IsVector paired paired text v) ↔
      vec3? text = none ∨ text.toList.count '(' = text.toList.count ')') ∧
    ∀ t x, Number t x → number? (String.ofList t) = some x := by
  refine ⟨fun _ => vec3?_eq_some_iff, fun _ _ _ h => h.count, paired_iff, fun t x h => ?_⟩
  exact number?_eq_some_iff.2 ⟨[], t, [], by simp [Blank], by simp [Blank], by simp, h⟩

/-- `vec3?_exact` for a vector in parentheses and one of its numbers. -/
theorem vec3?_exact_enclosed :
    vec3? " ( 1 , 2 ,\t3 ) " = some ⟨1, 2, 3⟩ ∧ IsVector true true " ( 1 , 2 ,\t3 ) " ⟨1, 2, 3⟩ ∧
      " ( 1 , 2 ,\t3 ) ".toList.count ',' = 2 ∧ Number ['1'] 1 ∧ number? "1" = some 1 := by
  have hread : vec3? " ( 1 , 2 ,\t3 ) " = some ⟨1, 2, 3⟩ := by decide +kernel
  obtain ⟨-, hcount, hpaired, hnumbers⟩ := vec3?_exact " ( 1 , 2 ,\t3 ) "
  obtain ⟨paired, hvector⟩ := (hpaired.2 (.inr (by decide)) _).1 hread
  obtain ⟨hcommas, hopen, -⟩ := hcount _ _ _ hvector
  have hpair : paired = true := by
    cases paired
    · cases hopen
    · rfl
  have hone : Number ['1'] 1 := by
    have hnumber := Number.decimal .absent (.whole (w := ['1']) (by simp [AllDigits]) (by simp))
      .absent
    have hvalue : (Scientific.mk (Nat.ofDigitChars 10 ['1'] 0) (0 + 0)).toFloat32 = 1 := by
      decide +kernel
    rwa [if_neg Bool.false_ne_true, hvalue] at hnumber
  subst hpair
  exact ⟨hread, hvector, hcommas, hone, hnumbers _ _ hone⟩

/-- A text with an opening parenthesis alone reads as a vector. -/
theorem vec3?_unclosed : vec3? "(1,2,3" = some ⟨1, 2, 3⟩ ∧
    ∀ paired v, ¬IsVector paired paired "(1,2,3" v := by
  refine ⟨by decide +kernel, fun paired v h => ?_⟩
  obtain ⟨-, hopen, hclose⟩ := h.count
  have hone : "(1,2,3".toList.count '(' = 1 := by decide
  have hzero : "(1,2,3".toList.count ')' = 0 := by decide
  omega

end BehaviorTree.Literal
