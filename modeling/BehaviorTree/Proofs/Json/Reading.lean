import BehaviorTree.Proofs.Json.Numeral
import BehaviorTree.Proofs.Json.Text

/-!
# Which texts read as which values

`Spells v s`: wherever the text `s` stands, delimited, it is read as the value `v` and reading stops
right behind it, if the bound is no less than its length. The lemmas after it say how the texts of
values are put together, one for each form of value.

A list is spelled from its items: `SpellsItems vs t` says that `t` holds the items `vs` and the
closing bracket, and `SpellsTail vs t` that it does so behind another item. `SpellsFields` and
`SpellsFieldTail` are the same for records.
-/

namespace BehaviorTree.Json

variable {v : Value} {vs : List Value} {fs : List (ReadText × Value)} {b s t rest : List Char}
  {name : String}

/-! ## Blanks -/

/-- Nothing but blanks. -/
def Blank (b : List Char) : Prop := ∀ c ∈ b, isBlank c

theorem blank_nil : Blank [] := by simp [Blank]

theorem skipBlanks_blank (hb : Blank b) (s : List Char) : skipBlanks (b ++ s) = skipBlanks s :=
  List.dropWhile_append_of_pos hb

theorem skipBlanks_cons {c : Char} (hc : isBlank c = false) (s : List Char) :
    skipBlanks (c :: s) = c :: s := by
  simp [skipBlanks, hc]

theorem readValue_blank (hb : Blank b) (fuel : Nat) (s : List Char) :
    readValue fuel (b ++ s) = readValue fuel s := by
  cases fuel with
  | zero => rw [readValue, readValue]
  | succ fuel => rw [readValue, readValue, skipBlanks_blank hb]

/-- Blanks and then a mark end a number. -/
theorem delimited_blank (hb : Blank b) {c : Char}
    (hc : ¬c.isDigit ∧ c ≠ '.' ∧ c ≠ 'e' ∧ c ≠ 'E') (s : List Char) :
    Delimited (b ++ c :: s) := by
  cases b with
  | nil => simpa [Delimited] using hc
  | cons d b =>
    have hd : isBlank d := hb d (by simp)
    simp only [isBlank, Bool.or_eq_true, decide_eq_true_eq] at hd
    rcases hd with ((rfl | rfl) | rfl) | rfl <;> simp [Delimited]

/-! ## Values -/

/-- The text starts with neither a blank nor the end of a list. -/
def Opens (s : List Char) : Prop := ∃ c t, s = c :: t ∧ isBlank c = false ∧ c ≠ ']'

theorem Opens.append (h : Opens s) (t : List Char) : Opens (s ++ t) := by
  obtain ⟨c, s, rfl, hc⟩ := h
  exact ⟨c, s ++ t, rfl, hc⟩

theorem Opens.skipBlanks_eq (h : Opens s) : skipBlanks s = s := by
  obtain ⟨c, t, rfl, hc, -⟩ := h
  exact skipBlanks_cons hc t

/-- The text is read as the value wherever it stands. -/
structure Spells (v : Value) (s : List Char) : Prop where
  opens : Opens s
  reads : ∀ (fuel : Nat) (rest : List Char), s.length ≤ fuel → Delimited rest →
    readValue fuel (s ++ rest) = (v, some rest)

/-- To spell a value is to read as it with a step to spare. -/
theorem Spells.of_succ {c : Char} {s : List Char} (hc : isBlank c = false) (hne : c ≠ ']')
    (reads : ∀ (fuel : Nat) (rest : List Char), s.length ≤ fuel → Delimited rest →
      readValue (fuel + 1) (c :: (s ++ rest)) = (v, some rest)) : Spells v (c :: s) where
  opens := ⟨c, s, rfl, hc, hne⟩
  reads fuel rest hf hr := by
    obtain ⟨fuel, rfl⟩ : ∃ f, fuel = f + 1 := ⟨fuel - 1, by simp at hf; omega⟩
    exact reads fuel rest (by simpa using hf) hr

theorem spells_null : Spells .null ['n', 'u', 'l', 'l'] :=
  .of_succ (by decide) (by decide) fun _ _ _ _ => by
    simp [readValue, skipBlanks_cons, isBlank, takeWord]

theorem spells_true : Spells (.bool true) ['t', 'r', 'u', 'e'] :=
  .of_succ (by decide) (by decide) fun _ _ _ _ => by
    simp [readValue, skipBlanks_cons, isBlank, takeWord]

theorem spells_false : Spells (.bool false) ['f', 'a', 'l', 's', 'e'] :=
  .of_succ (by decide) (by decide) fun _ _ _ _ => by
    simp [readValue, skipBlanks_cons, isBlank, takeWord]

/-- A text between quotes. -/
theorem spells_text (s : String) :
    Spells (.text (.ok s)) ('"' :: (escapedText s.toList ++ ['"'])) := by
  refine .of_succ (by decide) (by decide) fun _ rest _ _ => ?_
  have quote : skipBlanks ('"' :: (escapedText s.toList ++ ['"'] ++ rest)) =
      '"' :: (escapedText s.toList ++ '"' :: rest) := by
    simp [skipBlanks_cons, isBlank]
  rw [readValue, quote]
  simp [readText, takePieces_text, textOf_written]

theorem isBlank_digit {c : Char} (h : c.isDigit) : isBlank c = false ∧ c ≠ ']' := by
  constructor
  · rw [isBlank, Bool.eq_false_iff]
    intro hb
    simp only [Bool.or_eq_true, decide_eq_true_eq] at hb
    rcases hb with ((rfl | rfl) | rfl) | rfl <;> simp at h
  · rintro rfl
    simp at h

theorem readValue_digit {d : Char} (hd : d.isDigit) (fuel : Nat) (s : List Char) :
    readValue (fuel + 1) (d :: s) = readNumber false (d :: s) := by
  rw [readValue, skipBlanks_cons (isBlank_digit hd).1]
  split
  case h_9 c _ _ _ _ _ _ _ _ heq =>
    cases heq
    rw [if_pos hd]
  all_goals simp_all

theorem spells_number {n : Numeral} (hn : n.Proper) : Spells (.number n) n.spell := by
  obtain ⟨d, ds, hw⟩ := List.exists_cons_of_ne_nil hn.whole_ne
  have hd : d.isDigit := hn.whole d (by simp [hw])
  have read {rest : List Char} (hr : Delimited rest) := readNumber_spell hn hr
  rw [Numeral.spell]
  split
  · next negative =>
    refine .of_succ (by decide) (by decide) fun _ rest _ hr => ?_
    rw [readValue, skipBlanks_cons (by decide)]
    simpa [negative] using read hr
  · next positive =>
    have unsigned : n.spellUnsigned =
        d :: (ds ++ (spellFraction n.fraction ++ spellExponent n.exponent)) := by
      rw [Numeral.spellUnsigned, hw, List.cons_append]
    simp only [positive, unsigned, List.cons_append] at read
    rw [unsigned]
    refine .of_succ (isBlank_digit hd).1 (isBlank_digit hd).2 fun _ rest _ hr => ?_
    rw [readValue_digit hd]
    exact read hr

/-! ## Lists -/

/-- The text holds the items and the closing bracket. -/
structure SpellsItems (vs : List Value) (t : List Char) : Prop where
  opens : Opens t
  reads : ∀ (fuel : Nat) (done : List Value) (rest : List Char), t.length ≤ fuel →
    readItems fuel done (t ++ rest) = (.list (done.reverse ++ vs) none, some rest)

/-- The text holds the items and the closing bracket, behind another item. -/
def SpellsTail (vs : List Value) (t : List Char) : Prop :=
  ∀ (v : Value) (s : List Char), Spells v s → SpellsItems (v :: vs) (s ++ t)

theorem spellsTail_nil (hb : Blank b) : SpellsTail [] (b ++ [']']) := by
  intro v s hv
  refine ⟨hv.opens.append _, fun fuel done rest hf => ?_⟩
  simp only [List.length_append, List.length_cons, List.length_nil] at hf
  obtain ⟨fuel, rfl⟩ : ∃ f, fuel = f + 1 := ⟨fuel - 1, by omega⟩
  have item := hv.reads fuel (b ++ ']' :: rest) (by omega)
    (delimited_blank hb (by decide) _)
  have bracket : skipBlanks (b ++ ']' :: rest) = ']' :: rest := by
    rw [skipBlanks_blank hb, skipBlanks_cons (by decide)]
  rw [readItems, List.append_assoc, List.append_assoc, List.singleton_append, item]
  simp [bracket]

theorem spellsTail_cons (hb : Blank b) (hs : Spells v s) (ht : SpellsTail vs t) :
    SpellsTail (v :: vs) (',' :: (b ++ (s ++ t))) := by
  intro w u hw
  have later := ht v s hs
  refine ⟨hw.opens.append _, fun fuel done rest hf => ?_⟩
  simp only [List.length_append, List.length_cons] at hf
  obtain ⟨fuel, rfl⟩ : ∃ f, fuel = f + 1 := ⟨fuel - 1, by omega⟩
  have item := hw.reads fuel (',' :: (b ++ (s ++ t) ++ rest)) (by omega)
    (delimited_blank blank_nil (by decide) _)
  have behind : skipBlanks (b ++ (s ++ t) ++ rest) = s ++ t ++ rest := by
    rw [List.append_assoc, skipBlanks_blank hb, (later.opens.append rest).skipBlanks_eq]
  have further := later.reads fuel (w :: done) rest
    (by simp only [List.length_append]; omega)
  rw [readItems, List.append_assoc, List.cons_append, item]
  simp only [skipBlanks_cons (show isBlank ',' = false by decide), behind]
  split
  · next hbr =>
    obtain ⟨c, r, hc, -, hne⟩ := later.opens.append rest
    rw [hc] at hbr
    exact absurd (List.cons.inj hbr).1 hne
  · simpa using further

theorem spells_nil : Spells (.list [] none) ['[', ']'] :=
  .of_succ (by decide) (by decide) fun _ _ _ _ => by simp [readValue, skipBlanks_cons, isBlank]

theorem spells_list (hb : Blank b) (h : SpellsItems vs t) :
    Spells (.list vs none) ('[' :: (b ++ t)) := by
  refine .of_succ (by decide) (by decide) fun fuel rest hf _ => ?_
  have inside : skipBlanks (b ++ t ++ rest) = t ++ rest := by
    rw [List.append_assoc, skipBlanks_blank hb, (h.opens.append rest).skipBlanks_eq]
  have items := h.reads fuel [] rest
    (by simp only [List.length_append] at hf; omega)
  obtain ⟨c, r, hc, -, hne⟩ := h.opens.append rest
  rw [readValue, skipBlanks_cons (by decide)]
  simp only [inside]
  split
  · next he => rw [he] at hc; cases hc
  · next he =>
    rw [he] at hc
    exact absurd (List.cons.inj hc).1.symm hne
  · simpa using items

/-! ## Records -/

/-- The text holds a field, behind its opening quote. -/
inductive SpellsField (name : String) (v : Value) : List Char → Prop
  | mk {b s : List Char} (blank : Blank b) (value : Spells v s) :
    SpellsField name v (escapedText name.toList ++ '"' :: ':' :: (b ++ s))

/-- The text holds the fields and the closing bracket, behind the first opening quote. -/
def SpellsFields (fs : List (ReadText × Value)) (t : List Char) : Prop :=
  ∀ (fuel : Nat) (done : List (ReadText × Value)) (rest : List Char), t.length ≤ fuel →
    readFields fuel done (t ++ rest) = (.record (done.reverse ++ fs) none, some rest)

/-- The text holds the fields and the closing bracket, behind another field. -/
def SpellsFieldTail (fs : List (ReadText × Value)) (t : List Char) : Prop :=
  ∀ (name : String) (v : Value) (s : List Char), SpellsField name v s →
    SpellsFields ((.ok name, v) :: fs) (s ++ t)

theorem spellsFieldTail_nil (hb : Blank b) : SpellsFieldTail [] (b ++ ['\x7d']) := by
  rintro name v _ ⟨hbv, hv⟩ fuel done rest hf
  simp only [List.length_append, List.length_cons, List.length_nil] at hf
  obtain ⟨fuel, rfl⟩ : ∃ f, fuel = f + 1 := ⟨fuel - 1, by omega⟩
  have value := hv.reads fuel (b ++ '\x7d' :: rest) (by omega)
    (delimited_blank hb (by decide) _)
  have brace : skipBlanks (b ++ '\x7d' :: rest) = '\x7d' :: rest := by
    rw [skipBlanks_blank hb, skipBlanks_cons (by decide)]
  simp only [List.append_assoc, List.cons_append, List.nil_append]
  rw [readFields, takePieces_text]
  simp [skipBlanks_cons, isBlank, readValue_blank hbv, value, brace, textOf_written]

theorem spellsFieldTail_cons (hb : Blank b) (hs : SpellsField name v s)
    (ht : SpellsFieldTail fs t) :
    SpellsFieldTail ((.ok name, v) :: fs) (',' :: (b ++ '"' :: (s ++ t))) := by
  rintro other w _ ⟨hbw, hw⟩ fuel done rest hf
  simp only [List.length_append, List.length_cons] at hf
  obtain ⟨fuel, rfl⟩ : ∃ f, fuel = f + 1 := ⟨fuel - 1, by omega⟩
  have value := hw.reads fuel (',' :: (b ++ '"' :: (s ++ (t ++ rest)))) (by omega)
    (delimited_blank blank_nil (by decide) _)
  have behind : skipBlanks (b ++ '"' :: (s ++ (t ++ rest))) = '"' :: (s ++ (t ++ rest)) := by
    rw [skipBlanks_blank hb, skipBlanks_cons (by decide)]
  have further := ht name v s hs fuel ((.ok other, w) :: done) rest
    (by simp only [List.length_append]; omega)
  simp only [List.append_assoc, List.cons_append] at further ⊢
  rw [readFields, takePieces_text]
  simp [skipBlanks_cons, isBlank, readValue_blank hbw, value, behind, textOf_written, further]

theorem spells_empty : Spells (.record [] none) ['\x7b', '\x7d'] :=
  .of_succ (by decide) (by decide) fun _ _ _ _ => by simp [readValue, skipBlanks_cons, isBlank]

theorem spells_record (hb : Blank b) (h : SpellsFields fs t) :
    Spells (.record fs none) ('\x7b' :: (b ++ '"' :: t)) := by
  refine .of_succ (by decide) (by decide) fun fuel rest hf _ => ?_
  have inside : skipBlanks (b ++ '"' :: (t ++ rest)) = '"' :: (t ++ rest) := by
    rw [skipBlanks_blank hb, skipBlanks_cons (by decide)]
  have fields := h fuel [] rest
    (by simp only [List.length_append, List.length_cons] at hf; omega)
  rw [readValue, skipBlanks_cons (by decide), List.append_assoc, List.cons_append]
  simp [inside, fields]

/-! ## Whole texts -/

theorem read_of_spells {text : String} (h : Spells v text.toList) : read text = (v, some []) := by
  have reads := h.reads (2 * text.toList.length + 2) [] (by omega)
    (by simp [Delimited])
  rwa [List.append_nil] at reads

end BehaviorTree.Json
