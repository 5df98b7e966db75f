import BehaviorTree.Proofs.Json.Float

/-!
# Written documents are read as what they are

`Document.value d` is the value that the text of a document `d` is read as. Both writers spell it
(`writeJson_spells`, `writePretty_spells`), so `read` gives it for the whole text
(`read_toJson`, `read_toJsonPretty`).
-/

namespace BehaviorTree.Document

open Json

/-! ## The value of a document -/

mutual

/-- What the text of a document is read as. -/
def value : Document → Value
  | null => .null
  | bool value => .bool value
  | int value => .number (.ofInt value)
  | float value => floatValue value
  | text value => .text (.ok value)
  | list items => .list (values items) none
  | record fields => .record (fieldValues fields) none

/-- What the items of a list are read as. -/
def values : List Document → List Value
  | [] => []
  | item :: rest => item.value :: values rest

/-- What the fields of a record are read as. -/
def fieldValues : List (String × Document) → List (ReadText × Value)
  | [] => []
  | (name, d) :: rest => (.ok name, d.value) :: fieldValues rest

end

theorem values_eq_map (items : List Document) : values items = items.map value := by
  induction items with
  | nil => rfl
  | cons item rest ih => rw [values, ih, List.map_cons]

/-! ## Texts that go on -/

/-- What is written goes on with a text that spells a value. -/
def Adds (out written : String) (v : Value) : Prop :=
  ∃ s, Spells v s ∧ written.toList = out.toList ++ s

/-- What is written goes on with items behind another one; blanks and the bracket are to come. -/
def AddsItems (out written : String) (vs : List Value) : Prop :=
  ∃ t, (∀ b, Blank b → SpellsTail vs (t ++ (b ++ [']']))) ∧ written.toList = out.toList ++ t

/-- What is written goes on with fields behind another one; blanks and the brace are to come. -/
def AddsFields (out written : String) (fs : List (ReadText × Value)) : Prop :=
  ∃ t, (∀ b, Blank b → SpellsFieldTail fs (t ++ (b ++ ['\x7d']))) ∧
    written.toList = out.toList ++ t

section

variable {out written : String} {v : Value} {vs : List Value} {fs : List (ReadText × Value)}

theorem Adds.of_eq {s : String} (h : Spells v s.toList) (hw : written = out ++ s) :
    Adds out written v := ⟨s.toList, h, by rw [hw, String.toList_append]⟩

theorem Adds.text (out s : String) : Adds out (writeText out s) (.text (.ok s)) :=
  ⟨_, spells_text s, toList_writeText out s⟩

theorem AddsItems.nil (out : String) : AddsItems out out [] :=
  ⟨[], fun _ hb => spellsTail_nil hb, by simp⟩

theorem AddsFields.nil (out : String) : AddsFields out out [] :=
  ⟨[], fun _ hb => spellsFieldTail_nil hb, by simp⟩

/-- A further item: a comma, blanks, the item, and the items after it. -/
theorem AddsItems.cons (start : String) {itemWritten : String} {b : List Char} (hb : Blank b)
    (hstart : start.toList = out.toList ++ ',' :: b) (item : Adds start itemWritten v)
    (rest : AddsItems itemWritten written vs) : AddsItems out written (v :: vs) := by
  obtain ⟨s, hs, hitem⟩ := item
  obtain ⟨t, ht, hwritten⟩ := rest
  refine ⟨',' :: (b ++ (s ++ t)), fun c hc => ?_, by simp [hwritten, hitem, hstart]⟩
  have further := spellsTail_cons hb hs (ht c hc)
  simpa using further

/-- A further field: a comma, blanks, the name, a colon, blanks, the value, and what comes after. -/
theorem AddsFields.cons (start : String) {nameStart nameWritten valueWritten name : String}
    {b c : List Char} (hb : Blank b) (hc : Blank c)
    (hstart : start.toList = out.toList ++ ',' :: b) (hname : nameStart = writeText start name)
    (hcolon : nameWritten.toList = nameStart.toList ++ ':' :: c)
    (value : Adds nameWritten valueWritten v) (rest : AddsFields valueWritten written fs) :
    AddsFields out written ((.ok name, v) :: fs) := by
  obtain ⟨s, hs, hvalue⟩ := value
  obtain ⟨t, ht, hwritten⟩ := rest
  refine ⟨',' :: (b ++ '"' :: (escapedText name.toList ++ '"' :: ':' :: (c ++ s) ++ t)),
    fun d hd => ?_, by simp [hwritten, hvalue, hcolon, hname, toList_writeText, hstart]⟩
  have field : SpellsField name v _ := .mk hc hs
  have further := spellsFieldTail_cons hb field (ht d hd)
  simpa using further

/-- A list with items: the bracket, blanks, the first item, the others, blanks, the bracket. -/
theorem Adds.list (start : String) {itemWritten itemsWritten : String} {b c : List Char}
    (hb : Blank b) (hc : Blank c) (hstart : start.toList = out.toList ++ '[' :: b)
    (item : Adds start itemWritten v) (rest : AddsItems itemWritten itemsWritten vs)
    (hwritten : written.toList = itemsWritten.toList ++ (c ++ [']'])) :
    Adds out written (.list (v :: vs) none) := by
  obtain ⟨s, hs, hitem⟩ := item
  obtain ⟨t, ht, hitems⟩ := rest
  exact ⟨_, spells_list hb (ht c hc v s hs), by simp [hwritten, hitems, hitem, hstart]⟩

/-- A record with fields: the brace, blanks, the first field, the others, blanks, the brace. -/
theorem Adds.record (start : String)
    {nameStart nameWritten valueWritten fieldsWritten name : String} {b c d : List Char}
    (hb : Blank b)
    (hc : Blank c) (hd : Blank d) (hstart : start.toList = out.toList ++ '\x7b' :: b)
    (hname : nameStart = writeText start name)
    (hcolon : nameWritten.toList = nameStart.toList ++ ':' :: c)
    (value : Adds nameWritten valueWritten v)
    (rest : AddsFields valueWritten fieldsWritten fs)
    (hwritten : written.toList = fieldsWritten.toList ++ (d ++ ['\x7d'])) :
    Adds out written (.record ((.ok name, v) :: fs) none) := by
  obtain ⟨s, hs, hvalue⟩ := value
  obtain ⟨t, ht, hfields⟩ := rest
  exact ⟨_, spells_record hb (ht d hd name v _ (.mk hc hs)),
    by simp [hwritten, hfields, hvalue, hcolon, hname, toList_writeText, hstart]⟩

end

/-! ## Values that are written alike in both layouts -/

theorem adds_null (out : String) : Adds out (out ++ "null") .null :=
  .of_eq (by simpa using spells_null) rfl

theorem adds_bool (out : String) (value : Bool) :
    Adds out (out ++ if value then "true" else "false") (.bool value) := by
  cases value
  · exact .of_eq (by simpa using spells_false) rfl
  · exact .of_eq (by simpa using spells_true) rfl

theorem adds_int (out : String) (value : Int) :
    Adds out (out ++ toString value) (.number (.ofInt value)) :=
  .of_eq (Numeral.spell_ofInt value ▸ spells_number (Numeral.ofInt_proper value)) rfl

theorem adds_float (out : String) (value : Float32) :
    Adds out (out ++ Json.number value) (floatValue value) :=
  .of_eq (spells_number_text value) rfl

theorem adds_nil {out written : String} (h : written = out ++ "[]") :
    Adds out written (list []).value :=
  .of_eq (by simpa [value, values] using spells_nil) h

theorem adds_empty {out written : String} (h : written = out ++ "\x7b\x7d") :
    Adds out written (record []).value :=
  .of_eq (by simpa [value, fieldValues] using spells_empty) h

/-! ## Documents on one line -/

mutual

theorem writeJson_spells (out : String) : ∀ d : Document, Adds out (writeJson out d) d.value
  | null => adds_null out
  | bool value => adds_bool out value
  | int value => adds_int out value
  | float value => adds_float out value
  | text value => .text out value
  | list [] => adds_nil (by simp [writeJson, writeJsonItems, String.append_assoc])
  | list (item :: rest) =>
    .list _ blank_nil blank_nil (by simp) (writeJson_spells (out ++ "[") item)
      (writeJsonItems_spells _ rest) (by simp [writeJson, writeJsonItems])
  | record [] => adds_empty (by simp [writeJson, writeJsonFields, String.append_assoc])
  | record ((name, d) :: rest) =>
    .record (out ++ "\x7b") blank_nil blank_nil blank_nil (by simp) rfl (by simp)
      (writeJson_spells (writeText (out ++ "\x7b") name ++ ":") d)
      (writeJsonFields_spells _ rest) (by simp [writeJson, writeJsonFields])

theorem writeJsonItems_spells (out : String) :
    ∀ items : List Document, AddsItems out (writeJsonItems out false items) (values items)
  | [] => .nil out
  | item :: rest =>
    .cons _ blank_nil (by simp) (writeJson_spells (out ++ ",") item)
      (writeJsonItems_spells _ rest)

theorem writeJsonFields_spells (out : String) :
    ∀ fields : List (String × Document),
      AddsFields out (writeJsonFields out false fields) (fieldValues fields)
  | [] => .nil out
  | (name, d) :: rest =>
    .cons (out ++ ",") blank_nil blank_nil (by simp) rfl (by simp)
      (writeJson_spells (writeText (out ++ ",") name ++ ":") d) (writeJsonFields_spells _ rest)

end

theorem read_toJson (d : Document) : read d.toJson = (d.value, some []) := by
  obtain ⟨s, hs, hw⟩ := writeJson_spells "" d
  refine read_of_spells ?_
  rwa [toJson, hw, String.toList_empty, List.nil_append]

/-! ## Documents on many lines -/

/-- What starts a line at a level. -/
def lineStart (level : Nat) : List Char := '\n' :: (List.replicate level [' ', ' ']).flatten

theorem blank_lineStart (level : Nat) : Blank (lineStart level) := by
  intro c hc
  simp only [lineStart, List.mem_cons, List.mem_flatten, List.mem_replicate] at hc
  rcases hc with rfl | ⟨l, ⟨-, rfl⟩, hc⟩
  · decide
  · simp only [List.mem_cons, List.not_mem_nil, or_false, or_self] at hc
    subst hc
    decide

theorem toList_newLine (out : String) (level : Nat) :
    (newLine out level).toList = out.toList ++ lineStart level := by
  have go (l : List String) (start : String) :
      (l.foldl (· ++ ·) start).toList = start.toList ++ (l.map String.toList).flatten := by
    induction l generalizing start with
    | nil => simp
    | cons s l ih => simp [ih]
  simp [newLine, go, lineStart]

theorem blank_space : Blank [' '] := by
  simp [Blank, isBlank]

mutual

theorem writePretty_spells (level : Nat) (out : String) :
    ∀ d : Document, Adds out (writePretty level out d) d.value
  | null => adds_null out
  | bool value => adds_bool out value
  | int value => adds_int out value
  | float value => adds_float out value
  | text value => .text out value
  | list [] => adds_nil rfl
  | list (item :: rest) =>
    .list (newLine (out ++ "[") (level + 1)) (blank_lineStart (level + 1))
      (blank_lineStart level) (by simp [toList_newLine])
      (writePretty_spells (level + 1) _ item) (writePrettyItems_spells (level + 1) _ rest)
      (by simp [writePretty, toList_newLine])
  | record [] => adds_empty rfl
  | record ((name, d) :: rest) =>
    .record (newLine (out ++ "\x7b") (level + 1)) (blank_lineStart (level + 1)) blank_space
      (blank_lineStart level) (by simp [toList_newLine]) rfl (by simp)
      (writePretty_spells (level + 1)
        (writeText (newLine (out ++ "\x7b") (level + 1)) name ++ ": ") d)
      (writePrettyFields_spells (level + 1) _ rest) (by simp [writePretty, toList_newLine])

theorem writePrettyItems_spells (level : Nat) (out : String) :
    ∀ items : List Document, AddsItems out (writePrettyItems level out items) (values items)
  | [] => .nil out
  | item :: rest =>
    .cons (newLine (out ++ ",") level) (blank_lineStart level) (by simp [toList_newLine])
      (writePretty_spells level _ item) (writePrettyItems_spells level _ rest)

theorem writePrettyFields_spells (level : Nat) (out : String) :
    ∀ fields : List (String × Document),
      AddsFields out (writePrettyFields level out fields) (fieldValues fields)
  | [] => .nil out
  | (name, d) :: rest =>
    .cons (newLine (out ++ ",") level) (blank_lineStart level) blank_space
      (by simp [toList_newLine]) rfl (by simp)
      (writePretty_spells level (writeText (newLine (out ++ ",") level) name ++ ": ") d)
      (writePrettyFields_spells level _ rest)

end

theorem read_toJsonPretty (d : Document) : read d.toJsonPretty = (d.value, some []) := by
  obtain ⟨s, hs, hw⟩ := writePretty_spells 0 "" d
  refine read_of_spells ?_
  rwa [toJsonPretty, hw, String.toList_empty, List.nil_append]

end BehaviorTree.Document
