import BehaviorTree.Json.Decode
import BehaviorTree.Proofs.Json.Writing

/-!
# Decoders undo documents

`Reads dec d a`: the decoder `dec` takes `a` out of what the document `d` is read as. One lemma for
each form of value says when that is so; `decode_toJson` and `decode_toJsonPretty` carry it over to
the written text. `Fails dec d e` says that the decoder fails there, and goes up in the same way, up
to `decode_toJson_error`.
-/

namespace BehaviorTree.Json

variable {α β : Type} {dec : Decoder α} {d : Document} {a : α}

/-- The decoder takes this out of what the document is read as. -/
def Reads (dec : Decoder α) (d : Document) (a : α) : Prop := dec d.value = .ok a

theorem decode_of_read {text : String} (hr : read text = (d.value, some [])) (h : Reads dec d a) :
    decode dec text = .ok a := by
  have value : dec d.value = .ok a := h
  simp only [decode, hr, value]
  rfl

theorem decode_toJson (h : Reads dec d a) : decode dec d.toJson = .ok a :=
  decode_of_read d.read_toJson h

theorem decode_toJsonPretty (h : Reads dec d a) : decode dec d.toJsonPretty = .ok a :=
  decode_of_read d.read_toJsonPretty h

theorem length_values_vector {n : Nat} (write : α → Document) (xs : Vector α n) :
    (Document.values (xs.toList.map write)).length = n := by
  rw [Document.values_eq_map, List.length_map, List.length_map, Vector.length_toList]

namespace Reads

/-! ## Plain values -/

theorem text (s : String) : Reads Decoder.text (.text s) s := rfl

theorem integer (name : String) {low high i : Int} (hlow : Int64.minValue.toInt ≤ low)
    (hhigh : high < UInt64.size) (hi : low ≤ i ∧ i ≤ high) :
    Reads (Decoder.integer name low high) (.int i) i := by
  obtain ⟨v, hv, hint⟩ := Numeral.toInt?_ofInt (by omega : Int64.minValue.toInt ≤ i)
    (by omega : i < UInt64.size)
  show Decoder.integer name low high (.number (.ofInt i)) = _
  simp only [Decoder.integer, hv, orFault, bind, Except.bind, hint, hi, and_self, if_true]

theorem int32 (i : Int32) : Reads Decoder.int32 (.int i.toInt) i := by
  have bounds : Int32.minValue.toInt ≤ i.toInt ∧ i.toInt ≤ Int32.maxValue.toInt :=
    ⟨Int32.minValue_le_toInt i, Int32.toInt_le i⟩
  have read := integer "i32" (by decide) (by decide) bounds
  unfold Reads Decoder.int32 at *
  rw [read]
  simp [Except.map]

theorem index {i : Nat} (hi : i < UInt64.size) : Reads Decoder.index (.int i) i := by
  have bounds : 0 ≤ (i : Int) ∧ (i : Int) ≤ UInt64.size - 1 := by omega
  have read := integer "usize" (by decide) (by decide) bounds
  unfold Reads Decoder.index at *
  rw [read]
  rfl

theorem choice {words : List String} {ofWord? : String → Option α} {s : String}
    (h : ofWord? s = some a) : Reads (Decoder.choice words ofWord?) (.text s) a := by
  show Decoder.choice words ofWord? (.text (.ok s)) = .ok a
  simp only [Decoder.choice, orFault, bind, Except.bind, h]

theorem option (h : Reads dec d a) (hd : d.value ≠ .null) : Reads (Decoder.option dec) d a := by
  unfold Reads Decoder.option at *
  split
  · contradiction
  · rw [h]
    rfl

theorem map (h : Reads dec d a) (f : α → β) : Reads (format.map f dec) d (f a) := by
  show (dec d.value).map f = _
  rw [h]
  rfl

theorem bind_pure (h : Reads dec d a) (f : α → β) :
    Reads (fun v => do let c ← dec v; pure (f c)) d (f a) := by
  show (do let c ← dec d.value; pure (f c)) = _
  rw [h]
  rfl

/-! ## Lists and maps -/

theorem items (write : α → Document) (xs : List α) (h : ∀ x ∈ xs, Reads dec (write x) x)
    (done : Array α) :
    Decoder.items dec done (Document.values (xs.map write)) = .ok (done ++ xs.toArray) := by
  induction xs generalizing done with
  | nil => simp [Decoder.items, Document.values]
  | cons x xs ih =>
    have first : dec (write x).value = .ok x := h x (by simp)
    have later := ih (fun y hy => h y (by simp [hy])) (done.push x)
    rw [List.map_cons, Document.values, Decoder.items, first]
    show Decoder.items dec (done.push x) _ = _
    simp [later]

theorem array (write : α → Document) (xs : Array α) (h : ∀ x ∈ xs, Reads dec (write x) x) :
    Reads (Decoder.array dec) (.list (xs.toList.map write)) xs := by
  have all := items write xs.toList (fun x hx => h x (by simpa using hx)) #[]
  rw [Reads, Document.value, Decoder.array, all]
  simp [endingResult, orFault]
  rfl

theorem vector {n : Nat} (write : α → Document) (xs : Vector α n)
    (h : ∀ x ∈ xs, Reads dec (write x) x) :
    Reads (Decoder.vector n dec) (.list (xs.toList.map write)) xs := by
  have all := items write xs.toList (fun x hx => h x (by simpa using hx)) #[]
  have length := length_values_vector write xs
  rw [Reads, Document.value, Decoder.vector, List.take_of_length_le length.le, all]
  simp [length, endingResult, orFault, bind, Except.bind]
  rfl

theorem entries (write : α → Document) (es : List (String × α))
    (h : ∀ e ∈ es, Reads dec (write e.2) e.2) (done : List (String × α)) :
    Decoder.entries dec done (Document.fieldValues (es.map fun (name, x) => (name, write x))) =
      .ok (done.reverse ++ es) := by
  induction es generalizing done with
  | nil => simp [Decoder.entries, Document.fieldValues]
  | cons e es ih =>
    obtain ⟨name, x⟩ := e
    have first : dec (write x).value = .ok x := h (name, x) (by simp)
    have later := ih (fun y hy => h y (by simp [hy])) ((name, x) :: done)
    rw [List.map_cons, Document.fieldValues, Decoder.entries, first]
    show Decoder.entries dec ((name, x) :: done) _ = _
    simp [later]

theorem texts (es : List (String × String)) :
    Reads (Decoder.map Decoder.text) (.record (es.map fun (name, s) => (name, .text s))) es := by
  have all := entries Document.text es (fun e _ => text e.2) []
  rw [Reads, Document.value, Decoder.map, all]
  rfl

end Reads

/-! ## Failures -/

/-- The decoder fails at what the document is read as. -/
def Fails (dec : Decoder α) (d : Document) (e : Failure) : Prop := dec d.value = .error e

theorem decode_toJson_error {e : Failure} (h : Fails dec d e) : decode dec d.toJson = .error e := by
  have value : dec d.value = .error e := h
  simp only [decode, d.read_toJson, value]
  rfl

namespace Fails

variable {e : Failure}

theorem bind_pure (h : Fails dec d e) (f : α → β) :
    Fails (fun v => do let c ← dec v; pure (f c)) d e := by
  show (do let c ← dec d.value; pure (f c)) = _
  rw [h]
  rfl

/-- A list fails with its first item that does. -/
theorem items (write : α → Document) (xs : List α)
    (h : ∀ x ∈ xs, Reads dec (write x) x ∨ Fails dec (write x) e)
    (hbad : ∃ x ∈ xs, Fails dec (write x) e) (done : Array α) :
    Decoder.items dec done (Document.values (xs.map write)) = .error e := by
  induction xs generalizing done with
  | nil => simp at hbad
  | cons x xs ih =>
    rw [List.map_cons, Document.values, Decoder.items]
    by_cases hx : Fails dec (write x) e
    · have first : dec (write x).value = .error e := hx
      rw [first]
      rfl
    · have first : dec (write x).value = .ok x := (h x (by simp)).resolve_right hx
      obtain ⟨y, hy, hfails⟩ := hbad
      have hy : y ∈ xs := (List.mem_cons.1 hy).resolve_left fun heq => hx (heq ▸ hfails)
      rw [first]
      exact ih (fun z hz => h z (by simp [hz])) ⟨y, hy, hfails⟩ (done.push x)

theorem array (write : α → Document) (xs : Array α)
    (h : ∀ x ∈ xs, Reads dec (write x) x ∨ Fails dec (write x) e)
    (hbad : ∃ x ∈ xs, Fails dec (write x) e) :
    Fails (Decoder.array dec) (.list (xs.toList.map write)) e := by
  have all := items write xs.toList (fun x hx => h x (by simpa using hx)) (by simpa using hbad) #[]
  rw [Fails, Document.value, Decoder.array, all]
  rfl

theorem vector {n : Nat} (write : α → Document) (xs : Vector α n)
    (h : ∀ x ∈ xs, Reads dec (write x) x ∨ Fails dec (write x) e)
    (hbad : ∃ x ∈ xs, Fails dec (write x) e) :
    Fails (Decoder.vector n dec) (.list (xs.toList.map write)) e := by
  have all := items write xs.toList (fun x hx => h x (by simpa using hx)) (by simpa using hbad) #[]
  have length := length_values_vector write xs
  rw [Fails, Document.value, Decoder.vector, List.take_of_length_le length.le, all]
  rfl

end Fails

/-! ## Records -/

section

variable {shape : Shape Decoder α} {seen done : List String} {name : String}
  {f : Field Decoder α} {put : α → α} {rest fs : List (String × Document)}

/-- Putting the fields into `a` past the names in `seen` gives `b` past those in `done`. -/
def ReadsFields (shape : Shape Decoder α) (seen : List String) (a : α)
    (fs : List (String × Document)) (done : List String) (b : α) : Prop :=
  Decoder.fields shape seen a (Document.fieldValues fs) = .ok (done, b)

theorem ReadsFields.nil : ReadsFields shape seen a [] seen a := rfl

theorem ReadsFields.cons {b : α} (hname : shape.field? name = some f) (new : f.name ∉ seen)
    (store : Reads f.store d put) (later : ReadsFields shape (f.name :: seen) (put a) rest done b) :
    ReadsFields shape seen a ((name, d) :: rest) done b := by
  have put : f.store d.value = .ok put := store
  unfold ReadsFields at *
  rw [Document.fieldValues, Decoder.fields]
  simpa only [orFault, bind, Except.bind, hname, if_neg new, put] using later

/-- Putting the fields into `a` past the names in `seen` fails. -/
def FailsFields (shape : Shape Decoder α) (seen : List String) (a : α)
    (fs : List (String × Document)) (e : Failure) : Prop :=
  Decoder.fields shape seen a (Document.fieldValues fs) = .error e

theorem FailsFields.here {e : Failure} (hname : shape.field? name = some f) (new : f.name ∉ seen)
    (store : Fails f.store d e) : FailsFields shape seen a ((name, d) :: rest) e := by
  have store : f.store d.value = .error e := store
  unfold FailsFields
  rw [Document.fieldValues, Decoder.fields]
  simp only [orFault, bind, Except.bind, hname, if_neg new, store]

theorem FailsFields.later {e : Failure} (hname : shape.field? name = some f) (new : f.name ∉ seen)
    (store : Reads f.store d put) (later : FailsFields shape (f.name :: seen) (put a) rest e) :
    FailsFields shape seen a ((name, d) :: rest) e := by
  have put : f.store d.value = .ok put := store
  unfold FailsFields at *
  rw [Document.fieldValues, Decoder.fields]
  simpa only [orFault, bind, Except.bind, hname, if_neg new, put] using later

theorem Fails.record {e : Failure} (h : FailsFields shape [] shape.start fs e) :
    Fails (Decoder.record shape) (.record fs) e := by
  unfold Fails FailsFields at *
  rw [Document.value, Decoder.record, h]
  rfl

theorem Reads.record (h : ReadsFields shape [] shape.start fs done a)
    (complete : shape.missing? done = none) : Reads (Decoder.record shape) (.record fs) a := by
  unfold Reads ReadsFields at *
  rw [Document.value, Decoder.record, h]
  simp only [endingResult, orFault, bind, Except.bind, complete]
  rfl

end

end BehaviorTree.Json
