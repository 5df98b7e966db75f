import BehaviorTree.Json.Decode
import Mathlib

/-!
# What a decoded record holds

A record may be written with its fields under their names, or as a list of their values in order;
`Value.part? name i` is the value of a field either way. If the shape keeps what a decoder takes out
of that field in one part of its records (`Holds`), then in every record that is decoded that part
is what the decoder takes out of the written field (`part_of_record`).
-/

namespace BehaviorTree.Json

variable {α β γ : Type} {shape : Shape Decoder α} {name : String} {i : Nat} {dec : Decoder γ}
  {get : α → γ}

theorem bind_ok {x : Except Failure α} {f : α → Except Failure β} {b : β} (h : x >>= f = .ok b) :
    ∃ a, x = .ok a ∧ f a = .ok b := by
  cases x with
  | error e => cases h
  | ok a => exact ⟨a, rfl, h⟩

theorem orFault_ok {x : Except Fault α} {a : α} (h : orFault x = .ok a) : x = .ok a := by
  cases x with
  | error f => cases h
  | ok b => simpa [orFault] using h

theorem mismatch_ne_ok {expected : String} {v : Value} {a : α} :
    Decoder.mismatch expected v ≠ .ok a := by
  intro h
  obtain ⟨found, -, h⟩ := bind_ok h
  cases h

/-- A text gives a value if it reads as one, and only blanks are left. -/
theorem decode_eq_ok_iff {decoder : Decoder α} {text : String} {a : α} :
    decode decoder text = .ok a ↔
      decoder (read text).1 = .ok a ∧ (read text).2.map skipBlanks = some [] := by
  unfold decode
  obtain ⟨v, rest⟩ := read text
  cases hv : decoder v with
  | error e => simp [hv, bind, Except.bind]
  | ok b =>
    cases rest with
    | none => simp [hv, bind, Except.bind]
    | some rest =>
      by_cases hr : skipBlanks rest = [] <;> simp [hv, hr, bind, Except.bind, pure, Except.pure]

/-- The value under a name of a record, or at a place of a list. -/
def Value.part? (name : String) (i : Nat) : Value → Option Value
  | .record fields _ => (fields.find? (·.1 = .ok name)).map (·.2)
  | .list items _ => items[i]?
  | _ => none

/-! ## Fields of a shape -/

/-- What a field puts into a record is what the decoder takes out of its value. -/
def Stores (f : Field Decoder α) (dec : Decoder γ) (get : α → γ) : Prop :=
  ∀ v put, f.store v = .ok put → ∃ c, dec v = .ok c ∧ ∀ a, get (put a) = c

/-- A field leaves a part of the record as it is. -/
def Keeps (f : Field Decoder α) (get : α → γ) : Prop :=
  ∀ v put, f.store v = .ok put → ∀ a, get (put a) = get a

theorem Stores.of_bind {f : Field Decoder α} {put : γ → α → α}
    (hf : f.store = fun v => do let c ← dec v; pure (put c)) (h : ∀ c a, get (put c a) = c) :
    Stores f dec get := by
  intro v p hv
  rw [hf] at hv
  obtain ⟨c, hc, hp⟩ := bind_ok hv
  cases hp
  exact ⟨c, hc, h c⟩

theorem Keeps.of_bind {f : Field Decoder α} {dec : Decoder β} {put : β → α → α}
    (hf : f.store = fun v => do let c ← dec v; pure (put c)) (h : ∀ c a, get (put c a) = get a) :
    Keeps f get := by
  intro v p hv
  rw [hf] at hv
  obtain ⟨c, -, hp⟩ := bind_ok hv
  cases hp
  exact h c

/-- The shape keeps its field number `i`, which must be there and goes by one name only, in a part
of its records that no other field touches. -/
structure Holds (shape : Shape Decoder α) (i : Nat) (name : String) (dec : Decoder γ)
    (get : α → γ) : Prop where
  names : (shape.fields.map (·.name)).Nodup
  aliases : ∀ f ∈ shape.fields, f.aliases = []
  field : ∃ f, shape.fields[i]? = some f ∧ f.name = name ∧ f.optional = false ∧ Stores f dec get
  others : ∀ f ∈ shape.fields, f.name ≠ name → Keeps f get

theorem field?_some {f : Field Decoder α} {key : String} (h : shape.field? key = some f)
    (plain : ∀ f ∈ shape.fields, f.aliases = []) : f ∈ shape.fields ∧ f.name = key := by
  have hf := List.mem_of_find?_eq_some h
  have accepts := List.find?_some h
  exact ⟨hf, by simpa [Field.accepts, plain f hf] using accepts⟩

theorem field?_ne_none {f : Field Decoder α} (hf : f ∈ shape.fields) :
    shape.field? f.name ≠ none := by
  intro h
  have := List.find?_eq_none.1 h f hf
  simp [Field.accepts] at this

/-! ## Records -/

theorem fields_cons_ok {seen : List String} {a : α} {key : ReadText} {v : Value}
    {rest : List (ReadText × Value)} {r : List String × α}
    (h : Decoder.fields shape seen a ((key, v) :: rest) = .ok r) :
    ∃ k, key = .ok k ∧
      ((∃ f put, shape.field? k = some f ∧ f.name ∉ seen ∧ f.store v = .ok put ∧
          Decoder.fields shape (f.name :: seen) (put a) rest = .ok r) ∨
        (shape.field? k = none ∧ v.skip = .ok () ∧ Decoder.fields shape seen a rest = .ok r)) := by
  rw [Decoder.fields] at h
  obtain ⟨k, hk, h⟩ := bind_ok h
  refine ⟨k, orFault_ok hk, ?_⟩
  split at h
  · next f hf =>
    split at h
    · cases h
    · next new =>
      obtain ⟨put, hput, h⟩ := bind_ok h
      exact .inl ⟨f, put, hf, new, hput, h⟩
  · next none =>
    obtain ⟨_, hskip, h⟩ := bind_ok h
    exact .inr ⟨none, orFault_ok hskip, h⟩

/-- A part that is filled already stays as it is. -/
theorem Holds.kept (hs : Holds shape i name dec get) {vs : List (ReadText × Value)}
    {seen done : List String} {a b : α} (hseen : name ∈ seen)
    (h : Decoder.fields shape seen a vs = .ok (done, b)) : get b = get a := by
  induction vs generalizing seen a with
  | nil => cases h; rfl
  | cons field rest ih =>
    obtain ⟨k, -, ⟨f, put, hf, new, hput, later⟩ | ⟨-, -, later⟩⟩ := fields_cons_ok h
    · have hne : f.name ≠ name := fun h => new (h ▸ hseen)
      rw [ih (List.mem_cons_of_mem _ hseen) later,
        hs.others f (field?_some hf hs.aliases).1 hne _ put hput]
    · exact ih hseen later

/-- The part is filled from the field of its name. -/
theorem Holds.filled (hs : Holds shape i name dec get) {vs : List (ReadText × Value)}
    {seen done : List String} {a b : α} (hseen : name ∉ seen) (hdone : name ∈ done)
    (h : Decoder.fields shape seen a vs = .ok (done, b)) :
    ∃ u, (vs.find? (·.1 = .ok name)).map (·.2) = some u ∧ dec u = .ok (get b) := by
  induction vs generalizing seen a with
  | nil =>
    cases h
    contradiction
  | cons field rest ih =>
    obtain ⟨key, v⟩ := field
    obtain ⟨k, rfl, ⟨f, put, hf, new, hput, later⟩ | ⟨none, -, later⟩⟩ := fields_cons_ok h
    · obtain ⟨hmem, rfl⟩ := field?_some hf hs.aliases
      by_cases hname : f.name = name
      · obtain ⟨g, hg, hgname, -, stores⟩ := hs.field
        have same : f = g := List.inj_on_of_nodup_map hs.names hmem (List.mem_of_getElem? hg)
          (hname.trans hgname.symm)
        obtain ⟨c, hc, hfill⟩ := stores v put (same ▸ hput)
        refine ⟨v, by simp [hname], ?_⟩
        rw [hs.kept (by simp [hname]) later, hfill, hc]
      · obtain ⟨u, hu, hdec⟩ := ih (by simp [hseen, Ne.symm hname]) later
        exact ⟨u, by simpa [hname] using hu, hdec⟩
    · have hname : k ≠ name := by
        rintro rfl
        obtain ⟨g, hg, rfl, -⟩ := hs.field
        exact field?_ne_none (List.mem_of_getElem? hg) none
      obtain ⟨u, hu, hdec⟩ := ih hseen later
      exact ⟨u, by simpa [hname] using hu, hdec⟩

/-! ## Records that are written as lists -/

/-- The next field takes the next item; an optional one may also find none. -/
theorem fieldsInOrder_cons_ok {ending : Option Fault} {n : Nat} {a b : α} {f : Field Decoder α}
    {later : List (Field Decoder α)} {vs : List Value}
    (h : Decoder.fieldsInOrder shape ending n a (f :: later) vs = .ok b) :
    (∃ v rest put, vs = v :: rest ∧ f.store v = .ok put ∧
        Decoder.fieldsInOrder shape ending (n + 1) (put a) later rest = .ok b) ∨
      (vs = [] ∧ f.optional ∧ Decoder.fieldsInOrder shape ending (n + 1) a later [] = .ok b) := by
  cases vs with
  | nil =>
    rw [Decoder.fieldsInOrder] at h
    obtain ⟨-, -, h⟩ := bind_ok h
    split at h
    · next optional => exact .inr ⟨rfl, optional, h⟩
    · cases h
  | cons v rest =>
    rw [Decoder.fieldsInOrder] at h
    obtain ⟨put, hput, h⟩ := bind_ok h
    exact .inl ⟨v, rest, put, rfl, hput, h⟩

theorem keeps_inOrder {ending : Option Fault} {fs : List (Field Decoder α)}
    (hk : ∀ f ∈ fs, Keeps f get) {n : Nat} {a b : α} {vs : List Value}
    (h : Decoder.fieldsInOrder shape ending n a fs vs = .ok b) : get b = get a := by
  induction fs generalizing n a vs with
  | nil =>
    cases vs with
    | nil =>
      rw [Decoder.fieldsInOrder] at h
      obtain ⟨-, -, h⟩ := bind_ok h
      cases h
      rfl
    | cons v rest => cases h
  | cons f later ih =>
    have hlater : ∀ g ∈ later, Keeps g get := fun g hg => hk g (by simp [hg])
    obtain ⟨v, rest, put, rfl, hput, h⟩ | ⟨rfl, -, h⟩ := fieldsInOrder_cons_ok h
    · rw [ih hlater h, hk f (by simp) v put hput]
    · exact ih hlater h

theorem filled_inOrder {ending : Option Fault} {fs : List (Field Decoder α)}
    {f : Field Decoder α} (hf : fs[i]? = some f) (required : f.optional = false)
    (stores : Stores f dec get) (others : ∀ j g, fs[j]? = some g → j ≠ i → Keeps g get) {n : Nat}
    {a b : α} {vs : List Value} (h : Decoder.fieldsInOrder shape ending n a fs vs = .ok b) :
    ∃ u, vs[i]? = some u ∧ dec u = .ok (get b) := by
  induction fs generalizing i n a vs with
  | nil => cases hf
  | cons g later ih =>
    cases i with
    | zero =>
      obtain rfl : g = f := by simpa using hf
      obtain ⟨v, rest, put, rfl, hput, h⟩ | ⟨-, optional, -⟩ := fieldsInOrder_cons_ok h
      · obtain ⟨c, hc, hfill⟩ := stores v put hput
        have hlater : ∀ g ∈ later, Keeps g get := by
          intro g hg
          obtain ⟨j, hj⟩ := List.mem_iff_getElem?.1 hg
          exact others (j + 1) g hj (by omega)
        exact ⟨v, rfl, by rw [keeps_inOrder hlater h, hfill, hc]⟩
      · simp [required] at optional
    | succ i =>
      have hlater : ∀ j g, later[j]? = some g → j ≠ i → Keeps g get :=
        fun j g hj hne => others (j + 1) g hj (by omega)
      obtain ⟨v, rest, put, rfl, -, h⟩ | ⟨rfl, -, h⟩ := fieldsInOrder_cons_ok h
      · obtain ⟨u, hu, hdec⟩ := ih hf hlater h
        exact ⟨u, hu, hdec⟩
      · obtain ⟨u, hu, -⟩ := ih hf hlater h
        simp at hu

/-! ## Either way -/

theorem part_of_record (hs : Holds shape i name dec get) {v : Value} {a : α}
    (h : Decoder.record shape v = .ok a) : ∃ u, v.part? name i = some u ∧ dec u = .ok (get a) := by
  obtain ⟨f, hf, hname, required, stores⟩ := hs.field
  cases v with
  | record fields ending =>
    obtain ⟨⟨done, b⟩, hfields, h⟩ := bind_ok h
    obtain ⟨-, -, h⟩ := bind_ok h
    split at h
    · cases h
    · next complete =>
      cases h
      have hdone : name ∈ done := by
        have := List.find?_eq_none.1 complete f (List.mem_of_getElem? hf)
        simpa [required, hname] using this
      exact hs.filled (by simp) hdone hfields
  | list items ending =>
    refine filled_inOrder hf required stores (fun j g hg hne => ?_) h
    refine hs.others g (List.mem_of_getElem? hg) fun same => hne ?_
    have hj : (shape.fields.map (·.name))[j]? = some name := by simp [hg, same]
    have hi : (shape.fields.map (·.name))[i]? = some name := by simp [hf, hname]
    exact (List.getElem?_inj (List.getElem?_eq_some_iff.1 hj).1 hs.names).1 (hj.trans hi.symm)
  | _ => exact absurd h mismatch_ne_ok

/-! ## Lists -/

theorem items_ok {item : Decoder α} {done xs : Array α} {vs : List Value}
    (h : Decoder.items item done vs = .ok xs) :
    ∃ ys, xs.toList = done.toList ++ ys ∧ List.Forall₂ (fun v y => item v = .ok y) vs ys := by
  induction vs generalizing done with
  | nil =>
    cases h
    exact ⟨[], by simp, .nil⟩
  | cons v rest ih =>
    obtain ⟨y, hy, h⟩ := bind_ok h
    obtain ⟨ys, hxs, hys⟩ := ih h
    exact ⟨y :: ys, by simp [hxs], .cons hy hys⟩

/-- The items of a list, none if it is something else. -/
def Value.items : Value → List Value
  | .list vs _ => vs
  | _ => []

theorem array_ok {item : Decoder α} {v : Value} {xs : Array α}
    (h : Decoder.array item v = .ok xs) :
    List.Forall₂ (fun v x => item v = .ok x) v.items xs.toList := by
  cases v with
  | list vs ending =>
    obtain ⟨done, hdone, h⟩ := bind_ok h
    obtain ⟨-, -, h⟩ := bind_ok h
    cases h
    obtain ⟨ys, hys, hitems⟩ := items_ok hdone
    rw [hys]
    exact hitems
  | _ => exact absurd h mismatch_ne_ok

end BehaviorTree.Json
