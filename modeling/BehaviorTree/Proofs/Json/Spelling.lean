import BehaviorTree.Proofs.Json.Parts

/-!
# Records in other spellings

A `Spelling` says how a field of records may be written: its names, what it says where it is
absent, and how its value may be respelled in turn. `Rewrites` is one change of how the members of a
record are written, and `Respelled` any number of them, there and back. A shape that `Speaks` a list
of spellings takes the same record out of a value and out of what it is respelled as
(`Speaks.alike`), and none out of a record with two names of one field (`Speaks.twice_ne_ok`).

Both follow from what the members of a record put into it, each in the field of its name
(`Fills`): a decoded record is the shape's first one with all of that put in (`record_eq_ok_iff`),
in whatever order.
-/

namespace BehaviorTree

/-- All names that a field goes by. -/
def Field.names {δ : Type → Type} {α : Type} (f : Field δ α) : List String := f.name :: f.aliases

theorem Field.accepts_iff {δ : Type → Type} {α : Type} {f : Field δ α} {name : String} :
    f.accepts name ↔ name ∈ f.names := by
  simp only [accepts, names, Bool.or_eq_true, decide_eq_true_eq, List.contains_iff_mem,
    List.mem_cons, @eq_comm _ name]

theorem Shape.mem_of_field? {δ : Type → Type} {α : Type} {shape : Shape δ α} {f : Field δ α}
    {name : String} (h : shape.field? name = some f) : f ∈ shape.fields ∧ name ∈ f.names := by
  have accepts := List.find?_some h
  exact ⟨List.mem_of_find?_eq_some h, Field.accepts_iff.1 accepts⟩

theorem Shape.missing?_eq_none_iff {δ : Type → Type} {α : Type} {shape : Shape δ α}
    {seen : List String} :
    shape.missing? seen = none ↔ ∀ f ∈ shape.fields, f.optional = false → f.name ∈ seen := by
  simp [missing?, List.find?_eq_none]

namespace Json

/-- A member of a record as it is written. -/
abbrev Member := ReadText × Value

/-- How a field of records may be written: under any of its names, with a value that may be written
in other ways, and not at all for the value it has if it is absent. -/
structure Spelling where
  names : List String
  absent : Option Value := none
  inside : Value → Value → Prop := Eq

/-- One change of how the members of a record are written. -/
inductive Rewrites (spellings : List Spelling) : List Member → List Member → Prop
  | permute {ms ns} (h : ms.Perm ns) : Rewrites spellings ms ns
  | rename {s name other v ms} (hs : s ∈ spellings) (hname : name ∈ s.names)
      (hother : other ∈ s.names) :
      Rewrites spellings ((.ok name, v) :: ms) ((.ok other, v) :: ms)
  | unknown {name v ms} (hname : ∀ s ∈ spellings, name ∉ s.names) (hv : v.skip = .ok ()) :
      Rewrites spellings ms ((.ok name, v) :: ms)
  | default {s name v ms} (hs : s ∈ spellings) (hname : name ∈ s.names) (hv : s.absent = some v)
      (hms : ∀ m ∈ ms, ∀ known ∈ s.names, m.1 ≠ .ok known) :
      Rewrites spellings ms ((.ok name, v) :: ms)
  | inside {s name v w ms} (hs : s ∈ spellings) (hname : name ∈ s.names) (hv : s.inside v w) :
      Rewrites spellings ((.ok name, v) :: ms) ((.ok name, w) :: ms)

/-- Values of fields in order, each written in another way. -/
inductive InOrder : List Spelling → List Value → List Value → Prop
  | nil {ss} : InOrder ss [] []
  | cons {s ss v w vs ws} (hv : s.inside v w) (hvs : InOrder ss vs ws) :
      InOrder (s :: ss) (v :: vs) (w :: ws)

/-- A record that is written in another way. -/
inductive Respelled (spellings : List Spelling) : Value → Value → Prop
  | same {v} : Respelled spellings v v
  | record {ms ns e} (h : Relation.EqvGen (Rewrites spellings) ms ns) :
      Respelled spellings (.record ms e) (.record ns e)
  | list {vs ws e} (h : InOrder spellings vs ws) : Respelled spellings (.list vs e) (.list ws e)

/-- Lists of related items. -/
inductive Each (r : Value → Value → Prop) : Value → Value → Prop
  | list {vs ws e} (h : List.Forall₂ r vs ws) : Each r (.list vs e) (.list ws e)

/-- A record with two members for one field. -/
def Twice (spellings : List Spelling) : Value → Prop
  | .record ms _ => ∃ s ∈ spellings, ∃ name ∈ s.names, ∃ other ∈ s.names, ∃ v w,
      [(.ok name, v), (.ok other, w)].Sublist ms
  | _ => False

/-! ## Values that decode alike -/

variable {α β : Type} {shape : Shape Decoder α} {spellings : List Spelling} {s : Spelling}
  {f : Field Decoder α} {name : String} {v w : Value} {ms ns : List Member}
  {ending : Option Fault} {a b : α} {ps qs : List (String × (α → α))}

/-- What a decoder takes out of one value, it takes out of the other. -/
def Alike (dec : Decoder β) (v w : Value) : Prop := ∀ b, dec v = .ok b ↔ dec w = .ok b

theorem map_eq_ok_iff {dec : Decoder α} {f : α → β} {b : β} :
    format.map f dec v = .ok b ↔ ∃ a, dec v = .ok a ∧ f a = b := by
  show (dec v).map f = .ok b ↔ _
  cases dec v <;> simp [Except.map]

namespace Alike

variable {dec : Decoder β}

theorem refl (v : Value) : Alike dec v v := fun _ => .rfl

theorem symm (h : Alike dec v w) : Alike dec w v := fun b => (h b).symm

theorem trans {u : Value} (h : Alike dec u v) (h' : Alike dec v w) : Alike dec u w :=
  fun b => (h b).trans (h' b)

theorem map {γ : Type} (h : Alike dec v w) (f : β → γ) : Alike (format.map f dec) v w := by
  intro c
  rw [map_eq_ok_iff, map_eq_ok_iff]
  exact exists_congr fun b => and_congr_left' (h b)

theorem items {vs ws : List Value} (h : List.Forall₂ (Alike dec) vs ws) (done xs : Array β) :
    Decoder.items dec done vs = .ok xs ↔ Decoder.items dec done ws = .ok xs := by
  induction h generalizing done with
  | nil => rfl
  | @cons v w vs ws first _ ih =>
    rw [Decoder.items, Decoder.items]
    constructor <;> intro h <;> obtain ⟨x, hx, h⟩ := bind_ok h
    · rw [(first x).1 hx]
      exact (ih _).1 h
    · rw [(first x).2 hx]
      exact (ih _).2 h

theorem array (h : Each (Alike dec) v w) : Alike (Decoder.array dec) v w := by
  obtain ⟨hitems⟩ := h
  intro xs
  rw [Decoder.array, Decoder.array]
  constructor <;> intro h <;> obtain ⟨ys, hys, h⟩ := bind_ok h
  · rw [(items hitems #[] ys).1 hys]
    exact h
  · rw [(items hitems #[] ys).2 hys]
    exact h

end Alike

theorem Each.imp {r r' : Value → Value → Prop} (h : ∀ v w, r v w → r' v w) (he : Each r v w) :
    Each r' v w := by
  obtain ⟨hitems⟩ := he
  exact .list (hitems.imp h)

/-! ## What members put into a record -/

/-- What members put into a record, with the name of the field for each. Members of no field are
skipped. -/
inductive Fills (shape : Shape Decoder α) : List Member → List (String × (α → α)) → Prop
  | nil : Fills shape [] []
  | field {key v ms ps f put} : shape.field? key = some f → f.store v = .ok put →
      Fills shape ms ps → Fills shape ((.ok key, v) :: ms) ((f.name, put) :: ps)
  | unknown {key v ms ps} : shape.field? key = none → v.skip = .ok () → Fills shape ms ps →
      Fills shape ((.ok key, v) :: ms) ps

/-- A record with all of this put in. -/
def putAll (ps : List (String × (α → α))) (a : α) : α := ps.foldl (fun a p => p.2 a) a

@[simp] theorem putAll_cons {p : String × (α → α)} : putAll (p :: ps) a = putAll ps (p.2 a) := rfl

theorem Fills.fields {seen : List String} (h : Fills shape ms ps)
    (hnew : ((ps.map (·.1)).reverse ++ seen).Nodup) :
    Decoder.fields shape seen a ms = .ok ((ps.map (·.1)).reverse ++ seen, putAll ps a) := by
  induction h generalizing seen a with
  | nil => rfl
  | @field key v ms ps f put hf hput _ ih =>
    have hnew : ((ps.map (·.1)).reverse ++ f.name :: seen).Nodup := by simpa using hnew
    have new : f.name ∉ seen := (List.nodup_cons.1 hnew.of_append_right).1
    simp only [Decoder.fields, orFault, bind, Except.bind, hf, if_neg new, hput]
    simpa using ih hnew
  | unknown hnone hskip _ ih =>
    simp only [Decoder.fields, orFault, bind, Except.bind, hnone, hskip]
    exact ih hnew

theorem fills_of_fields {seen done : List String} (hseen : seen.Nodup)
    (h : Decoder.fields shape seen a ms = .ok (done, b)) :
    ∃ ps, Fills shape ms ps ∧ done = (ps.map (·.1)).reverse ++ seen ∧ done.Nodup ∧
      b = putAll ps a := by
  induction ms generalizing seen a with
  | nil =>
    cases h
    exact ⟨[], .nil, rfl, hseen, rfl⟩
  | cons m ms ih =>
    obtain ⟨_, v⟩ := m
    obtain ⟨key, rfl, ⟨f, put, hf, new, hput, later⟩ | ⟨hnone, hskip, later⟩⟩ := fields_cons_ok h
    · obtain ⟨ps, hfills, rfl, hdone, rfl⟩ := ih (List.nodup_cons.2 ⟨new, hseen⟩) later
      exact ⟨(f.name, put) :: ps, .field hf hput hfills, by simp, hdone, rfl⟩
    · obtain ⟨ps, hfills, rest⟩ := ih hseen later
      exact ⟨ps, .unknown hnone hskip hfills, rest⟩

/-- A record is decoded if its members fill its fields, none twice, and all that must be there. -/
theorem record_eq_ok_iff :
    Decoder.record shape (.record ms ending) = .ok a ↔
      ending = none ∧ ∃ ps, Fills shape ms ps ∧ (ps.map (·.1)).Nodup ∧
        (∀ f ∈ shape.fields, f.optional = false → f.name ∈ ps.map (·.1)) ∧
        a = putAll ps shape.start := by
  constructor
  · intro h
    obtain ⟨⟨done, b⟩, hfields, h⟩ := bind_ok h
    obtain ⟨_, hending, h⟩ := bind_ok h
    obtain ⟨ps, hfills, hdone, hnodup, rfl⟩ := fills_of_fields .nil hfields
    rw [List.append_nil] at hdone
    subst hdone
    split at h
    · cases h
    · next hmissing =>
      cases h
      refine ⟨?_, ps, hfills, by simpa using hnodup, ?_, rfl⟩
      · cases ending with
        | none => rfl
        | some e => exact absurd (orFault_ok hending) nofun
      · simpa using Shape.missing?_eq_none_iff.1 hmissing
  · rintro ⟨rfl, ps, hfills, hnodup, hall, rfl⟩
    have hfields : Decoder.fields shape [] shape.start ms =
        .ok ((ps.map (·.1)).reverse ++ [], putAll ps shape.start) :=
      hfills.fields (by simpa using List.nodup_reverse.2 hnodup)
    have hmissing : shape.missing? ((ps.map (·.1)).reverse ++ []) = none :=
      Shape.missing?_eq_none_iff.2 (by simpa using hall)
    rw [Decoder.record, hfields]
    simp only [bind, Except.bind, endingResult, orFault, hmissing]
    rfl

/-- A member that goes by a name of a field fills it. -/
theorem Fills.head {key : String} (h : Fills shape ((.ok key, v) :: ms) ps)
    (hf : shape.field? key = some f) :
    ∃ put qs, ps = (f.name, put) :: qs ∧ f.store v = .ok put ∧ Fills shape ms qs := by
  cases h with
  | field hg hput later =>
    obtain rfl := Option.some.inj (hf.symm.trans hg)
    exact ⟨_, _, rfl, hput, later⟩
  | unknown hnone => cases hf.symm.trans hnone

/-- All that is put in comes from a member, which goes by a name of the field. -/
theorem Fills.source (h : Fills shape ms ps) {p : String × (α → α)} (hp : p ∈ ps) :
    ∃ key v f, (.ok key, v) ∈ ms ∧ shape.field? key = some f ∧ f.name = p.1 ∧
      f.store v = .ok p.2 := by
  induction h with
  | nil => cases hp
  | @field key v ms ps f put hf hput _ ih =>
    obtain rfl | hp := List.mem_cons.1 hp
    · exact ⟨key, v, f, by simp, hf, rfl, hput⟩
    · obtain ⟨key, v, f, hm, later⟩ := ih hp
      exact ⟨key, v, f, by simp [hm], later⟩
  | unknown _ _ _ ih =>
    obtain ⟨key, v, f, hm, later⟩ := ih hp
    exact ⟨key, v, f, by simp [hm], later⟩

theorem Fills.perm (h : Fills shape ms ps) (hp : ms.Perm ns) :
    ∃ qs, Fills shape ns qs ∧ ps.Perm qs := by
  induction hp generalizing ps with
  | nil => exact ⟨ps, h, .rfl⟩
  | cons m _ ih =>
    cases h with
    | field hf hput later =>
      obtain ⟨qs, hqs, hperm⟩ := ih later
      exact ⟨_, .field hf hput hqs, hperm.cons _⟩
    | unknown hnone hskip later =>
      obtain ⟨qs, hqs, hperm⟩ := ih later
      exact ⟨qs, .unknown hnone hskip hqs, hperm⟩
  | swap m n ms =>
    -- The first two members swap what they put in; one that is skipped puts nothing in.
    cases h with
    | field hf hput later =>
      cases later with
      | field hg hput' later => exact ⟨_, .field hg hput' (.field hf hput later), .swap ..⟩
      | unknown hnone hskip later => exact ⟨_, .unknown hnone hskip (.field hf hput later), .rfl⟩
    | unknown hnone hskip later =>
      cases later with
      | field hf hput later => exact ⟨_, .field hf hput (.unknown hnone hskip later), .rfl⟩
      | unknown hnone' hskip' later =>
        exact ⟨_, .unknown hnone' hskip' (.unknown hnone hskip later), .rfl⟩
  | trans _ _ ih ih' =>
    obtain ⟨qs, hqs, hperm⟩ := ih h
    obtain ⟨rs, hrs, hperm'⟩ := ih' hqs
    exact ⟨rs, hrs, hperm.trans hperm'⟩

theorem Fills.sublist (h : Fills shape ms ps) (hs : ns.Sublist ms) :
    ∃ qs, Fills shape ns qs ∧ qs.Sublist ps := by
  induction hs generalizing ps with
  | slnil => exact ⟨ps, h, .refl _⟩
  | cons m _ ih =>
    cases h with
    | field _ _ later =>
      obtain ⟨qs, hqs, hsub⟩ := ih later
      exact ⟨qs, hqs, hsub.cons _⟩
    | unknown _ _ later => exact ih later
  | cons_cons m _ ih =>
    cases h with
    | field hf hput later =>
      obtain ⟨qs, hqs, hsub⟩ := ih later
      exact ⟨_, .field hf hput hqs, hsub.cons_cons _⟩
    | unknown hnone hskip later =>
      obtain ⟨qs, hqs, hsub⟩ := ih later
      exact ⟨qs, .unknown hnone hskip hqs, hsub⟩

/-- Members that fill the same fields with the same make the same record. -/
theorem record_alike (h : ∀ ps, Fills shape ms ps ↔ Fills shape ns ps) :
    Alike (Decoder.record shape) (.record ms ending) (.record ns ending) := by
  intro a
  simp only [record_eq_ok_iff, h]

/-! ## Shapes and spellings -/

/-- A field is written as a spelling says. Its value where it is absent is that of a new record. -/
structure Follows (start : α) (f : Field Decoder α) (s : Spelling) : Prop where
  names : f.names = s.names
  absent : ∀ v, s.absent = some v → f.optional ∧ ∃ put, f.store v = .ok put ∧ put start = start
  inside : ∀ v w, s.inside v w → Alike f.store v w

/-- Two fields touch different parts of a record. -/
def Commute (f g : Field Decoder α) : Prop :=
  ∀ v w p q, f.store v = .ok p → g.store w = .ok q → ∀ a, p (q a) = q (p a)

instance : Std.Symm (@Commute α) where
  symm _ _ h v w p q hp hq a := (h w v q p hq hp a).symm

/-- The records of a shape are written as spellings say. -/
structure Speaks (shape : Shape Decoder α) (spellings : List Spelling) : Prop where
  fields : List.Forall₂ (Follows shape.start) shape.fields spellings
  apart : (spellings.flatMap (·.names)).Nodup
  commute : shape.fields.Pairwise Commute

theorem flatMap_names {start : α} {fs : List (Field Decoder α)}
    (h : List.Forall₂ (Follows start) fs spellings) :
    fs.flatMap (·.names) = spellings.flatMap (·.names) := by
  induction h with
  | nil => rfl
  | cons hf _ ih => rw [List.flatMap_cons, List.flatMap_cons, hf.names, ih]

/-! ## Records that are written as lists -/

theorem alike_inOrder {start : α} {fs : List (Field Decoder α)} {vs ws : List Value}
    (hfs : List.Forall₂ (Follows start) fs spellings) (h : InOrder spellings vs ws) (n : Nat)
    (a b : α) : Decoder.fieldsInOrder shape ending n a fs vs = .ok b ↔
      Decoder.fieldsInOrder shape ending n a fs ws = .ok b := by
  induction h generalizing fs n a with
  | nil => rfl
  | cons hv _ ih =>
    cases hfs with
    | cons hf hlater =>
      rw [Decoder.fieldsInOrder, Decoder.fieldsInOrder]
      constructor <;> intro h <;> obtain ⟨put, hput, h⟩ := bind_ok h
      · rw [(hf.inside _ _ hv put).1 hput]
        exact (ih hlater _ _).1 h
      · rw [(hf.inside _ _ hv put).2 hput]
        exact (ih hlater _ _).2 h

theorem stored_inOrder {fs : List (Field Decoder α)} {vs : List Value} {i n : Nat}
    (hf : fs[i]? = some f) (hw : vs[i]? = some w)
    (h : Decoder.fieldsInOrder shape ending n a fs vs = .ok b) : ∃ put, f.store w = .ok put := by
  induction fs generalizing i n a vs with
  | nil => cases hf
  | cons g later ih =>
    obtain ⟨v, rest, put, rfl, hput, h⟩ | ⟨rfl, -, -⟩ := fieldsInOrder_cons_ok h
    · cases i with
      | zero =>
        cases hf
        cases hw
        exact ⟨put, hput⟩
      | succ i => exact ih hf hw h
    · cases hw

/-! ## Names -/

namespace Speaks

variable (hs : Speaks shape spellings)
include hs

/-- No two fields share a name. -/
theorem eq_of_name {g : Field Decoder α} (hf : f ∈ shape.fields) (hg : g ∈ shape.fields)
    (hname : name ∈ f.names) (hname' : name ∈ g.names) : f = g := by
  by_contra hne
  have apart := hs.apart
  rw [← flatMap_names hs.fields, List.nodup_flatMap] at apart
  have : Std.Symm (Function.onFun List.Disjoint fun f : Field Decoder α => f.names) :=
    ⟨fun _ _ h => h.symm⟩
  exact apart.2.forall hf hg hne hname hname'

theorem field?_eq_some (hf : f ∈ shape.fields) (hname : name ∈ f.names) :
    shape.field? name = some f := by
  cases hg : shape.field? name with
  | none => exact absurd (Field.accepts_iff.2 hname) (List.find?_eq_none.1 hg f hf)
  | some g =>
    obtain ⟨hmem, hname'⟩ := Shape.mem_of_field? hg
    rw [hs.eq_of_name hmem hf hname' hname]

theorem field?_eq_none (h : ∀ s ∈ spellings, name ∉ s.names) : shape.field? name = none := by
  refine List.find?_eq_none.2 fun f hf accepts => ?_
  have hname : name ∈ shape.fields.flatMap (·.names) :=
    List.mem_flatMap.2 ⟨f, hf, Field.accepts_iff.1 accepts⟩
  rw [flatMap_names hs.fields] at hname
  obtain ⟨s, hmem, hname⟩ := List.mem_flatMap.1 hname
  exact h s hmem hname

/-- Every spelling is that of one field, to which all its names lead. -/
theorem field_of_mem (h : s ∈ spellings) :
    ∃ f ∈ shape.fields, Follows shape.start f s ∧ ∀ name ∈ s.names, shape.field? name = some f := by
  obtain ⟨i, hi, rfl⟩ := List.getElem_of_mem h
  have hi' : i < shape.fields.length := hs.fields.length_eq ▸ hi
  have follows : Follows shape.start shape.fields[i] spellings[i] := hs.fields.get hi' hi
  have hf := List.getElem_mem hi'
  exact ⟨_, hf, follows, fun name hname => hs.field?_eq_some hf (follows.names ▸ hname)⟩

/-! ## Changes of the members -/

theorem commute_of_fills (h : Fills shape ms ps) (hnodup : (ps.map (·.1)).Nodup)
    {p q : String × (α → α)} (hp : p ∈ ps) (hq : q ∈ ps) (a : α) : p.2 (q.2 a) = q.2 (p.2 a) := by
  by_cases same : p.1 = q.1
  · rw [List.inj_on_of_nodup_map hnodup hp hq same]
  · obtain ⟨_, v, f, -, hf, hfp, hput⟩ := h.source hp
    obtain ⟨_, w, g, -, hg, hgq, hput'⟩ := h.source hq
    have hne : f ≠ g := by
      rintro rfl
      exact same (hfp.symm.trans hgq)
    exact hs.commute.forall (Shape.mem_of_field? hf).1 (Shape.mem_of_field? hg).1 hne
      v w _ _ hput hput' a

theorem alike_permute (h : ms.Perm ns) :
    Alike (Decoder.record shape) (.record ms ending) (.record ns ending) := by
  have moved {ms ns : List Member} (h : ms.Perm ns) {a : α}
      (ha : Decoder.record shape (.record ms ending) = .ok a) :
      Decoder.record shape (.record ns ending) = .ok a := by
    obtain ⟨rfl, ps, hps, hnodup, hall, rfl⟩ := record_eq_ok_iff.1 ha
    obtain ⟨qs, hqs, hperm⟩ := hps.perm h
    have names := hperm.map (·.1)
    refine record_eq_ok_iff.2 ⟨rfl, qs, hqs, names.nodup_iff.1 hnodup,
      fun f hf required => names.mem_iff.1 (hall f hf required), ?_⟩
    -- No field is filled twice, so all that is put in goes to different parts.
    exact hperm.foldl_eq' (fun p hp q hq a => hs.commute_of_fills hps hnodup hq hp a) _
  exact fun a => ⟨moved h, moved h.symm⟩

/-- The first member may go by another name of its field and hold another spelling of its value. -/
theorem alike_head {other : String} (h : s ∈ spellings) (hname : name ∈ s.names)
    (hother : other ∈ s.names) (hv : ∀ f, Follows shape.start f s → Alike f.store v w) :
    Alike (Decoder.record shape) (.record ((.ok name, v) :: ms) ending)
      (.record ((.ok other, w) :: ms) ending) := by
  obtain ⟨f, -, follows, hfield⟩ := hs.field_of_mem h
  have swap {v w : Value} {name other : String} (hname : name ∈ s.names) (hother : other ∈ s.names)
      (hv : Alike f.store v w) {ps : List (String × (α → α))}
      (hps : Fills shape ((.ok name, v) :: ms) ps) : Fills shape ((.ok other, w) :: ms) ps := by
    obtain ⟨put, qs, rfl, hput, later⟩ := hps.head (hfield name hname)
    exact .field (hfield other hother) ((hv put).1 hput) later
  exact record_alike fun ps =>
    ⟨swap hname hother (hv f follows), swap hother hname (hv f follows).symm⟩

theorem alike_unknown (hname : ∀ s ∈ spellings, name ∉ s.names) (hv : v.skip = .ok ()) :
    Alike (Decoder.record shape) (.record ms ending) (.record ((.ok name, v) :: ms) ending) := by
  have hnone := hs.field?_eq_none hname
  refine record_alike fun ps => ⟨.unknown hnone hv, fun hps => ?_⟩
  cases hps with
  | field hf => cases hnone.symm.trans hf
  | unknown _ _ later => exact later

theorem alike_default (h : s ∈ spellings) (hname : name ∈ s.names) (hv : s.absent = some v)
    (hms : ∀ m ∈ ms, ∀ known ∈ s.names, m.1 ≠ .ok known) :
    Alike (Decoder.record shape) (.record ms ending) (.record ((.ok name, v) :: ms) ending) := by
  obtain ⟨f, hf, follows, hfield⟩ := hs.field_of_mem h
  obtain ⟨optional, put, hput, hstart⟩ := follows.absent v hv
  have only {g : Field Decoder α} (hg : g ∈ shape.fields) (same : g.name = f.name) : g = f :=
    hs.eq_of_name hg hf (List.mem_cons_self ..) (same ▸ List.mem_cons_self ..)
  -- The other members leave the field alone: none of them goes by a name of it.
  have new {ps : List (String × (α → α))} (hps : Fills shape ms ps) : f.name ∉ ps.map (·.1) := by
    intro hmem
    obtain ⟨p, hp, hpname⟩ := List.mem_map.1 hmem
    obtain ⟨key, u, g, hm, hg, hgname, -⟩ := hps.source hp
    obtain ⟨hmem, hkey⟩ := Shape.mem_of_field? hg
    obtain rfl := only hmem (hgname.trans hpname)
    exact hms _ hm key (follows.names ▸ hkey) rfl
  intro a
  rw [record_eq_ok_iff, record_eq_ok_iff]
  constructor
  · rintro ⟨hending, ps, hps, hnodup, hall, rfl⟩
    exact ⟨hending, (f.name, put) :: ps, .field (hfield name hname) hput hps,
      List.nodup_cons.2 ⟨new hps, hnodup⟩,
      fun g hg required => List.mem_cons_of_mem _ (hall g hg required), by simp [hstart]⟩
  · rintro ⟨hending, qs, hqs, hnodup, hall, rfl⟩
    obtain ⟨put', ps, rfl, hput', later⟩ := hqs.head (hfield name hname)
    obtain rfl := Except.ok.inj (hput.symm.trans hput')
    refine ⟨hending, ps, later, (List.nodup_cons.1 hnodup).2, fun g hg required => ?_,
      by simp [hstart]⟩
    refine (List.mem_cons.1 (hall g hg required)).resolve_left fun same => ?_
    rw [only hg same, optional] at required
    cases required

theorem alike_of_rewrites (h : Rewrites spellings ms ns) :
    Alike (Decoder.record shape) (.record ms ending) (.record ns ending) := by
  cases h with
  | permute h => exact hs.alike_permute h
  | rename h hname hother => exact hs.alike_head h hname hother fun _ _ => .refl _
  | unknown hname hv => exact hs.alike_unknown hname hv
  | default h hname hv hms => exact hs.alike_default h hname hv hms
  | inside h hname hv =>
    exact hs.alike_head h hname hname fun _ follows => follows.inside _ _ hv

theorem alike_of_eqvGen (h : Relation.EqvGen (Rewrites spellings) ms ns) :
    Alike (Decoder.record shape) (.record ms ending) (.record ns ending) := by
  induction h with
  | rel ms ns step => exact hs.alike_of_rewrites step
  | refl ms => exact .refl _
  | symm ms ns _ ih => exact ih.symm
  | trans ms ls ns _ _ ih ih' => exact ih.trans ih'

/-! ## Values of records -/

/-- However a record is respelled, it is decoded as the same one. -/
theorem alike (h : Respelled spellings v w) : Alike (Decoder.record shape) v w := by
  cases h with
  | same => exact .refl _
  | record h => exact hs.alike_of_eqvGen h
  | list h => exact alike_inOrder hs.fields h 0 shape.start

/-- What is written for a field of a decoded record can be stored in it. -/
theorem stored_of_part (ha : Decoder.record shape v = .ok a) {i : Nat}
    (hf : shape.fields[i]? = some f) (hw : v.part? f.name i = some w) :
    ∃ put, f.store w = .ok put := by
  have hmem := List.mem_of_getElem? hf
  cases v with
  | record ms ending =>
    obtain ⟨⟨_, w⟩, hfind, rfl⟩ := Option.map_eq_some_iff.1 hw
    obtain rfl := by simpa using List.find?_some hfind
    obtain ⟨-, ps, hps, -⟩ := record_eq_ok_iff.1 ha
    obtain ⟨qs, hqs, -⟩ := hps.sublist (List.singleton_sublist.2 (List.mem_of_find?_eq_some hfind))
    obtain ⟨put, -, -, hput, -⟩ := hqs.head (hs.field?_eq_some hmem (List.mem_cons_self ..))
    exact ⟨put, hput⟩
  | list vs ending => exact stored_inOrder hf hw ha
  | _ => cases hw

/-- A record with two members for one field is none. -/
theorem twice_ne_ok (h : Twice spellings v) : Decoder.record shape v ≠ .ok a := by
  intro ha
  cases v with
  | record ms ending =>
    obtain ⟨s, hmem, name, hname, other, hother, v, w, hsub⟩ := h
    obtain ⟨f, -, -, hfield⟩ := hs.field_of_mem hmem
    obtain ⟨-, ps, hps, hnodup, -⟩ := record_eq_ok_iff.1 ha
    obtain ⟨qs, hqs, hsub⟩ := hps.sublist hsub
    obtain ⟨_, _, rfl, -, later⟩ := hqs.head (hfield name hname)
    obtain ⟨_, _, rfl, -, -⟩ := later.head (hfield other hother)
    have hnodup := hnodup.sublist (hsub.map _)
    simp at hnodup
  | _ => exact h.elim

theorem twice_item_ne_ok (h : ∃ u ∈ v.items, Twice spellings u) {xs : Array α} :
    Decoder.array (Decoder.record shape) v ≠ .ok xs := by
  intro hxs
  obtain ⟨u, hu, htwice⟩ := h
  obtain ⟨i, hi, rfl⟩ := List.getElem_of_mem hu
  have hitems := array_ok hxs
  exact hs.twice_ne_ok htwice (hitems.get hi (hitems.length_eq ▸ hi))

end Speaks

end Json

end BehaviorTree
