import BehaviorTree.Proofs.Catalog

/-!
# Declared parameters and what mappers read

A definition declares a type and a default for each of its parameters. `ActionDefinition.complete`
puts the default in the place of a declared parameter that is absent or is no literal of its type.
A standard definition maps completed parameters like the given ones and looks at no others
(`map_complete_iff`), but for the value of `AnimatorSetInt`, which is declared to be an integer and
read as a number (`animatorSetInt_fraction`).
-/

namespace BehaviorTree

/-! ## Looking parameters up -/

namespace Params

theorem lookup_cons (name text other : String) (entries : List (String × String)) :
    ((name, text) :: entries).lookup other =
      if other = name then some text else entries.lookup other := by
  by_cases h : other = name
  · subst h
    simp
  · have hne : (other == name) = false := by simpa using h
    rw [List.lookup_cons, hne, if_neg h]

theorem lookup_insertEntry (name text other : String) (entries : List (String × String)) :
    (insertEntry name text entries).lookup other =
      if other = name then some text else entries.lookup other := by
  induction entries with
  | nil => exact lookup_cons name text other []
  | cons e rest ih =>
    obtain ⟨first, old⟩ := e
    rw [insertEntry]
    split
    · exact lookup_cons name text other _
    · split
      · next heq =>
        subst heq
        rw [lookup_cons, lookup_cons]
        split <;> rfl
      · next hne =>
        rw [lookup_cons, lookup_cons, ih]
        split
        · next hfirst => rw [if_neg (by rw [hfirst]; exact Ne.symm hne)]
        · rfl

theorem get?_insert (p : Params) (name text other : String) :
    (p.insert name text).get? other = if other = name then some text else p.get? other :=
  lookup_insertEntry name text other p.entries

end Params

/-! ## Completing parameters -/

namespace DeclaredParam

/-- Whether a text is a literal of the declared type; a name may be any text. -/
def admits (q : DeclaredParam) (text : String) : Bool :=
  match q.type with
  | .float => (Literal.number? text).isSome
  | .int => (Literal.int? text).isSome
  | .bool => (Literal.bool? text).isSome
  | .string | .enumeration | .abilityId => true

/-- The text of the parameter if there is one of the declared type, and else the default. -/
def textIn (q : DeclaredParam) (p : Params) : String :=
  ((p.get? q.name).filter q.admits).getD q.default

/-- The parameters with the default where the text is absent or not of the declared type. -/
def complete (q : DeclaredParam) (p : Params) : Params :=
  if (p.get? q.name).any q.admits then p else p.insert q.name q.default

theorem get?_complete (q : DeclaredParam) (p : Params) (name : String) :
    (q.complete p).get? name = if name = q.name then some (q.textIn p) else p.get? name := by
  unfold complete textIn
  cases h : p.get? q.name with
  | none => simp [Params.get?_insert]
  | some text =>
    cases hadmits : q.admits text with
    | true =>
      by_cases hname : name = q.name
      · simp [Option.filter, hadmits, h, hname]
      · simp [hadmits, hname]
    | false => simp [Option.filter, hadmits, Params.get?_insert]

end DeclaredParam

namespace ActionDefinition

/-- The parameters with the declared default of each that is absent or not of its type. -/
def complete (d : ActionDefinition) (p : Params) : Params :=
  d.params.foldl (fun p q => q.complete p) p

theorem get?_foldl_complete_of_notMem {qs : List DeclaredParam} {name : String}
    (h : name ∉ qs.map (·.name)) (p : Params) :
    (qs.foldl (fun p q => q.complete p) p).get? name = p.get? name := by
  induction qs generalizing p with
  | nil => rfl
  | cons q qs ih =>
    simp only [List.map_cons, List.mem_cons, not_or] at h
    rw [List.foldl_cons, ih h.2, DeclaredParam.get?_complete, if_neg h.1]

theorem get?_foldl_complete {qs : List DeclaredParam} (hqs : (qs.map (·.name)).Nodup)
    {q : DeclaredParam} (hq : q ∈ qs) (p : Params) :
    (qs.foldl (fun p q => q.complete p) p).get? q.name = some (q.textIn p) := by
  induction qs generalizing p with
  | nil => cases hq
  | cons r qs ih =>
    obtain ⟨hr, hqs⟩ := List.nodup_cons.1 hqs
    rw [List.foldl_cons]
    rcases List.mem_cons.1 hq with rfl | hq
    · rw [get?_foldl_complete_of_notMem hr, DeclaredParam.get?_complete, if_pos rfl]
    · have hne : q.name ≠ r.name := fun heq => hr (List.mem_map.2 ⟨q, hq, heq⟩)
      rw [ih hqs hq, DeclaredParam.textIn, DeclaredParam.get?_complete, if_neg hne,
        DeclaredParam.textIn]

variable {d : ActionDefinition} {name default : String} {p : Params}

/-- No two declared parameters have one name. -/
def Distinct (d : ActionDefinition) : Prop := (d.params.map (·.name)).Nodup

instance : Decidable d.Distinct := inferInstanceAs (Decidable (List.Nodup _))

/-- The definition declares a parameter of a type with a default. -/
def Declares (d : ActionDefinition) (name : String) (type : ParamType) (default : String) : Prop :=
  ∃ q ∈ d.params, q.name = name ∧ q.type = type ∧ q.default = default

instance {type : ParamType} : Decidable (d.Declares name type default) :=
  inferInstanceAs (Decidable (∃ q ∈ d.params, _))

/-- A literal of the declared type is read from completed parameters as from the given ones, with
the declared default where there is none. -/
theorem read_complete {α : Type} {read : String → Option α} {type : ParamType} {x : α}
    (hdistinct : d.Distinct) (h : d.Declares name type default)
    (htype : ∀ q : DeclaredParam, q.type = type → ∀ text, q.admits text = (read text).isSome)
    (hdefault : read default = some x) :
    (((d.complete p).get? name).bind read).getD x = ((p.get? name).bind read).getD x := by
  obtain ⟨q, hq, rfl, hqtype, rfl⟩ := h
  rw [complete, get?_foldl_complete hdistinct hq, Option.bind_some, DeclaredParam.textIn]
  cases p.get? q.name with
  | none => simp [hdefault]
  | some text =>
    have hadmits := htype q hqtype text
    cases hread : read text with
    | none => simp [Option.filter, hadmits, hread, hdefault]
    | some y => simp [Option.filter, hadmits, hread]

theorem numberD_complete {x : Float32} (hdistinct : d.Distinct)
    (h : d.Declares name .float default) (hdefault : Literal.number? default = some x) :
    (d.complete p).numberD name x = p.numberD name x :=
  read_complete hdistinct h (fun q hq text => by rw [DeclaredParam.admits, hq]) hdefault

theorem boolD_complete {x : Bool} (hdistinct : d.Distinct)
    (h : d.Declares name .bool default) (hdefault : Literal.bool? default = some x) :
    (d.complete p).boolD name x = p.boolD name x :=
  read_complete hdistinct h (fun q hq text => by rw [DeclaredParam.admits, hq]) hdefault

theorem keyD_complete (hdistinct : d.Distinct) (h : d.Declares name .string default) :
    (d.complete p).keyD name default = p.keyD name default := by
  have htext : (((d.complete p).get? name).bind some).getD default =
      ((p.get? name).bind some).getD default :=
    read_complete hdistinct h (fun q hq text => by rw [DeclaredParam.admits, hq]; rfl) rfl
  rw [Option.bind_fun_some, Option.bind_fun_some] at htext
  exact congrArg Key.ofName htext

/-- Completed parameters read as a number like the given ones if the default stands for the number
wherever the text is no integer. -/
theorem numberD_complete_integer_iff {x : Float32} (hdistinct : d.Distinct)
    (h : d.Declares name .int default) (hdefault : Literal.number? default = some x) :
    (d.complete p).numberD name x = p.numberD name x ↔
      ∀ text, p.get? name = some text → Literal.int? text = none →
        (Literal.number? text).getD x = x := by
  obtain ⟨q, hq, rfl, hqtype, rfl⟩ := h
  have hadmits (text : String) : q.admits text = (Literal.int? text).isSome := by
    rw [DeclaredParam.admits, hqtype]
  have hget := get?_foldl_complete hdistinct hq p
  rw [Params.numberD, Params.numberD, complete, hget, Option.bind_some, DeclaredParam.textIn]
  cases p.get? q.name with
  | none => simp [hdefault]
  | some text =>
    cases hint : Literal.int? text with
    | none => simp [Option.filter, hadmits, hint, hdefault, eq_comm]
    | some i => simp [Option.filter, hadmits, hint]

/-! ## Standard definitions -/

/-- The parameters that a definition declares read alike, each by its type, but an integer as a
number. -/
structure ReadsAlike (d : ActionDefinition) (p p' : Params) : Prop where
  float : ∀ name default x, d.Declares name .float default →
    Literal.number? default = some x → p'.numberD name x = p.numberD name x
  int : ∀ name default x, d.Declares name .int default →
    Literal.number? default = some x → p'.numberD name x = p.numberD name x
  bool : ∀ name default x, d.Declares name .bool default →
    Literal.bool? default = some x → p'.boolD name x = p.boolD name x
  string : ∀ name default, d.Declares name .string default →
    p'.keyD name default = p.keyD name default

theorem distinct_standard : ∀ d ∈ standard, d.Distinct := by decide

/-- A standard definition reads its declared parameters alone, with the declared defaults: so
parameters that read alike are mapped alike. -/
theorem map_eq_of_readsAlike (hd : d ∈ standard) {p p' : Params} (h : d.ReadsAlike p p') :
    d.map p' = d.map p := by
  have named (s : Slots) {k k' : Key} {x x' : Float32} (hk : k' = k) (hx : x' = x) :
      (s.setInt 1 k').setFloat 0 x' = (s.setInt 1 k).setFloat 0 x := by rw [hk, hx]
  simp only [standard, List.mem_cons, List.not_mem_nil, or_false] at hd
  rcases hd with rfl | rfl | rfl | rfl | rfl | rfl | rfl | rfl | rfl
  · exact congrArg ((Slots.ofAction wait.key).setFloat 0)
      (h.float "seconds" "0.5" 0.5 (by decide) (by decide +kernel))
  · exact named _ (h.string "state" "Idle" (by decide))
      (h.float "fade" "0.1" 0.1 (by decide) (by decide +kernel))
  · exact named _ (h.string "param" "Speed" (by decide))
      (h.float "value" "1.0" 1 (by decide) (by decide +kernel))
  · exact named _ (h.string "param" "Phase" (by decide))
      (h.int "value" "0" 0 (by decide) (by decide +kernel))
  · have hvalue := h.bool "value" "true" true (by decide) (by decide)
    exact named _ (h.string "param" "IsRunning" (by decide))
      (congrArg (fun b => if b then (1 : Float32) else 0) hvalue)
  · exact congrArg ((Slots.ofAction animatorSetTrigger.key).setInt 1)
      (h.string "param" "Fire" (by decide))
  · exact congrArg ((Slots.ofAction waitAnimEvent.key).setInt 1)
      (h.string "event" "OnRecover" (by decide))
  · have hkey := h.string "key" "" (by decide)
    have hvalue := h.float "value" "0" 0 (by decide) (by decide +kernel)
    exact congrArg₂ (fun k x => (((Slots.ofAction setBlackboard.key).withKind .setBlackboard).setInt
      0 k).setFloat 0 x) hkey hvalue
  · exact congrArg (((Slots.ofAction clearBlackboard.key).withKind .clearBlackboard).setInt 0)
      (h.string "key" "" (by decide))

/-- Parameters that agree on the declared names read alike. -/
theorem readsAlike_of_get?_eq {p p' : Params} (h : ∀ q ∈ d.params, p'.get? q.name = p.get? q.name) :
    d.ReadsAlike p p' := by
  have hget {name default : String} {type : ParamType} (hdecl : d.Declares name type default) :
      p'.get? name = p.get? name := by
    obtain ⟨q, hq, rfl, -⟩ := hdecl
    exact h q hq
  refine ⟨?_, ?_, ?_, ?_⟩
  · intro name default x hdecl _
    rw [Params.numberD, hget hdecl, Params.numberD]
  · intro name default x hdecl _
    rw [Params.numberD, hget hdecl, Params.numberD]
  · intro name default x hdecl _
    rw [Params.boolD, hget hdecl, Params.boolD]
  · intro name default hdecl
    rw [Params.keyD, Params.textD, hget hdecl, Params.keyD, Params.textD]

/-- Completed parameters read like the given ones, if those do that are declared to be integers. -/
theorem readsAlike_complete (hdistinct : d.Distinct)
    (hint : ∀ name default x, d.Declares name .int default → Literal.number? default = some x →
      (d.complete p).numberD name x = p.numberD name x) : d.ReadsAlike p (d.complete p) where
  float _ _ _ hdecl hdefault := numberD_complete hdistinct hdecl hdefault
  int := hint
  bool _ _ _ hdecl hdefault := boolD_complete hdistinct hdecl hdefault
  string _ _ hdecl := keyD_complete hdistinct hdecl

theorem setFloat_inj {s : Slots} {i : Fin 4} {x y : Float32} :
    s.setFloat i x = s.setFloat i y ↔ x = y := by
  constructor
  · intro h
    have hslot : (s.floats.set i x)[i] = (s.floats.set i y)[i] :=
      congrArg (fun t : Slots => t.floats[i]) h
    simpa using hslot
  · rintro rfl
    rfl

/-- Only one standard definition declares an integer. -/
theorem type_ne_int :
    ∀ d ∈ standard, d.name ≠ "AnimatorSetInt" → ∀ q ∈ d.params, q.type ≠ .int := by
  decide

theorem animatorSetInt_map_complete_iff (p : Params) :
    animatorSetInt.map (animatorSetInt.complete p) = animatorSetInt.map p ↔
      ∀ text, p.get? "value" = some text → Literal.int? text = none →
        (Literal.number? text).getD 0 = 0 := by
  have hkey := keyD_complete (p := p) (d := animatorSetInt) (by decide)
    (show animatorSetInt.Declares "param" .string "Phase" by decide)
  have hmap (p : Params) : animatorSetInt.map p =
      ((Slots.ofAction animatorSetInt.key).setInt 1 (p.keyD "param" "Phase")).setFloat 0
        (p.numberD "value" 0) := rfl
  rw [hmap, hmap, hkey, setFloat_inj]
  exact numberD_complete_integer_iff (by decide)
    (show animatorSetInt.Declares "value" .int "0" by decide) (by decide +kernel)

/-- **Descriptors of standard definitions**: a definition maps completed parameters, where each
declared one that is absent or no literal of its type has its declared default, like the given ones,
and parameters that it does not declare make no difference. It is not so only for a value of
`AnimatorSetInt` that is no integer and reads as a number besides 0. -/
theorem map_complete_iff {name : String} {d : ActionDefinition}
    (hd : Catalog.standard.get? name = some d) (p : Params) :
    (d.map (d.complete p) = d.map p ↔
      (name = "AnimatorSetInt" → ∀ text, p.get? "value" = some text → Literal.int? text = none →
        (Literal.number? text).getD 0 = 0)) ∧
    ∀ p', (∀ q ∈ d.params, p'.get? q.name = p.get? q.name) → d.map p' = d.map p := by
  rw [Catalog.get?_standard] at hd
  have hmem : d ∈ standard := List.mem_reverse.1 (List.mem_of_find?_eq_some hd)
  have hname : d.name = name := by simpa using List.find?_some hd
  refine ⟨?_, fun p' h => map_eq_of_readsAlike hmem (readsAlike_of_get?_eq h)⟩
  by_cases hint : name = "AnimatorSetInt"
  · subst hint
    obtain rfl : d = animatorSetInt := (Option.some.inj hd).symm
    rw [animatorSetInt_map_complete_iff]
    simp
  · have hno : ∀ name default x, d.Declares name .int default →
        Literal.number? default = some x → (d.complete p).numberD name x = p.numberD name x := by
      rintro _ _ x ⟨q, hq, -, hqtype, -⟩
      exact absurd hqtype (type_ne_int d hmem (hname ▸ hint) q hq)
    have hread := readsAlike_complete (p := p) (distinct_standard d hmem) hno
    simp [map_eq_of_readsAlike hmem hread, hint]

/-- `map_complete_iff` for a wait whose time is no number, and with a parameter that is not
declared. -/
theorem map_complete_iff_wait :
    Catalog.standard.get? "Wait" = some wait ∧
      wait.map (wait.complete (.ofList [("seconds", "soon")])) =
        wait.map (.ofList [("seconds", "soon")]) ∧
      wait.map (.ofList [("seconds", "2"), ("until", "dawn")]) =
        wait.map (.ofList [("seconds", "2")]) := by
  have hwait : Catalog.standard.get? "Wait" = some wait := by
    rw [Catalog.get?_standard]
    rfl
  have hspec := map_complete_iff hwait
  exact ⟨hwait, (hspec _).1.2 (fun h => absurd h (by decide)), (hspec _).2 _ (by decide)⟩

/-- A parameter that is no integer. -/
def fraction : Params := .ofList [("value", "1.5")]

/-- The value of `AnimatorSetInt` is declared to be an integer, with default 0, and read as a
number: 1.5 is mapped to 1.5. -/
theorem animatorSetInt_fraction :
    Catalog.standard.get? "AnimatorSetInt" = some animatorSetInt ∧
      animatorSetInt.Declares "value" .int "0" ∧ Literal.int? "1.5" = none ∧
      (animatorSetInt.map fraction).floats.get 0 = 1.5 ∧
      (animatorSetInt.map (animatorSetInt.complete fraction)).floats.get 0 = 0 ∧
      animatorSetInt.map (animatorSetInt.complete fraction) ≠ animatorSetInt.map fraction := by
  have hname : Catalog.standard.get? "AnimatorSetInt" = some animatorSetInt := by
    rw [Catalog.get?_standard]
    rfl
  have hread : (animatorSetInt.map fraction).floats.get 0 = 1.5 := by decide +kernel
  have hdefault : (animatorSetInt.map (animatorSetInt.complete fraction)).floats.get 0 = 0 := by
    decide +kernel
  refine ⟨hname, by decide, by decide, hread, hdefault, fun h => ?_⟩
  have hsame : (0 : Float32) = 1.5 := by rw [← hdefault, h, hread]
  exact absurd hsame (by decide +kernel)

end ActionDefinition

end BehaviorTree
