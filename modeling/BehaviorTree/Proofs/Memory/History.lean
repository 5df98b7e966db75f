import Mathlib
import BehaviorTree.Proofs.Memory.Table

/-!
# What a blackboard remembers

A history is the calls on a blackboard, oldest first; `Blackboard.ofCalls` makes them on an empty
one. For each of the five tables the history is a list of accesses to that table alone
(`Memory.Call.access?`, `Blackboard.table_ofCalls`), so no table depends on another.

What a table should hold is said of its accesses: a value is held that was set and that nothing has
changed since (`Holds`), and a key has come in with the access before which it was last absent
(`Entered`). `Table.Reflects` says that a table is just that, with its keys in the order in which
they came in; every access keeps it (`Table.Reflects.access`). `Blackboard.ofCalls_exact` puts this
together for all five tables. In particular no key is in a table twice
(`Blackboard.single_ofCalls`).
-/

namespace BehaviorTree

namespace Memory

/-! ## Accesses to a table -/

/-- A call on one table. -/
inductive Access (α : Type)
  | get (key : Key)
  | set (key : Key) (value : α)
  | remove (key : Key)
  | clear

section
variable {α : Type}

/-- The access writes or removes the value under a key. -/
def Access.Changes (key : Key) : Access α → Prop
  | get _ => False
  | set k _ | remove k => k = key
  | clear => True

/-- The value was set under the key, and no access has changed it since. -/
def Holds (accesses : List (Access α)) (key : Key) (value : α) : Prop :=
  ∃ before after, accesses = before ++ .set key value :: after ∧ ∀ a ∈ after, ¬ a.Changes key

/-- There is a value under the key. -/
def Live (accesses : List (Access α)) (key : Key) : Prop := ∃ value, Holds accesses key value

/-- Access number `n` has brought the key in: it was absent before, and it is present ever since. -/
structure Entered (accesses : List (Access α)) (key : Key) (n : Nat) : Prop where
  lt_length : n < accesses.length
  absent : ¬ Live (accesses.take n) key
  present : ∀ m, n < m → m ≤ accesses.length → Live (accesses.take m) key

/-- The first key has come in before the second. -/
def EnteredBefore (accesses : List (Access α)) (key other : Key) : Prop :=
  ∃ n m, Entered accesses key n ∧ Entered accesses other m ∧ n < m

/-! ## One access more -/

variable {accesses : List (Access α)} {a : Access α} {key other : Key} {value : α}

theorem not_holds_nil : ¬ Holds ([] : List (Access α)) key value := by
  rintro ⟨before, after, h, -⟩
  simp at h

theorem holds_concat : Holds (accesses ++ [a]) key value ↔
    a = .set key value ∨ ¬ a.Changes key ∧ Holds accesses key value := by
  constructor
  · rintro ⟨before, after, h, hafter⟩
    cases List.eq_nil_or_concat' after with
    | inl hnil =>
      subst hnil
      obtain ⟨-, hlast⟩ := List.append_inj' h rfl
      exact .inl (List.singleton_inj.1 hlast)
    | inr hconcat =>
      obtain ⟨after', last, rfl⟩ := hconcat
      have h' : accesses ++ [a] = (before ++ .set key value :: after') ++ [last] := by
        simpa using h
      obtain ⟨haccesses, hlast⟩ := List.append_inj' h' rfl
      obtain rfl := List.singleton_inj.1 hlast
      exact .inr ⟨hafter a (by simp), before, after', haccesses,
        fun b hb => hafter b (by simp [hb])⟩
  · rintro (rfl | ⟨ha, before, after, rfl, hafter⟩)
    · exact ⟨accesses, [], rfl, by simp⟩
    · refine ⟨before, after ++ [a], by simp, fun b hb => ?_⟩
      rcases List.mem_append.1 hb with hb | hb
      · exact hafter b hb
      · rwa [List.mem_singleton.1 hb]

theorem Entered.concat {n : Nat} (h : Entered accesses key n) (hlive : Live (accesses ++ [a]) key) :
    Entered (accesses ++ [a]) key n where
  lt_length := by
    have := h.lt_length
    simp
    omega
  absent := by
    rw [List.take_append_of_le_length h.lt_length.le]
    exact h.absent
  present m hn hm := by
    rw [List.length_append, List.length_singleton] at hm
    by_cases hle : m ≤ accesses.length
    · rw [List.take_append_of_le_length hle]
      exact h.present m hn hle
    · have hm' : m = (accesses ++ [a]).length := by
        simp
        omega
      rwa [hm', List.take_length]

/-- A key comes in with the access before which it is absent and behind which it is present. -/
theorem entered_length (habsent : ¬ Live accesses key) (hlive : Live (accesses ++ [a]) key) :
    Entered (accesses ++ [a]) key accesses.length where
  lt_length := by simp
  absent := by rwa [List.take_left]
  present m hn hm := by
    have hm' : m = (accesses ++ [a]).length := by
      simp at hm ⊢
      omega
    rwa [hm', List.take_length]

theorem exists_entered (h : Live accesses key) : ∃ n, Entered accesses key n := by
  induction accesses using List.reverseRecOn with
  | nil =>
    obtain ⟨value, hvalue⟩ := h
    exact absurd hvalue not_holds_nil
  | append_singleton accesses a ih =>
    by_cases hbefore : Live accesses key
    · obtain ⟨n, hn⟩ := ih hbefore
      exact ⟨n, hn.concat h⟩
    · exact ⟨accesses.length, entered_length hbefore h⟩

theorem EnteredBefore.concat (h : EnteredBefore accesses key other)
    (hkey : Live (accesses ++ [a]) key) (hother : Live (accesses ++ [a]) other) :
    EnteredBefore (accesses ++ [a]) key other := by
  obtain ⟨n, m, hn, hm, hlt⟩ := h
  exact ⟨n, m, hn.concat hkey, hm.concat hother, hlt⟩

/-- A key that comes in now comes in last. -/
theorem enteredBefore_length (hkey : Live accesses key) (hkey' : Live (accesses ++ [a]) key)
    (habsent : ¬ Live accesses other) (hother : Live (accesses ++ [a]) other) :
    EnteredBefore (accesses ++ [a]) key other := by
  obtain ⟨n, hn⟩ := exists_entered hkey
  exact ⟨n, accesses.length, hn.concat hkey', entered_length habsent hother, hn.lt_length⟩

end

end Memory

open Memory

/-! ## Tables -/

namespace Table

variable {α : Type} {t : Table α} {accesses : List (Access α)} {key : Key}

/-- The table after an access. -/
def access (t : Table α) : Access α → Table α
  | .get _ => t
  | .set key value => t.set key value
  | .remove key => t.erase key
  | .clear => .empty

/-- The table after accesses, the first of them to an empty table. -/
def ofAccesses (accesses : List (Access α)) : Table α := accesses.foldl access empty

/-- The keys that stay are in the same order in `t'` as in `t`, and a key that is new comes last. -/
def Continues (t t' : Table α) : Prop :=
  ∃ new : Option Key, t'.keys = t.keys.filter (· ∈ t'.keys) ++ new.toList ∧
    ∀ key ∈ new, key ∉ t.keys

/-- The table has every key once, with the value that the accesses leave under it, and its keys are
in the order in which they have come in. -/
structure Reflects (t : Table α) (accesses : List (Access α)) : Prop where
  nodup : t.keys.Nodup
  find?_iff : ∀ key value, t.find? key = some value ↔ Holds accesses key value
  order : t.keys.Pairwise (EnteredBefore accesses)

theorem contains_iff : t.contains key = true ↔ key ∈ t.keys := by
  simp [contains, keys]

theorem Reflects.mem_keys_iff (h : t.Reflects accesses) : key ∈ t.keys ↔ Live accesses key := by
  rw [Table.mem_keys_iff, Option.ne_none_iff_exists']
  exact exists_congr (h.find?_iff key)

theorem Reflects.getD_of_holds (h : t.Reflects accesses) {value : α}
    (hvalue : Holds accesses key value) (zero : α) : t.getD key zero = value := by
  rw [getD, (h.find?_iff key value).2 hvalue, Option.getD_some]

theorem Reflects.getD_of_not_live (h : t.Reflects accesses) (habsent : ¬ Live accesses key)
    (zero : α) : t.getD key zero = zero := by
  have hnone : t.find? key = none := by
    rw [← h.mem_keys_iff, Table.mem_keys_iff, not_not] at habsent
    exact habsent
  rw [getD, hnone, Option.getD_none]

theorem Reflects.contains_iff (h : t.Reflects accesses) :
    t.contains key = true ↔ Live accesses key := by
  rw [Table.contains_iff, h.mem_keys_iff]

/-- Every live key counts once. -/
theorem Reflects.size_eq (h : t.Reflects accesses) :
    t.size = {key | Live accesses key}.ncard := by
  have hkeys : {key | Live accesses key} = (t.keys.toFinset : Set Key) := by
    ext key
    rw [List.coe_toFinset, Set.mem_ofPred_eq, Set.mem_ofPred_eq]
    exact h.mem_keys_iff.symm
  rw [hkeys, Set.ncard_coe_finset, List.toFinset_card_of_nodup h.nodup]
  exact (List.length_map ..).symm

theorem reflects_empty : (empty : Table α).Reflects [] where
  nodup := List.nodup_nil
  find?_iff key value := by
    constructor
    · intro h
      cases h
    · exact fun h => absurd h not_holds_nil
  order := List.Pairwise.nil

theorem nodup_access (h : t.keys.Nodup) (a : Access α) : (t.access a).keys.Nodup := by
  cases a with
  | get key => exact h
  | set key value =>
    rw [access, keys_set]
    split
    · exact h
    · next absent =>
      rw [List.nodup_append]
      refine ⟨h, List.nodup_singleton key, fun k hk k' hk' heq => absent ?_⟩
      rwa [← List.mem_singleton.1 hk', ← heq]
  | remove key =>
    rw [access, keys_erase]
    exact h.erase key
  | clear => exact List.nodup_nil

theorem find?_access (h : t.keys.Nodup) (a : Access α) (key : Key) (value : α) :
    (t.access a).find? key = some value ↔
      a = .set key value ∨ ¬ a.Changes key ∧ t.find? key = some value := by
  cases a with
  | get k => simp [access, Access.Changes]
  | set k v =>
    rw [access, find?_set]
    by_cases hk : k = key <;> simp [Access.Changes, hk]
  | remove k =>
    by_cases hk : k = key
    · subst hk
      have hgone : (t.erase k).find? k = none :=
        (find?_erase_self_iff t k).2 (List.nodup_iff_count_le_one.1 h k)
      simp [access, Access.Changes, hgone]
    · simp [access, Access.Changes, hk, find?_erase_of_ne t k key hk]
  | clear => simp [access, Access.Changes]

theorem Continues.refl (t : Table α) : t.Continues t := by
  refine ⟨none, ?_, by simp⟩
  rw [Option.toList_none, List.append_nil, List.filter_eq_self.2 (by simp)]

theorem continues_access (h : t.keys.Nodup) (a : Access α) : t.Continues (t.access a) := by
  cases a with
  | get key => exact .refl t
  | set key value =>
    rw [Continues, access, keys_set]
    split
    · exact Continues.refl t
    · next absent =>
      refine ⟨some key, ?_, by simpa using absent⟩
      have hkept : t.keys.filter (· ∈ t.keys ++ [key]) = t.keys := by
        apply List.filter_eq_self.2
        intro k hk
        simp [hk]
      rw [hkept, Option.toList_some]
  | remove key =>
    refine ⟨none, ?_, by simp⟩
    rw [access, keys_erase, Option.toList_none, List.append_nil, h.erase_eq_filter]
    apply List.filter_congr
    intro k hk
    by_cases hkey : k = key <;> simp [hk, hkey]
  | clear => exact ⟨none, by simp [access, keys, empty], by simp⟩

/-- **One access**: what the table holds stays what the accesses say. -/
theorem Reflects.access (h : t.Reflects accesses) (a : Access α) :
    (t.access a).Reflects (accesses ++ [a]) := by
  have hfind : ∀ key value, (t.access a).find? key = some value ↔
      Holds (accesses ++ [a]) key value := by
    intro key value
    rw [find?_access h.nodup, holds_concat, h.find?_iff]
  have hlive : ∀ key ∈ (t.access a).keys, Live (accesses ++ [a]) key := by
    intro key hkey
    rw [Table.mem_keys_iff, Option.ne_none_iff_exists'] at hkey
    obtain ⟨value, hvalue⟩ := hkey
    exact ⟨value, (hfind key value).1 hvalue⟩
  refine ⟨nodup_access h.nodup a, hfind, ?_⟩
  -- the keys that stay have come in as before, and a new one has come in behind all of them
  obtain ⟨new, hkeys, habsent⟩ := continues_access h.nodup a
  have hnew : ∀ key ∈ new, Live (accesses ++ [a]) key := by
    intro key hkey
    apply hlive
    rw [hkeys]
    exact List.mem_append_right _ (Option.mem_toList.2 hkey)
  have hkept : ∀ key ∈ t.keys.filter (· ∈ (t.access a).keys), Live (accesses ++ [a]) key := by
    intro key hkey
    apply hlive
    simpa using (List.mem_filter.1 hkey).2
  rw [hkeys, List.pairwise_append]
  refine ⟨?_, ?_, ?_⟩
  · apply (h.order.filter _).imp_of_mem
    intro key other hkey hother hbefore
    exact hbefore.concat (hkept key hkey) (hkept other hother)
  · cases new <;> simp
  · intro key hkey other hother
    rw [Option.mem_toList] at hother
    exact enteredBefore_length (h.mem_keys_iff.1 (List.mem_of_mem_filter hkey)) (hkept key hkey)
      (fun hlive => habsent other hother (h.mem_keys_iff.2 hlive)) (hnew other hother)

theorem reflects_ofAccesses (accesses : List (Access α)) :
    (ofAccesses accesses).Reflects accesses := by
  induction accesses using List.reverseRecOn with
  | nil => exact reflects_empty
  | append_singleton accesses a ih =>
    rw [ofAccesses, List.foldl_append]
    exact ih.access a

end Table

/-! ## Blackboards -/

namespace Memory

/-- The types of values that a blackboard has a table for. -/
inductive ValueType
  | number
  | bool
  | int
  | vector
  | entity
deriving DecidableEq

namespace ValueType

/-- The values of a type. -/
abbrev Value : ValueType → Type
  | number => Float32
  | bool => Bool
  | int => Int32
  | vector => Vec3
  | entity => Entity

/-- What a key reads that is absent. -/
def zero : (type : ValueType) → type.Value
  | number => 0
  | bool => false
  | int => 0
  | vector => .zero
  | entity => .null

end ValueType

/-- A call on a blackboard. -/
inductive Call
  | get (type : ValueType) (key : Key)
  | set (type : ValueType) (key : Key) (value : type.Value)
  | remove (type : ValueType) (key : Key)
  | clear
  | reset

/-- What a call is for one of the tables, if it is for this table at all. -/
def Call.access? (type : ValueType) : Call → Option (Access type.Value)
  | get other key => if other = type then some (.get key) else none
  | set other key value => if h : other = type then some (.set key (h ▸ value)) else none
  | remove other key => if other = type then some (.remove key) else none
  | clear => if type = .number then some .clear else none
  | reset => some .clear

end Memory

namespace Blackboard

variable (b : Blackboard)

/-- The table of a type. -/
def table : (type : ValueType) → Table type.Value
  | .number => b.values
  | .bool => b.bools
  | .int => b.ints
  | .vector => b.vectors
  | .entity => b.entities

/-- What a key reads in the table of a type. -/
def getAs : (type : ValueType) → Key → type.Value
  | .number => b.get
  | .bool => b.getBool
  | .int => b.getInt
  | .vector => b.getVec3
  | .entity => b.getEntity

/-- Puts a value into the table of its type. -/
def setAs : (type : ValueType) → Key → type.Value → Blackboard
  | .number => b.set
  | .bool => b.setBool
  | .int => b.setInt
  | .vector => b.setVec3
  | .entity => b.setEntity

/-- Removes a key from the table of a type, and tells whether it was there. -/
def removeAs : (type : ValueType) → Key → Bool × Blackboard
  | .number, key => (b.contains key, b.erase key)
  | .bool, key => (b.bools.contains key, b.eraseBool key)
  | .int, key => (b.ints.contains key, b.eraseInt key)
  | .vector, key => (b.vectors.contains key, b.eraseVec3 key)
  | .entity, key => (b.entities.contains key, b.eraseEntity key)

/-- The blackboard after a call. -/
def call : Call → Blackboard
  | .get _ _ => b
  | .set type key value => b.setAs type key value
  | .remove type key => (b.removeAs type key).2
  | .clear => b.clear
  | .reset => b.reset

/-- The blackboard after calls, the first of them on an empty one. -/
def ofCalls (calls : List Call) : Blackboard := calls.foldl call empty

theorem getAs_eq (type : ValueType) (key : Key) :
    b.getAs type key = (b.table type).getD key type.zero := by
  cases type <;> rfl

theorem removeAs_fst (type : ValueType) (key : Key) :
    (b.removeAs type key).1 = (b.table type).contains key := by
  cases type <;> rfl

/-- A call does to a table what it is for this table, and nothing where it is for another one. -/
theorem table_call (c : Call) (type : ValueType) :
    (b.call c).table type = ((c.access? type).elim (b.table type) (b.table type).access) := by
  cases c with
  | get other key =>
    by_cases h : other = type <;> simp [call, Call.access?, Table.access, h]
  | set other key value => cases other <;> cases type <;> rfl
  | remove other key => cases other <;> cases type <;> rfl
  | clear => cases type <;> rfl
  | reset => cases type <;> rfl

/-- Each table depends on the accesses to it alone. -/
theorem table_ofCalls (calls : List Call) (type : ValueType) :
    (ofCalls calls).table type = .ofAccesses (calls.filterMap (·.access? type)) := by
  induction calls using List.reverseRecOn with
  | nil => cases type <;> rfl
  | append_singleton calls c ih =>
    rw [ofCalls, List.foldl_append, List.foldl_cons, List.foldl_nil, table_call, ← ofCalls, ih,
      List.filterMap_append]
    cases h : c.access? type with
    | none => simp [h]
    | some a => simp [h, Table.ofAccesses]

theorem reflects_ofCalls (calls : List Call) (type : ValueType) :
    ((ofCalls calls).table type).Reflects (calls.filterMap (·.access? type)) := by
  rw [table_ofCalls]
  exact Table.reflects_ofAccesses _

/-- No calls put a key twice into a table. -/
theorem single_ofCalls (calls : List Call) (type : ValueType) (key : Key) :
    ((ofCalls calls).table type).Single key := by
  rw [Table.Single, Table.length_under]
  exact List.nodup_iff_count_le_one.1 (reflects_ofCalls calls type).nodup key

/-- After any calls, the table of each type reflects the accesses to it, and to it alone: reading
gives the value set last, or zero for a key that is absent; removing tells whether the key was
there. The size is the number of keys that are there among the numbers. No call changes a table
that it is not for, or the order of the keys that stay; clearing is for the numbers alone. -/
theorem ofCalls_exact (calls : List Call) :
    let b := ofCalls calls
    (∀ type, let accesses := calls.filterMap (·.access? type)
      (b.table type).Reflects accesses ∧
      ∀ key, (∀ value, Holds accesses key value → b.getAs type key = value) ∧
        (¬ Live accesses key → b.getAs type key = type.zero) ∧
        ((b.removeAs type key).1 = true ↔ Live accesses key)) ∧
    b.size = {key | Live (calls.filterMap (·.access? .number)) key}.ncard ∧
    (∀ c type, (c.access? type = none → (b.call c).table type = b.table type) ∧
      (b.table type).Continues ((b.call c).table type)) ∧
    b.clear.values = .empty ∧ ∀ type ≠ .number, b.clear.table type = b.table type := by
  intro b
  have hreflects := reflects_ofCalls calls
  refine ⟨fun type => ⟨hreflects type, fun key => ⟨?_, ?_, ?_⟩⟩, (hreflects .number).size_eq,
    fun c type => ⟨?_, ?_⟩, rfl, ?_⟩
  · intro value hvalue
    rw [getAs_eq, (hreflects type).getD_of_holds hvalue]
  · intro habsent
    rw [getAs_eq, (hreflects type).getD_of_not_live habsent]
  · rw [removeAs_fst, (hreflects type).contains_iff]
  · intro hnone
    rw [table_call, hnone, Option.elim_none]
  · rw [table_call]
    cases c.access? type with
    | none => exact .refl _
    | some a => exact Table.continues_access (hreflects type).nodup a
  · intro type htype
    have h := b.table_call .clear type
    rwa [Call.access?, if_neg htype] at h

/-- A key that is removed and set again has come in last, and one that is only set again has not. -/
example : (ofCalls [.set .number 1 0, .set .number 2 0, .set .number 3 0, .remove .number 1,
    .set .number 1 0, .set .number 2 1]).values.keys = [2, 3, 1] := by decide

end Blackboard

end BehaviorTree
