import BehaviorTree.Proofs.Json.Parts
import BehaviorTree.Proofs.Memory.Table
import BehaviorTree.Stored.Blackboard

/-!
# What a loaded blackboard holds

A table that is loaded from a text holds the keys that the text lists, in order and as often as it
lists them (`Table.keys_of_decoder`, `Blackboard.tables_of_decode`); loading neither refuses nor
merges a key that is listed twice. A key that is listed once at most is handled as everywhere:
removed, it reads as absent, and set, it has one entry. Removing one that is listed again uncovers
its next entry, and setting it leaves the others (`Blackboard.decode_repeatedKeys`).
-/

namespace BehaviorTree

open Json

/-! ## Entries and tables -/

namespace Entry

variable {α : Type} {zero : α} {value : Decoder α}

theorem holds_key : Holds (shape zero value) 0 "key_hash" Decoder.int32 (·.key) where
  names := by simp [shape]
  aliases := by simp [shape]
  field := ⟨_, rfl, rfl, rfl, .of_bind rfl fun _ _ => rfl⟩
  others f hf hne := by
    simp only [shape, List.mem_cons, List.not_mem_nil, or_false] at hf
    rcases hf with rfl | rfl
    · exact absurd rfl hne
    · exact .of_bind rfl fun _ _ => rfl

end Entry

namespace Table

variable {α : Type} {zero : α} {value : Decoder α}

theorem holds_entries : Holds (shape zero value) 0 "entries"
    (Decoder.array (Decoder.record (Entry.shape zero value))) (·.entries.toArray) where
  names := by simp [shape]
  aliases := by simp [shape]
  field := ⟨_, rfl, rfl, rfl, .of_bind rfl fun _ _ => rfl⟩
  others f hf hne := by
    simp only [shape, List.mem_cons, List.not_mem_nil, or_false] at hf
    exact absurd (hf ▸ rfl) hne

/-- The key that an entry is written with. -/
def writtenKey (e : Value) : Option Key :=
  (e.part? "key_hash" 0).bind fun v => (Decoder.int32 v).toOption

/-- The keys that a table is written with, in order. -/
def writtenKeys (t : Value) : List Key :=
  ((t.part? "entries" 0).elim [] Value.items).filterMap writtenKey

theorem writtenKey_of_decoder {v : Value} {e : Entry α}
    (h : Decoder.record (Entry.shape zero value) v = .ok e) : writtenKey v = some e.key := by
  obtain ⟨u, hu, hkey⟩ := part_of_record Entry.holds_key h
  simp [writtenKey, hu, hkey, Except.toOption]

theorem keys_of_decoder {v : Value} {t : Table α} (h : decoder zero value v = .ok t) :
    t.keys = writtenKeys v := by
  obtain ⟨u, hu, hentries⟩ := part_of_record holds_entries h
  have items := array_ok hentries
  rw [writtenKeys, hu, keys, Option.elim_some]
  rw [List.toList_toArray] at items
  generalize u.items = vs at items
  generalize t.entries = es at items
  induction items with
  | nil => rfl
  | cons first _ ih => rw [List.filterMap_cons, writtenKey_of_decoder first, List.map_cons, ih]

/-- The table holds the listed keys, as often as they are listed. Only a key that is listed once at
most is absent when it has been removed, and has a single entry when it has been set. -/
structure Lists (t : Table α) (listed : List Key) : Prop where
  keys : t.keys = listed
  removed : ∀ key, (t.erase key).find? key = none ↔ listed.count key ≤ 1
  single : ∀ key value, (t.set key value).keys.count key = 1 ↔ listed.count key ≤ 1

theorem lists_of_decoder {v : Value} {t : Table α} (h : decoder zero value v = .ok t) :
    t.Lists (writtenKeys v) where
  keys := keys_of_decoder h
  removed key := by rw [find?_erase_self_iff, keys_of_decoder h]
  single key value := by
    rw [count_keys_set, keys_of_decoder h]
    omega

end Table

/-! ## Blackboards -/

namespace Blackboard

/-- The keys that a text lists in a table of a blackboard. -/
def listedKeys (text : String) (name : String) (i : Nat) : List Key :=
  ((read text).1.part? name i).elim [] Table.writtenKeys

theorem lists_of_part {text name : String} {i : Nat} {b : Blackboard} {α : Type} {zero : α}
    {value : Decoder α} {get : Blackboard → Table α}
    (hs : Holds shape i name (Table.decoder zero value) get)
    (h : Decoder.record shape (read text).1 = .ok b) : (get b).Lists (listedKeys text name i) := by
  obtain ⟨u, hu, htable⟩ := part_of_record hs h
  rw [listedKeys, hu]
  exact Table.lists_of_decoder htable

theorem holds_tables :
    Holds shape 0 "values" (Table.decoder 0 Decoder.float32) (·.values) ∧
      Holds shape 1 "bools" (Table.decoder false Decoder.bool) (·.bools) ∧
      Holds shape 2 "ints" (Table.decoder 0 Decoder.int32) (·.ints) ∧
      Holds shape 3 "vectors" (Table.decoder .zero Vec3.decoder) (·.vectors) ∧
      Holds shape 4 "entities" (Table.decoder .null Entity.decoder) (·.entities) := by
  refine ⟨?_, ?_, ?_, ?_, ?_⟩
  all_goals
    refine ⟨by simp [shape], by simp [shape], ⟨_, rfl, rfl, rfl, .of_bind rfl fun _ _ => rfl⟩, ?_⟩
    intro f hf hne
    simp only [shape, List.mem_cons, List.not_mem_nil, or_false] at hf
    obtain rfl | rfl | rfl | rfl | rfl := hf
    all_goals first | exact absurd rfl hne | exact .of_bind rfl fun _ _ => rfl

/-- **Every text that loads as a blackboard**: each of the five tables holds the keys that the text
lists in it, however often, and handles those right that are listed once at most. -/
theorem tables_of_decode {text : String} {b : Blackboard} (h : decode decoder text = .ok b) :
    b.values.Lists (listedKeys text "values" 0) ∧ b.bools.Lists (listedKeys text "bools" 1) ∧
      b.ints.Lists (listedKeys text "ints" 2) ∧ b.vectors.Lists (listedKeys text "vectors" 3) ∧
        b.entities.Lists (listedKeys text "entities" 4) := by
  have record : Decoder.record shape (read text).1 = .ok b := by
    unfold decode at h
    split at h
    obtain ⟨a, ha, h⟩ := bind_ok h
    split at h
    · split at h
      · cases h
        simp_all [decoder]
      · cases h
    · cases h
  obtain ⟨values, bools, ints, vectors, entities⟩ := holds_tables
  exact ⟨lists_of_part values record, lists_of_part bools record, lists_of_part ints record,
    lists_of_part vectors record, lists_of_part entities record⟩

/-- A text that lists key 7 twice among the truth values. -/
def repeatedKeys : String :=
  "\x7b\"values\":\x7b\"entries\":[]\x7d,\"bools\":\x7b\"entries\":["
    ++ "\x7b\"key_hash\":7,\"value\":true\x7d,\x7b\"key_hash\":7,\"value\":false\x7d"
    ++ "]\x7d,\"ints\":\x7b\"entries\":[]\x7d,\"vectors\":\x7b\"entries\":[]\x7d,"
    ++ "\"entities\":\x7b\"entries\":[]\x7d\x7d"

/-- What it loads as. -/
def repeated : Blackboard := { bools := ⟨[⟨7, true⟩, ⟨7, false⟩]⟩ }

theorem decode_repeatedKeys : decode decoder repeatedKeys = .ok repeated := by cbv

theorem tables_of_repeatedKeys : decode decoder repeatedKeys = .ok repeated ∧
    (repeated.values.Lists (listedKeys repeatedKeys "values" 0) ∧
      repeated.bools.Lists (listedKeys repeatedKeys "bools" 1) ∧
      repeated.ints.Lists (listedKeys repeatedKeys "ints" 2) ∧
      repeated.vectors.Lists (listedKeys repeatedKeys "vectors" 3) ∧
      repeated.entities.Lists (listedKeys repeatedKeys "entities" 4)) :=
  ⟨decode_repeatedKeys, tables_of_decode decode_repeatedKeys⟩

/-- The key is held twice, still has a value when it is removed, and has two entries when set. -/
theorem repeated_key_stays : decode decoder repeatedKeys = .ok repeated ∧
    ¬repeated.bools.keys.Nodup ∧ (repeated.eraseBool 7).bools.find? 7 = some false ∧
      (repeated.setBool 7 true).bools.keys.count 7 = 2 :=
  ⟨decode_repeatedKeys, by decide, by decide, by decide⟩

end Blackboard

end BehaviorTree
