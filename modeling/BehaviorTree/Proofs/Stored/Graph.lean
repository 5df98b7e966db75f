import BehaviorTree.Proofs.Json.Decoding
import BehaviorTree.Stored.Graph.Json

/-!
# Authored graphs survive JSON

What `Graph.toJson` writes, `Graph.ofJson` reads as the same graph (`ofJson_toJson`): every text
with its escapes, every integer, names and descriptions that are left out, and parameters in their
order.
-/

namespace BehaviorTree

open Json

/-! ## Parameters -/

namespace Params

/-- An entry behind all others goes to the end. -/
theorem insertEntry_last {name text : String} {entries : List (String × String)}
    (h : ∀ e ∈ entries, e.1 < name) :
    insertEntry name text entries = entries ++ [(name, text)] := by
  induction entries with
  | nil => rfl
  | cons e rest ih =>
    have before : e.1 < name := h e (by simp)
    have later := ih fun e he => h e (by simp [he])
    rw [insertEntry, if_neg (String.lt_asymm before), if_neg (String.ne_of_lt before).symm, later,
      List.cons_append]

theorem entries_insert (p : Params) (name text : String) :
    (p.insert name text).entries = insertEntry name text p.entries := rfl

theorem ext {p q : Params} (h : p.entries = q.entries) : p = q := by
  cases p
  cases q
  cases h
  rfl

theorem entries_foldl_insert (p : Params) {entries : List (String × String)}
    (h : (p.entries ++ entries).Pairwise (·.1 < ·.1)) :
    (entries.foldl (fun p e => p.insert e.1 e.2) p).entries = p.entries ++ entries := by
  induction entries generalizing p with
  | nil => simp
  | cons e rest ih =>
    have last : (p.insert e.1 e.2).entries = p.entries ++ [e] := by
      rw [entries_insert]
      exact insertEntry_last fun d hd =>
        (List.pairwise_append.1 h).2.2 d hd e (by simp)
    rw [List.foldl_cons, ih _ (by rwa [last, List.append_assoc]), last, List.append_assoc]
    rfl

theorem ofList_entries (p : Params) : ofList p.entries = p :=
  ext (entries_foldl_insert empty p.sorted)

end Params

/-! ## Nodes, edges and graphs -/

namespace Params

/-- Parameters are put into a node as they were. -/
theorem reads_store (p : Params) :
    Reads (format.map (fun entries (n : AuthoredNode) => { n with params := ofList entries })
      format.texts) p.toDocument fun n => { n with params := p } := by
  have read := Reads.map (.texts p.entries)
    fun entries (n : AuthoredNode) => { n with params := ofList entries }
  rwa [ofList_entries] at read

end Params

namespace AuthoredNode

/-- The fields that every node has; names and descriptions come after them. -/
theorem readsFields {n : AuthoredNode} {fs : List (String × Document)} {done : List String}
    (later : ReadsFields (shape format) ["params", "order", "type", "id"]
      { n with displayName := none, description := none } fs done n) :
    ReadsFields (shape format) [] (shape format).start
      (("id", .text n.id) :: ("type", .text n.type) :: ("order", .int n.order.toInt) ::
        ("params", n.params.toDocument) :: fs) done n :=
  .cons rfl (by decide) (.map (.text n.id) _)
    (.cons rfl (by decide) (.map (.text n.type) _)
      (.cons rfl (by decide) (.map (.int32 n.order) _)
        (.cons rfl (by decide) n.params.reads_store later)))

theorem reads (n : AuthoredNode) : Reads (Decoder.record (shape format)) n.toDocument n := by
  obtain ⟨id, type, order, params, displayName, description⟩ := n
  have optional (s : String) : Reads (Decoder.option Decoder.text) (.text s) (some s) :=
    .option (.text s) nofun
  cases displayName with
  | none =>
    cases description with
    | none => exact .record (readsFields .nil) rfl
    | some d =>
      exact .record (readsFields (.cons rfl (by decide) (.map (optional d) _) .nil)) rfl
  | some s =>
    cases description with
    | none =>
      exact .record (readsFields (.cons rfl (by decide) (.map (optional s) _) .nil)) rfl
    | some d =>
      exact .record (readsFields (.cons rfl (by decide) (.map (optional s) _)
        (.cons rfl (by decide) (.map (optional d) _) .nil))) rfl

end AuthoredNode

theorem AuthoredEdge.reads (e : AuthoredEdge) :
    Reads (Decoder.record (shape format)) e.toDocument e := by
  refine .record
    (.cons rfl (by decide) (.map (.text e.fromId) _)
      (.cons rfl (by decide) (.map (.int32 e.fromPort) _)
        (.cons rfl (by decide) (.map (.text e.toId) _)
          (.cons rfl (by decide) (.map (.int32 e.toPort) _) .nil)))) rfl

namespace Graph

theorem reads (g : Graph) : Reads (decoder format) g.toDocument g := by
  have nodes := Reads.array AuthoredNode.toDocument g.nodes fun n _ => n.reads
  have edges := Reads.array AuthoredEdge.toDocument g.edges fun e _ => e.reads
  exact .record (.cons rfl (by decide) (.map nodes _)
    (.cons rfl (by decide) (.map edges _) .nil)) rfl

theorem ofJson_toJson (g : Graph) : ofJson g.toJson = .ok g :=
  decode_toJsonPretty g.reads

end Graph

end BehaviorTree
