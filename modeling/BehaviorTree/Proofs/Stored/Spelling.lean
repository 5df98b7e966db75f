import BehaviorTree.Proofs.Json.Spelling
import BehaviorTree.Proofs.Stored.Graph

/-!
# Graphs in other spellings

The `spellings` of nodes, edges and graphs say how tools may write each field: its names, and what
an absent field stands for. Nodes and edges may be respelled inside a graph. All three shapes speak
them (`speaks`), so a text of a respelled graph is loaded as the same graph, and a text with two
names of one field as none (`Graph.ofJson_respelled`).
-/

namespace BehaviorTree

open Json

/-! ## Fields -/

namespace Json

variable {α β γ : Type} {f g : Field Decoder α} {start : α} {names : List String} {v : Value}

theorem Follows.required (hnames : f.names = names) : Follows start f { names } where
  names := hnames
  absent _ h := nomatch h
  inside _ _ h := h ▸ .refl _

theorem Follows.optional (hnames : f.names = names) (hoptional : f.optional)
    (hv : ∃ put, f.store v = .ok put ∧ put start = start) :
    Follows start f { names, absent := some v } where
  names := hnames
  absent w hw := by
    cases hw
    exact ⟨hoptional, hv⟩
  inside _ _ h := h ▸ .refl _

theorem Commute.of_map {dec : Decoder β} {dec' : Decoder γ} {put : β → α → α} {put' : γ → α → α}
    (hf : f.store = format.map put dec) (hg : g.store = format.map put' dec')
    (h : ∀ b c a, put b (put' c a) = put' c (put b a)) : Commute f g := by
  intro v w p q hp hq
  rw [hf] at hp
  rw [hg] at hq
  obtain ⟨b, -, rfl⟩ := map_eq_ok_iff.1 hp
  obtain ⟨c, -, rfl⟩ := map_eq_ok_iff.1 hq
  exact h b c

/-- The text holds a value of JSON, with nothing but blanks around it. -/
def IsText (text : String) (v : Value) : Prop :=
  (read text).1 = v ∧ (read text).2.map skipBlanks = some []

theorem isText_toJson (d : Document) : IsText d.toJson d.value := by
  rw [IsText, d.read_toJson]
  exact ⟨rfl, rfl⟩

end Json

/-- The number zero. -/
def zero : Value := .number { negative := false, whole := ['0'] }

/-! ## Nodes -/

namespace AuthoredNode

/-- How the fields of a node may be written. -/
def spellings : List Spelling :=
  [ { names := ["id"] }
  , { names := ["type"] }
  , { names := ["order"], absent := some zero }
  , { names := ["params"], absent := some (.record [] none) }
  , { names := ["display_name", "displayName"], absent := some .null }
  , { names := ["description"], absent := some .null } ]

theorem speaks : Speaks (shape format) spellings where
  fields :=
    .cons (.required rfl) <| .cons (.required rfl) <|
    .cons (.optional rfl rfl ⟨_, rfl, rfl⟩) <| .cons (.optional rfl rfl ⟨_, rfl, rfl⟩) <|
    .cons (.optional rfl rfl ⟨_, rfl, rfl⟩) <| .cons (.optional rfl rfl ⟨_, rfl, rfl⟩) .nil
  apart := by decide
  commute := by
    simp only [shape, List.pairwise_cons, List.mem_cons, forall_eq_or_imp, List.not_mem_nil]
    and_intros <;> first | exact .of_map rfl rfl fun _ _ _ => rfl | simp

end AuthoredNode

/-! ## Edges -/

namespace AuthoredEdge

/-- How the fields of an edge may be written. -/
def spellings : List Spelling :=
  [ { names := ["from_id", "fromId", "outNodeId"] }
  , { names := ["from_port", "fromPort", "outPortIndex"], absent := some zero }
  , { names := ["to_id", "toId", "inNodeId"] }
  , { names := ["to_port", "toPort", "inPortIndex"], absent := some zero } ]

theorem speaks : Speaks (shape format) spellings where
  fields :=
    .cons (.required rfl) <| .cons (.optional rfl rfl ⟨_, rfl, rfl⟩) <|
    .cons (.required rfl) <| .cons (.optional rfl rfl ⟨_, rfl, rfl⟩) .nil
  apart := by decide
  commute := by
    simp only [shape, List.pairwise_cons, List.mem_cons, forall_eq_or_imp, List.not_mem_nil]
    and_intros <;> first | exact .of_map rfl rfl fun _ _ _ => rfl | simp

end AuthoredEdge

/-! ## Graphs -/

namespace Graph

/-- How the fields of a graph may be written. -/
def spellings : List Spelling :=
  [ { names := ["nodes"]
      absent := some (.list [] none)
      inside := Each (Respelled AuthoredNode.spellings) }
  , { names := ["edges"]
      absent := some (.list [] none)
      inside := Each (Respelled AuthoredEdge.spellings) } ]

/-- A graph, or one of its nodes or edges, has two members for one field. -/
def Repeats (v : Value) : Prop :=
  Twice spellings v ∨
    (∃ nodes, v.part? "nodes" 0 = some nodes ∧
      ∃ n ∈ nodes.items, Twice AuthoredNode.spellings n) ∨
    ∃ edges, v.part? "edges" 1 = some edges ∧ ∃ e ∈ edges.items, Twice AuthoredEdge.spellings e

theorem speaks : Speaks (shape format) spellings where
  fields := by
    refine .cons ⟨rfl, ?_, ?_⟩ (.cons ⟨rfl, ?_, ?_⟩ .nil)
    · rintro _ ⟨⟩
      exact ⟨rfl, _, rfl, rfl⟩
    · exact fun v w h => .map (.array (h.imp fun _ _ => AuthoredNode.speaks.alike)) _
    · rintro _ ⟨⟩
      exact ⟨rfl, _, rfl, rfl⟩
    · exact fun v w h => .map (.array (h.imp fun _ _ => AuthoredEdge.speaks.alike)) _
  apart := by decide
  commute := by
    simp only [shape, List.pairwise_cons, List.mem_cons, forall_eq_or_imp, List.not_mem_nil]
    and_intros <;> first | exact .of_map rfl rfl fun _ _ _ => rfl | simp

theorem repeats_ne_ok {v : Value} {g : Graph} (h : Repeats v) : decoder format v ≠ .ok g := by
  intro hg
  obtain h | ⟨nodes, hnodes, htwice⟩ | ⟨edges, hedges, htwice⟩ := h
  · exact speaks.twice_ne_ok h hg
  · obtain ⟨put, hput⟩ := speaks.stored_of_part hg (i := 0) rfl hnodes
    obtain ⟨xs, hxs, -⟩ := map_eq_ok_iff.1 hput
    exact AuthoredNode.speaks.twice_item_ne_ok htwice hxs
  · obtain ⟨put, hput⟩ := speaks.stored_of_part hg (i := 1) rfl hedges
    obtain ⟨xs, hxs, -⟩ := map_eq_ok_iff.1 hput
    exact AuthoredEdge.speaks.twice_item_ne_ok htwice hxs

/-- However the fields of a graph, of its nodes and of its edges are written in a JSON text, the
same graph is loaded; none is from a text where one of them has two members for one field. -/
theorem ofJson_respelled :
    (∀ s g, ofJson s = .ok g → ∃ v, IsText s v ∧
      ∀ t w, IsText t w → Respelled spellings v w → ofJson t = .ok g) ∧
    ∀ s, Repeats (read s).1 → ∃ e, ofJson s = .error e := by
  constructor
  · intro s g hs
    obtain ⟨hg, hrest⟩ := decode_eq_ok_iff.1 hs
    refine ⟨(read s).1, ⟨rfl, hrest⟩, ?_⟩
    rintro t w ⟨rfl, hrest'⟩ h
    exact decode_eq_ok_iff.2 ⟨(speaks.alike h g).1 hg, hrest'⟩
  · intro s h
    cases hs : ofJson s with
    | error e => exact ⟨e, rfl⟩
    | ok g => exact absurd (decode_eq_ok_iff.1 hs).1 (repeats_ne_ok h)

/-- An action below another node, as it is stored. -/
def plain : Document :=
  .record
    [ ("nodes", .list [.record [("id", .text "a"), ("type", .text "Wait")]])
    , ("edges", .list [.record [("from_id", .text "r"), ("to_id", .text "a")]]) ]

/-- The same as another tool writes it. -/
def foreign : Document :=
  .record
    [ ("version", .int 3)
    , ("edges", .list [.record
        [("outPortIndex", .int 0), ("toId", .text "a"), ("fromId", .text "r")]])
    , ("nodes", .list [.record
        [("displayName", .null), ("id", .text "a"), ("type", .text "Wait")]]) ]

/-- An edge with two sources. -/
def forked : Document :=
  .record
    [ ("edges", .list [.record
        [("from_id", .text "r"), ("outNodeId", .text "s"), ("to_id", .text "a")]]) ]

theorem respelled_foreign : Respelled spellings plain.value foreign.value := by
  have node : Respelled AuthoredNode.spellings
      (.record [(.ok "id", .text (.ok "a")), (.ok "type", .text (.ok "Wait"))] none)
      (.record [(.ok "displayName", .null), (.ok "id", .text (.ok "a")),
        (.ok "type", .text (.ok "Wait"))] none) :=
    .record (.rel _ _ (.default (.tail _ (.tail _ (.tail _ (.tail _ (.head _))))) (by decide) rfl
      (by decide)))
  have edge : Respelled AuthoredEdge.spellings
      (.record [(.ok "from_id", .text (.ok "r")), (.ok "to_id", .text (.ok "a"))] none)
      (.record [(.ok "outPortIndex", zero), (.ok "toId", .text (.ok "a")),
        (.ok "fromId", .text (.ok "r"))] none) :=
    .record <| .trans _ _ _ (.rel _ _ (.rename (.head _) (by decide) (by decide))) <|
      .trans _ _ _ (.rel _ _ (.permute (.swap ..))) <|
      .trans _ _ _ (.rel _ _ (.rename (.tail _ (.tail _ (.head _))) (by decide) (by decide))) <|
      .rel _ _ (.default (.tail _ (.head _)) (by decide) rfl (by decide))
  exact .record <|
    .trans _ _ _ (.rel _ _ (.inside (.head _) (by decide) (.list (.cons node .nil)))) <|
    .trans _ _ _ (.rel _ _ (.permute (.swap ..))) <|
    .trans _ _ _ (.rel _ _ (.inside (.tail _ (.head _)) (by decide) (.list (.cons edge .nil)))) <|
    .rel _ _ (.unknown (by decide) rfl)

/-- `ofJson_respelled` for a graph that two tools write, and for an edge with two sources. -/
theorem ofJson_respelled_foreign :
    let g : Graph :=
      { nodes := #[{ id := "a", type := "Wait" }], edges := #[{ fromId := "r", toId := "a" }] }
    ofJson plain.toJson = .ok g ∧ ofJson foreign.toJson = .ok g ∧
      ∃ e, ofJson forked.toJson = .error e := by
  intro g
  obtain ⟨same, twice⟩ := ofJson_respelled
  have hplain : ofJson plain.toJson = .ok g := by
    have read : Reads (decoder format) plain g := rfl
    exact decode_toJson read
  refine ⟨hplain, ?_, twice _ ?_⟩
  · obtain ⟨v, ⟨rfl, -⟩, loaded⟩ := same _ g hplain
    refine loaded _ _ (isText_toJson foreign) ?_
    rw [plain.read_toJson]
    exact respelled_foreign
  · rw [forked.read_toJson]
    refine .inr (.inr ⟨_, rfl, _, .head _, ?_⟩)
    exact ⟨_, .head _, "from_id", by decide, "outNodeId", by decide, _, _,
      .cons_cons _ (.cons_cons _ (List.nil_sublist _))⟩

end Graph

end BehaviorTree
