import BehaviorTree.Proofs.Tick.Action
import BehaviorTree.Proofs.Tick.Rules

/-!
# What evaluation does not depend on

`evaluate_relabel` compares two evaluations: with the nodes at other indices, with the records
replaced by ones that differ in their links alone, and with an observer that sees the image of what
the other sees. Status and world are the same, if the indices that repeaters count under are. So an
observer changes nothing but what it gathers (`evaluate_viewed`), and links do not matter to actions
that do not read them (`evaluate_unlinked`).
-/

namespace BehaviorTree

open Machine

/-! ## Records without links -/

namespace BakedNode

/-- Two records differ in their links alone. -/
structure SameSlots (n n' : BakedNode) : Prop where
  kind : n.kind = n'.kind
  ints : n.ints = n'.ints
  floats : n.floats = n'.floats

/-- The record without its links. -/
def unlinked (n : BakedNode) : BakedNode := { n with firstChild := noNode, nextSibling := noNode }

theorem sameSlots_unlinked (n : BakedNode) : n.unlinked.SameSlots n := ⟨rfl, rfl, rfl⟩

variable {n n' : BakedNode} (h : n.SameSlots n')
include h

theorem SameSlots.key : n.key = n'.key := by
  unfold BakedNode.key
  rw [h.ints]

theorem SameSlots.value : n.value = n'.value := by
  unfold BakedNode.value
  rw [h.floats]

theorem SameSlots.settleBy {ε : Type} (child : Nat) (status : Status) (w : World ε) :
    Behavior.settleBy n child status w = Behavior.settleBy n' child status w := by
  unfold Behavior.settleBy repeatCount
  rw [h.kind, h.ints]

end BakedNode

/-- No registered action reads the links of a record. -/
def ActionTable.IgnoresLinks {ε : Type} (actions : ActionTable ε) : Prop :=
  ∀ key action, actions.get? key = some action →
    ∀ n ctx w, action n.unlinked ctx w = action n ctx w

namespace ActionTable

variable {ε : Type} {t : ActionTable ε} {action : Action ε}

theorem ignoresLinks_empty : (empty : ActionTable ε).IgnoresLinks := forall_get?_empty

theorem IgnoresLinks.registerKey (h : t.IgnoresLinks)
    (haction : ∀ n ctx w, action n.unlinked ctx w = action n ctx w) (key : Key) :
    (t.registerKey key action).IgnoresLinks := forall_get?_registerKey h haction key

/-- The standard action reads no link. -/
theorem IgnoresLinks.registerStandard (h : t.IgnoresLinks) : t.registerStandard.IgnoresLinks :=
  h.registerKey (fun _ _ _ => rfl) _

theorem IgnoresLinks.execute (h : t.IgnoresLinks) (n : BakedNode) (key : Key)
    (ctx : ActionContext) (w : World ε) :
    t.execute key n.unlinked ctx w = t.execute key n ctx w :=
  execute_congr fun action haction => h key action haction n ctx w

end ActionTable

namespace Behavior

/-! ## Other records in a behaviour -/

section
variable (f : BakedNode → BakedNode)

mutual

/-- The behaviour with its records replaced. -/
def mapRecords : Behavior → Behavior
  | node i record bs => node i (f record) (mapAllRecords bs)

/-- The behaviours with their records replaced. -/
def mapAllRecords : List Behavior → List Behavior
  | [] => []
  | b :: bs => b.mapRecords :: mapAllRecords bs

end

theorem mapAllRecords_eq_map (bs : List Behavior) : mapAllRecords f bs = bs.map (mapRecords f) := by
  induction bs with
  | nil => rfl
  | cons b bs ih => rw [mapAllRecords, ih, List.map_cons]

theorem mapRecords_node (i : Nat) (record : BakedNode) (bs : List Behavior) :
    (node i record bs).mapRecords f = node i (f record) (bs.map (mapRecords f)) := by
  rw [mapRecords, mapAllRecords_eq_map]

end

/-- The behaviour without the links of its records. -/
def unlinked (b : Behavior) : Behavior := b.mapRecords BakedNode.unlinked

/-! ## Other indices and records in a behaviour -/

section
variable (place : Nat → Nat) (f : BakedNode → BakedNode)

mutual

/-- The behaviour with its indices and records replaced. -/
def relabel : Behavior → Behavior
  | node i record bs => node (place i) (f record) (relabelAll bs)

/-- The behaviours with their indices and records replaced. -/
def relabelAll : List Behavior → List Behavior
  | [] => []
  | b :: bs => b.relabel :: relabelAll bs

end

theorem relabelAll_eq_map (bs : List Behavior) :
    relabelAll place f bs = bs.map (relabel place f) := by
  induction bs with
  | nil => rfl
  | cons b bs ih => rw [relabelAll, ih, List.map_cons]

theorem relabel_node (i : Nat) (record : BakedNode) (bs : List Behavior) :
    (node i record bs).relabel place f = node (place i) (f record) (bs.map (relabel place f)) := by
  rw [relabel, relabelAll_eq_map]

@[simp] theorem index_relabel (b : Behavior) : (b.relabel place f).index = place b.index := by
  cases b
  rw [relabel_node]
  rfl

theorem mapRecords_eq_relabel (b : Behavior) : b.mapRecords f = b.relabel id f := by
  induction b with
  | node i record bs ih => rw [mapRecords_node, relabel_node, List.map_congr_left ih, id]

@[simp] theorem relabel_id (b : Behavior) : b.relabel id id = b := by
  induction b with
  | node i record bs ih => rw [relabel_node, List.map_congr_left ih, List.map_id', id, id]

end

mutual

/-- The indices that repeaters count under. -/
def counted : Behavior → List Nat
  | node _ record bs =>
    (if record.kind = .repeater then (bs.head?.map index).toList else []) ++ countedOfAll bs

/-- The indices that repeaters in behaviours count under. -/
def countedOfAll : List Behavior → List Nat
  | [] => []
  | b :: bs => b.counted ++ countedOfAll bs

end

theorem mem_countedOfAll {bs : List Behavior} {i : Nat} :
    i ∈ countedOfAll bs ↔ ∃ b ∈ bs, i ∈ b.counted := by
  induction bs with
  | nil => simp [countedOfAll]
  | cons b bs ih => simp [countedOfAll, ih]

/-! ## Evaluation with other indices, other records and another observer -/

variable {ε τ τ' : Type} {actions : ActionTable ε} {dt : Float32} {observe : Observer τ}
  {observe' : Observer τ'} {place : Nat → Nat} {f : BakedNode → BakedNode} {φ : τ → τ'}
  {bs : List Behavior}

/-- A result with another view of what the observer has gathered. -/
def viewed (φ : τ → τ') (r : Status × Scene ε τ) : Status × Scene ε τ' := (r.1, r.2.1, φ r.2.2)

theorem told_viewed
    (hφ : ∀ i status seen, φ (observe i status seen) = observe' (place i) status (φ seen))
    (i : Nat) (r : Status × Scene ε τ) :
    told observe' (place i) (viewed φ r) = viewed φ (told observe i r) := by
  simp only [told, viewed, hφ]

theorem evaluateWhile_relabel
    (h : ∀ b ∈ bs, ∀ w seen, (b.relabel place f).evaluate actions dt observe' (w, φ seen) =
      viewed φ (b.evaluate actions dt observe (w, seen))) (status : Status) (w : World ε)
    (seen : τ) :
    evaluateWhile actions dt observe' status (bs.map (relabel place f)) (w, φ seen) =
      viewed φ (evaluateWhile actions dt observe status bs (w, seen)) := by
  induction bs generalizing w seen with
  | nil => rfl
  | cons b bs ih =>
    rw [List.map_cons, evaluateWhile_cons, evaluateWhile_cons, h b (by simp)]
    dsimp only [viewed]
    split
    · exact ih (fun c hc => h c (List.mem_cons_of_mem _ hc)) _ _
    · rfl

theorem evaluateAll_relabel
    (h : ∀ b ∈ bs, ∀ w seen, (b.relabel place f).evaluate actions dt observe' (w, φ seen) =
      viewed φ (b.evaluate actions dt observe (w, seen))) (w : World ε) (seen : τ) :
    let rs := evaluateAll actions dt observe bs (w, seen)
    evaluateAll actions dt observe' (bs.map (relabel place f)) (w, φ seen) =
      (rs.1, rs.2.1, φ rs.2.2) := by
  induction bs generalizing w seen with
  | nil => rfl
  | cons b bs ih =>
    rw [List.map_cons, evaluateAll_cons, evaluateAll_cons, h b (by simp)]
    dsimp only [viewed]
    rw [ih fun c hc => h c (List.mem_cons_of_mem _ hc)]

/-- A node settles by a child at another index as it does by the first one, if it does not count
under the index. -/
theorem settleBy_relabel {record record' : BakedNode} (hs : record'.SameSlots record) {c : Nat}
    (hc : record.kind = .repeater → place c = c) (status : Status) (w : World ε) :
    settleBy record' (place c) status w = settleBy record c status w := by
  rw [hs.settleBy]
  by_cases hk : record.kind = .repeater
  · rw [hc hk]
  · unfold settleBy
    split <;> first | contradiction | rfl

theorem evaluate_relabel_childless {i : Nat} {record : BakedNode}
    (hs : (f record).SameSlots record) (hk : Descends record.kind ∨ record.kind = .interrupt)
    (hφ : ∀ i status seen, φ (observe i status seen) = observe' (place i) status (φ seen))
    (w : World ε) (seen : τ) :
    (node (place i) (f record) []).evaluate actions dt observe' (w, φ seen) =
      viewed φ ((node i record []).evaluate actions dt observe (w, seen)) := by
  have hk' : Descends (f record).kind ∨ (f record).kind = .interrupt := by rwa [hs.kind]
  rw [evaluate_childless _ hk', evaluate_childless _ hk, ← told_viewed hφ, hs.kind]
  rfl

/-- Evaluation does not depend on the indices and the links of the nodes, if actions do not look
at them and repeaters go on counting under the same keys. -/
theorem evaluate_relabel (hf : ∀ n, (f n).SameSlots n)
    (hactions : ∀ i n key w,
      actions.execute key (f n) ⟨place i, dt⟩ w = actions.execute key n ⟨i, dt⟩ w)
    (hφ : ∀ i status seen, φ (observe i status seen) = observe' (place i) status (φ seen))
    (b : Behavior) (hb : ∀ i ∈ b.counted, place i = i) (w : World ε) (seen : τ) :
    (b.relabel place f).evaluate actions dt observe' (w, φ seen) =
      viewed φ (b.evaluate actions dt observe (w, seen)) := by
  induction b generalizing w seen with
  | node i record bs ih =>
    have hs := hf record
    rw [counted] at hb
    have ih : ∀ b ∈ bs, ∀ w seen, (b.relabel place f).evaluate actions dt observe' (w, φ seen) =
        viewed φ (b.evaluate actions dt observe (w, seen)) := fun b hmem =>
      ih b hmem fun j hj => hb j (List.mem_append_right _ (mem_countedOfAll.2 ⟨b, hmem, hj⟩))
    rw [relabel_node]
    cases hk : record.kind with
    | selector =>
      rw [evaluate_selector _ (hs.kind.trans hk), evaluate_selector _ hk, ← told_viewed hφ,
        evaluateWhile_relabel ih]
    | sequence =>
      rw [evaluate_sequence _ (hs.kind.trans hk), evaluate_sequence _ hk, ← told_viewed hφ,
        evaluateWhile_relabel ih]
    | parallel =>
      rw [evaluate_parallel _ (hs.kind.trans hk), evaluate_parallel _ hk, ← told_viewed hφ,
        evaluateAll_relabel ih]
      rfl
    | invert | succeeder | repeater =>
      have hd : IsDecorator record.kind := by simp [hk, IsDecorator]
      have hd' : IsDecorator (f record).kind := by rwa [hs.kind]
      cases bs with
      | nil => exact evaluate_relabel_childless hs (.inl hd.descends) hφ w seen
      | cons b bs =>
        have hc : record.kind = .repeater → place b.index = b.index := fun hrep =>
          hb _ (List.mem_append_left _ (by simp [hrep]))
        rw [List.map_cons, evaluate_decorator _ hd', evaluate_decorator _ hd, ih b (by simp)]
        dsimp only
        rw [← told_viewed hφ, index_relabel, settleBy_relabel hs hc]
        rfl
    | interrupt =>
      cases bs with
      | nil => exact evaluate_relabel_childless hs (.inr hk) hφ w seen
      | cons b bs =>
        rw [List.map_cons, evaluate_interrupt _ (hs.kind.trans hk), evaluate_interrupt _ hk,
          ← told_viewed hφ, ih b (by simp), hs.key]
        dsimp only
        split <;> rfl
    | action =>
      have hkey : (f record).actionKey = record.actionKey := hs.key
      rw [evaluate_action _ (hs.kind.trans hk), evaluate_action _ hk, hactions, hkey]
      dsimp only
      rw [← told_viewed hφ]
      rfl
    | setBlackboard =>
      rw [evaluate_setBlackboard _ (hs.kind.trans hk), evaluate_setBlackboard _ hk,
        ← told_viewed hφ, hs.key, hs.value]
      rfl
    | clearBlackboard =>
      rw [evaluate_clearBlackboard _ (hs.kind.trans hk), evaluate_clearBlackboard _ hk,
        ← told_viewed hφ, hs.key]
      rfl

/-- An observer changes neither the status nor the world. -/
theorem evaluate_viewed (observe : Observer τ) (observe' : Observer τ') (φ : τ → τ')
    (hφ : ∀ i status seen, φ (observe i status seen) = observe' i status (φ seen))
    (b : Behavior) (w : World ε) (seen : τ) :
    b.evaluate actions dt observe' (w, φ seen) =
      viewed φ (b.evaluate actions dt observe (w, seen)) := by
  have h : (b.relabel id id).evaluate actions dt observe' (w, φ seen) =
      viewed φ (b.evaluate actions dt observe (w, seen)) :=
    evaluate_relabel (fun _ => ⟨rfl, rfl, rfl⟩) (fun _ _ _ _ => rfl) hφ b (fun _ _ => rfl) w seen
  rwa [relabel_id] at h

/-- Evaluation does not depend on links, if no action reads them. -/
theorem evaluate_unlinked (h : actions.IgnoresLinks) (b : Behavior) (scene : Scene ε τ) :
    b.unlinked.evaluate actions dt observe scene = b.evaluate actions dt observe scene := by
  have hview : ∀ i status (seen : τ),
      id (observe i status seen) = observe (id i) status (id seen) := fun _ _ _ => rfl
  rw [unlinked, mapRecords_eq_relabel]
  exact evaluate_relabel BakedNode.sameSlots_unlinked (fun _ n key w => h.execute n key _ w) hview b
    (fun _ _ => rfl) scene.1 scene.2

end Behavior

end BehaviorTree
