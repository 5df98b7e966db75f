import BehaviorTree.Proofs.Bake.Meaning
import BehaviorTree.Proofs.Catalog
import BehaviorTree.Proofs.Key
import BehaviorTree.Proofs.Tick.Footprint
import BehaviorTree.Proofs.Tick.Settling

/-!
# Nodes and actions with a name

Key 0 stands for "no name": a node that clears memory then clears all of it, an interrupt never
fires, and an action cannot be registered. `named_exact` says which names have key 0, and that every
other name stands for its own key in all three places. `named_ppkttia` is a name that is taken for
none.
-/

namespace BehaviorTree

open Bake Machine

/-! ## Resolved nodes -/

namespace Bake

variable {catalog : Catalog} {node : AuthoredNode}

theorem resolveNode_clearBlackboard (hname : actionName node = "ClearBlackboard")
    (hcatalog : catalog.get? "ClearBlackboard" = some .clearBlackboard) :
    (resolveNode catalog node).1 = .clearBlackboard (node.params.keyD "key" "") := by
  have htag : NodeKind.ofControlTag? node.type = none := by
    unfold actionName at hname
    split at hname
    · next htype =>
      rw [htype]
      decide
    · rw [hname]
      decide
  rw [resolveNode, htag, hname, hcatalog]
  rfl

theorem resolveNode_interrupt (htype : node.type = "Interrupt") :
    (resolveNode catalog node).1 = .interrupt (node.params.keyD "key" "") := by
  have htag : NodeKind.ofControlTag? "Interrupt" = some .interrupt := by decide
  rw [resolveNode, htype, htag]

end Bake

/-- A node with children has a first child. -/
theorem BakedTree.exists_firstChild {t : BakedTree} {i : Nat} {n : BakedNode}
    (hn : t.get? i = some n) (h : t.children i ≠ []) : ∃ child, n.firstChild? = some child := by
  rw [children, hn, Option.bind_some] at h
  cases hchild : n.firstChild? with
  | some child => exact ⟨child, rfl⟩
  | none =>
    rw [hchild] at h
    cases hsize : t.size <;> simp [hsize, siblings] at h

/-! ## Names in all three places -/

theorem ActionTable.contains_register {ε : Type} (actions : ActionTable ε) (name : String)
    (action : Action ε) (h : Key.ofName name ≠ 0) :
    (actions.register name action).contains (Key.ofName name) = true := by
  rw [register, registerKey, if_neg h]
  simp [contains]

/-- Which names have key 0, and what every other name does: a node that clears memory removes its
key and touches no other, an interrupt with a child fires when its key does not read 0, and an
action is there once it is registered. -/
theorem named_exact :
    (∀ name, Key.ofName name = 0 ↔ name = "" ∨ ∃ units last, Text.units name = units ++ [last] ∧
      units.foldl Digest.step32 Digest.basis32 = last.toUInt32) ∧
    ∀ name, Key.ofName name ≠ 0 →
      (∀ (g : Graph) (catalog : Catalog) (r : BakeResult), bake g catalog = .ok r →
        ∀ p, (g.node p).params.textD "key" "" = name →
        ∃ i, r.tree.indexOf? (g.node p).id = some i ∧
          ∀ (ε : Type) (actions : ActionTable ε) (dt : Float32) (w : World ε),
            (actionName (g.node p) = "ClearBlackboard" →
              catalog.get? "ClearBlackboard" = some .clearBlackboard →
              Settles r.tree actions dt i w .success (w.erase (Key.ofName name)) ∧
                Touched {Key.ofName name} False w.blackboard
                  (w.erase (Key.ofName name)).blackboard) ∧
            ((g.node p).type = "Interrupt" → r.tree.children i ≠ [] →
              (w.get (Key.ofName name) != 0) = true →
              Settles r.tree actions dt i w .failure (w.set (Key.ofName name) 0))) ∧
      ∀ (ε : Type) (actions : ActionTable ε) (action : Action ε),
        (actions.register name action).contains (Key.ofName name) = true := by
  refine ⟨fun name => Key.ofName_eq_zero_iff, fun name hname => ⟨?_, ?_⟩⟩
  · intro g catalog r h p hparam
    obtain ⟨i, n, hindex, hn, hslots⟩ := Graph.exists_record_of_bake h p
    have hkey : (g.node p).params.keyD "key" "" = Key.ofName name := congrArg Key.ofName hparam
    refine ⟨i, hindex, fun ε actions dt w => ⟨fun hclear hcatalog => ⟨?_, ?_⟩, ?_⟩⟩
    · rw [resolveNode_clearBlackboard hclear hcatalog, hkey] at hslots
      have hn_key : n.key = Key.ofName name := hslots.key
      have hsettles : Settles r.tree actions dt i w .success
          (if n.key = 0 then w.clear else w.erase n.key) :=
        settles_clearBlackboard hn hslots.kind w
      rwa [hn_key, if_neg hname] at hsettles
    · exact Touched.erase (Set.mem_singleton _)
    · intro htype hchildren hw
      rw [resolveNode_interrupt htype, hkey] at hslots
      have hn_key : n.key = Key.ofName name := hslots.key
      obtain ⟨child, hchild⟩ := BakedTree.exists_firstChild hn hchildren
      rw [← hn_key] at hname hw ⊢
      exact settles_interrupt hn hslots.kind hchild hname hw
  · intro ε actions action
    exact actions.contains_register name action hname

/-- An interrupt on a key above a node that clears the key. -/
def Graph.alarmed (name : String) : Graph where
  nodes := #[
    { id := "guard", type := "Interrupt", params := .ofList [("key", name)] },
    { id := "clear", type := "ClearBlackboard", params := .ofList [("key", name)] }]
  edges := #[{ fromId := "guard", toId := "clear" }]

theorem Catalog.get?_standard_clearBlackboard :
    Catalog.standard.get? "ClearBlackboard" = some .clearBlackboard := by
  rw [get?_standard]
  rfl

/-- `named_exact` for the name "alarm" in `Graph.alarmed`: with memory in which the alarm is set,
both nodes act on its key and on no other. -/
theorem named_exact_alarm :
    let key := Key.ofName "alarm"
    let w : World Unit := ⟨(Blackboard.empty.set key 1).set 7 2, ()⟩
    key ≠ 0 ∧ ∃ r, bake (.alarmed "alarm") .standard = .ok r ∧
      (∃ i, r.tree.indexOf? "clear" = some i ∧
        Settles r.tree .empty 0.5 i w .success (w.erase key) ∧
        Touched {key} False w.blackboard (w.erase key).blackboard) ∧
      (∃ i, r.tree.indexOf? "guard" = some i ∧ r.tree.children i ≠ [] ∧
        (w.get key != 0) = true ∧ Settles r.tree .empty 0.5 i w .failure (w.set key 0)) ∧
      ((ActionTable.empty : ActionTable Unit).register "alarm" waitAction).contains key = true := by
  intro key w
  have hkey : key ≠ 0 := by decide +kernel
  obtain ⟨r, hr⟩ : ∃ r, bake (.alarmed "alarm") .standard = .ok r :=
    Graph.exists_bake_of_rank .standard (·.1) (by decide) (by decide) (by decide)
  obtain ⟨hnodes, hactions⟩ := named_exact.2 "alarm" hkey
  obtain ⟨i, hi, hclear⟩ := hnodes _ _ r hr ⟨1, by decide⟩ (by cbv)
  obtain ⟨j, hj, hguard⟩ := hnodes _ _ r hr ⟨0, by decide⟩ (by cbv)
  have hclear := (hclear Unit .empty 0.5 w).1 (by cbv) Catalog.get?_standard_clearBlackboard
  have hchildren : r.tree.children j ≠ [] :=
    Graph.children_ne_nil_of_joins hr (by decide) (p := ⟨0, by decide⟩) (c := ⟨1, by decide⟩)
      (by decide) hj
  have hset : (w.get key != 0) = true := by decide +kernel
  have hguard := (hguard Unit .empty 0.5 w).2 (by cbv) hchildren hset
  exact ⟨hkey, r, hr, ⟨i, hi, hclear⟩, ⟨j, hj, hchildren, hset, hguard⟩, hactions Unit _ _⟩

/-- A name that is not empty and yet stands for none: a node that clears its key clears memory, and
an action registered under it is not there. -/
theorem named_ppkttia :
    let w : World Unit := ⟨Blackboard.empty.set 7 2, ()⟩
    "ppkttia" ≠ "" ∧ Key.ofName "ppkttia" = 0 ∧
      (∃ r i, bake (.alarmed "ppkttia") .standard = .ok r ∧
        r.tree.indexOf? "clear" = some i ∧ Settles r.tree .empty 0.5 i w .success w.clear ∧
        w.blackboard.find? 7 = some 2 ∧ w.clear.blackboard.find? 7 = none) ∧
      ((ActionTable.empty : ActionTable Unit).register "ppkttia" waitAction).contains
        (Key.ofName "ppkttia") = false := by
  intro w
  obtain ⟨r, hr⟩ : ∃ r, bake (.alarmed "ppkttia") .standard = .ok r :=
    Graph.exists_bake_of_rank .standard (·.1) (by decide) (by decide) (by decide)
  obtain ⟨i, n, hi, hn, hslots⟩ := Graph.exists_record_of_bake hr ⟨1, by decide⟩
  rw [resolveNode_clearBlackboard (by cbv) Catalog.get?_standard_clearBlackboard] at hslots
  have hkey : n.key = 0 := by
    have hparam : ((Graph.alarmed "ppkttia").node ⟨1, by decide⟩).params.textD "key" "" =
        "ppkttia" := by cbv
    rw [hslots.key]
    exact (congrArg Key.ofName hparam).trans Key.ofName_ppkttia
  have hsettles : Settles r.tree .empty 0.5 i w .success
      (if n.key = 0 then w.clear else w.erase n.key) :=
    settles_clearBlackboard hn hslots.kind w
  rw [if_pos hkey] at hsettles
  refine ⟨by decide, Key.ofName_ppkttia, ⟨r, i, hr, hi, hsettles, by cbv, rfl⟩, ?_⟩
  rw [ActionTable.register, Key.ofName_ppkttia, ActionTable.registerKey, if_pos rfl]
  simp [ActionTable.contains, ActionTable.empty]

end BehaviorTree
