import BehaviorTree.Proofs.Memory.Table
import BehaviorTree.Proofs.Tick.Action
import BehaviorTree.Proofs.Tick.Simulation

/-!
# What a step does to the world

A tick changes the world in few ways: an action runs, a key is set, removed, or all are. `Effect`
has one constructor for each way, with the node that it comes from. `step_effect`: every step has an
effect, by a node of the subtree that the tick walks, as long as the machine is there (`Confined`,
kept by `step_confined`). Later proofs look at effects and do not open the machine.
-/

namespace BehaviorTree

/-! ## What actions do to memory -/

namespace ActionTable

variable {ε : Type} {R : Blackboard → Blackboard → Prop} {actions : ActionTable ε}

/-- Every registered action takes memory along a relation. -/
def Keeps (actions : ActionTable ε) (R : Blackboard → Blackboard → Prop) : Prop :=
  ∀ key action, actions.get? key = some action →
    ∀ n ctx w, R w.blackboard (action n ctx w).2.blackboard

theorem keeps_empty : (empty : ActionTable ε).Keeps R := forall_get?_empty

theorem Keeps.registerKey (h : actions.Keeps R) {action : Action ε}
    (haction : ∀ n ctx w, R w.blackboard (action n ctx w).2.blackboard) (key : Key) :
    (actions.registerKey key action).Keeps R := forall_get?_registerKey h haction key

/-- An unregistered action leaves memory as it is, so the relation has to be reflexive. -/
theorem Keeps.execute (h : actions.Keeps R) (hrefl : ∀ b, R b b) (key : Key) (n : BakedNode)
    (ctx : ActionContext) (w : World ε) :
    R w.blackboard (actions.execute key n ctx w).2.blackboard := by
  cases hget : actions.get? key with
  | none =>
    rw [execute_of_get?_none hget]
    exact hrefl _
  | some action =>
    rw [execute_of_get? hget]
    exact h key action hget n ctx w

end ActionTable

namespace Machine

open Behavior

variable {ε τ : Type} {t : BakedTree} {root : Int32} {actions : ActionTable ε} {dt : Float32}
  {observe : Observer τ}

/-! ## Effects -/

section
variable (t root actions dt)

/-- The ways in which a tick from a root changes the world. -/
inductive Effect : World ε → World ε → Prop
  | unchanged (w : World ε) : Effect w w
  | acted {i : Nat} {n : BakedNode} (h : t.Below root i n) (hk : n.kind = .action) (w : World ε) :
      Effect w (actions.execute n.actionKey n ⟨i, dt⟩ w).2
  | set {i : Nat} {n : BakedNode} (h : t.Below root i n) (hk : n.kind = .setBlackboard)
      (w : World ε) : Effect w (w.set n.key n.value)
  | erased {i : Nat} {n : BakedNode} (h : t.Below root i n) (hk : n.kind = .clearBlackboard)
      (w : World ε) : Effect w (w.erase n.key)
  | cleared {i : Nat} {n : BakedNode} (h : t.Below root i n) (hk : n.kind = .clearBlackboard)
      (hkey : n.key = 0) (w : World ε) : Effect w w.clear
  | fired {i : Nat} {n : BakedNode} (h : t.Below root i n) (hk : n.kind = .interrupt)
      (w : World ε) : Effect w (w.set n.key 0)
  | counted {i child : Nat} {n : BakedNode} (h : t.Below root i n) (hk : n.kind = .repeater)
      (hchild : n.firstChild? = some child) (count : Float32) (w : World ε) :
      Effect w (w.set (repeaterCounterKey child) count)

end

theorem effect_of_enter {i : Nat} {n : BakedNode} (h : t.Below root i n) (w : World ε) :
    Effect t root actions dt w (enter actions dt i n w).2 := by
  by_cases hk : Descends n.kind
  · rw [enter_descends actions dt hk]
    exact .unchanged w
  · unfold enter
    cases hkind : n.kind with
    | interrupt =>
      cases n.firstChild? with
      | none => exact .unchanged w
      | some child =>
        dsimp only
        split
        · exact .fired h hkind w
        · exact .unchanged w
    | action => exact .acted h hkind w
    | setBlackboard => exact .set h hkind w
    | clearBlackboard =>
      dsimp only
      split
      · rename_i hkey
        exact .cleared h hkind hkey w
      · exact .erased h hkind w
    | _ => simp [Descends, IsDecorator, hkind] at hk

theorem effect_of_resume {n : BakedNode} {frame : Frame} (h : t.Below root frame.index n)
    (hfirst : n.kind = .repeater → n.firstChild? = some frame.child) (sibling : Option Nat)
    (status : Status) (w : World ε) :
    Effect t root actions dt w (resume n sibling frame status w).2.2 := by
  unfold resume
  cases hk : n.kind with
  | repeater =>
    have hcount : ∀ count, Effect t root actions dt w
        (w.set (repeaterCounterKey frame.child) count) := fun count =>
      .counted h hk (hfirst hk) count w
    cases status with
    | running => exact .unchanged w
    | failure => exact hcount 0
    | success =>
      dsimp only [countRepeat]
      split
      · exact hcount 0
      · exact hcount _
  | _ => exact .unchanged w

/-! ## The machine stays below the root -/

/-- What a tick from a root is about to enter and what it has open is below the root; an open node
waits for a child of its own, a repeater for the first. -/
structure Confined (t : BakedTree) (root : Int32) (s : State ε τ) : Prop where
  entering : ∀ i ∈ s.entering, t.Reaches root i
  index : ∀ frame ∈ s.stack, t.Reaches root frame.index
  child : ∀ frame ∈ s.stack, Child t.nodes frame.index frame.child
  first : ∀ frame ∈ s.stack, ∀ n, t.get? frame.index = some n → n.kind = .repeater →
    n.firstChild? = some frame.child

theorem confined_start {i : Nat} (h : linkTarget? root = some i) (w : World ε) (seen : τ) :
    Confined t root ⟨[], .enter i, w, seen⟩ where
  entering j hj := by
    rw [List.mem_singleton.1 hj]
    exact ⟨i, h, .refl⟩
  index := by simp
  child := by simp
  first := by simp

theorem Confined.reaches {i : Nat} {stack : List Frame} {w : World ε} {seen : τ}
    (h : Confined t root ⟨stack, .enter i, w, seen⟩) : t.Reaches root i :=
  h.entering i (List.mem_singleton_self i)

/-- `Confined` of a state with the same open nodes that enters none. -/
theorem Confined.settled {s : State ε τ} (h : Confined t root s) {stack : List Frame}
    (hstack : stack ⊆ s.stack) {phase : Phase} {w : World ε} {seen : τ}
    (hphase : (⟨stack, phase, w, seen⟩ : State ε τ).entering = []) :
    Confined t root ⟨stack, phase, w, seen⟩ where
  entering i hi := by simp [hphase] at hi
  index frame hframe := h.index frame (hstack hframe)
  child frame hframe := h.child frame (hstack hframe)
  first frame hframe := h.first frame (hstack hframe)

/-- `Confined` of a state that enters the child that its innermost open node waits for. -/
theorem Confined.opened {s : State ε τ} (h : Confined t root s) {stack : List Frame}
    (hstack : stack ⊆ s.stack) (frame : Frame) (hindex : t.Reaches root frame.index)
    (hchild : Child t.nodes frame.index frame.child)
    (hfirst : ∀ n, t.get? frame.index = some n → n.kind = .repeater →
      n.firstChild? = some frame.child) (w : World ε) (seen : τ) :
    Confined t root ⟨frame :: stack, .enter frame.child, w, seen⟩ where
  entering j hj := by
    rw [List.mem_singleton.1 hj]
    exact hindex.child hchild
  index f hf := by
    rcases List.mem_cons.1 hf with rfl | hf
    · exact hindex
    · exact h.index f (hstack hf)
  child f hf := by
    rcases List.mem_cons.1 hf with rfl | hf
    · exact hchild
    · exact h.child f (hstack hf)
  first f hf := by
    rcases List.mem_cons.1 hf with rfl | hf
    · exact hfirst
    · exact h.first f (hstack hf)

theorem step_confined {s s' : State ε τ} (h : Confined t root s)
    (hs : step t actions dt observe s = .inl s') : Confined t root s' := by
  cases stepped_of_step hs with
  | outside hn => exact h.settled (List.Subset.refl _) rfl
  | @opened stack i c n w w' seen hn he =>
    obtain ⟨hc, -⟩ := child_of_enter he
    have hfirst : firstChildOf t.nodes i = some c := by
      rw [firstChildOf, show t.nodes[i]? = some n from hn]
      exact hc
    refine h.opened (List.Subset.refl _) ⟨i, c, false, false⟩ h.reaches
      ⟨c, hfirst, .refl⟩ (fun n' hn' _ => ?_) w' seen
    cases hn.symm.trans hn'
    exact hc
  | settled hn he => exact h.settled (List.Subset.refl _) rfl
  | reported => exact h.settled (List.Subset.refl _) rfl
  | dropped hn => exact h.settled (List.subset_cons_self _ _) rfl
  | @sibling frame frame' stack n status c w w' seen hn hr =>
    obtain ⟨hsibling, -, hk⟩ := child_of_resume hr
    have hindex : frame'.index = frame.index := index_of_resume hr
    obtain ⟨d, hd, hdc⟩ := h.child frame (by simp)
    refine h.opened (List.subset_cons_self _ _) { frame' with child := c } ?_ ?_ ?_ w' seen
    · rw [hindex]
      exact h.index frame (by simp)
    · rw [hindex]
      exact ⟨d, hd, hdc.tail hsibling⟩
    · -- a repeater does not go on to a sibling
      intro n' hn' hk'
      rw [hindex] at hn'
      cases hn.symm.trans hn'
      exact absurd hk' hk
  | closed hn hr => exact h.settled (List.subset_cons_self _ _) rfl

/-- A step of a confined machine has one of the effects. -/
theorem step_effect {s s' : State ε τ} (h : Confined t root s)
    (hs : step t actions dt observe s = .inl s') :
    Effect t root actions dt s.world s'.world := by
  rcases world_of_step hs with hw | ⟨i, n, hphase, hn, hw⟩ | ⟨frame, n, status, htop, -, hn, hw⟩
  · rw [hw]
    exact .unchanged _
  · rw [hw]
    exact effect_of_enter ⟨h.entering i (by simp [State.entering, hphase]), hn⟩ _
  · have hframe : frame ∈ s.stack := List.mem_of_mem_head? htop
    rw [hw]
    exact effect_of_resume ⟨h.index frame hframe, hn⟩ (h.first frame hframe n hn) ..

end Machine

end BehaviorTree
