import BehaviorTree.Proofs.Tick.Observe
import BehaviorTree.Proofs.Tick.Simulation
import BehaviorTree.Tick.Trace

/-!
# Trees of one shape

`Carries place t root t' root'`: to go from `i` to `place i` leads from the subtree of one root to
that of another, and keeps kinds, slots and the order of children. Such a map tells indices apart
(`Carries.injective`). The behaviours below the two roots are the same but for indices and links
(`Carries.relabel`), so ticks of the two give the same statuses and worlds, and traces that `place`
carries into each other (`Carries.ticks`), if nothing in the subtree looks at indices and links: no
repeater, and no action (`ActionTable.IgnoresLayout`).
-/

namespace BehaviorTree

open Relation Machine

variable {ε : Type}

/-! ## Actions that do not look at where they are -/

/-- No registered action looks at the index of its node or at the links of its record. -/
def ActionTable.IgnoresLayout (actions : ActionTable ε) : Prop :=
  ∀ key action, actions.get? key = some action → ∀ n n' i i' dt w,
    n.SameSlots n' → action n ⟨i, dt⟩ w = action n' ⟨i', dt⟩ w

namespace ActionTable

variable {t : ActionTable ε} {action : Action ε}

theorem ignoresLayout_empty : (empty : ActionTable ε).IgnoresLayout := forall_get?_empty

theorem IgnoresLayout.registerKey (h : t.IgnoresLayout)
    (haction : ∀ n n' i i' dt w, n.SameSlots n' → action n ⟨i, dt⟩ w = action n' ⟨i', dt⟩ w)
    (key : Key) : (t.registerKey key action).IgnoresLayout :=
  forall_get?_registerKey h haction key

theorem IgnoresLayout.execute (h : t.IgnoresLayout) {n n' : BakedNode} (hs : n.SameSlots n')
    (key : Key) (i i' : Nat) (dt : Float32) (w : World ε) :
    t.execute key n ⟨i, dt⟩ w = t.execute key n' ⟨i', dt⟩ w :=
  execute_congr fun action haction => h key action haction n n' i i' dt w hs

theorem IgnoresLayout.ignoresLinks (h : t.IgnoresLayout) : t.IgnoresLinks :=
  fun key action haction n ctx w =>
    h key action haction _ _ ctx.nodeIndex ctx.nodeIndex ctx.deltaTime w n.sameSlots_unlinked

end ActionTable

theorem BakedNode.SameSlots.unlinked_eq {n n' : BakedNode} (h : n.SameSlots n') :
    n.unlinked = n'.unlinked := by
  simp only [unlinked, h.kind, h.ints, h.floats]

/-! ## Many ticks -/

/-- The trace with its indices replaced. -/
def Trace.relabel (place : Nat → Nat) (t : Trace) : Trace :=
  ⟨t.entries.map fun e => ⟨place e.index, e.status⟩⟩

/-- The outcome with the indices of its trace replaced. -/
def Machine.Outcome.relabel (place : Nat → Nat) (o : Outcome ε Trace) : Outcome ε Trace :=
  { o with seen := o.seen.relabel place }

theorem Trace.relabel_empty (place : Nat → Nat) : Trace.empty.relabel place = .empty := by
  simp [Trace.empty, Trace.relabel]

theorem Trace.relabel_push (place : Nat → Nat) (t : Trace) (i : Nat) (status : Status) :
    (t.push i status).relabel place = (t.relabel place).push (place i) status := by
  simp [Trace.push, Trace.relabel]

namespace BakedTree

/-- Ticks in order, each with a trace of its own, and in the world that the one before it left. -/
def ticks (t : BakedTree) (actions : ActionTable ε) (root : Int32) (w : World ε) :
    List Float32 → List (Outcome ε Trace)
  | [] => []
  | dt :: dts =>
    let o := t.tickTraced actions root dt w .empty
    o :: ticks t actions root o.world dts

/-- No node of the subtree of a root is a repeater. -/
def RepeatsNothing (t : BakedTree) (root : Int32) : Prop :=
  ∀ i n, t.Below root i n → n.kind ≠ .repeater

/-! ## Maps between trees -/

/-- From the subtree of one root to that of another: a node goes to one of the same kind and
slots, and its children go to the children of that one, in order. -/
structure Carries (place : Nat → Nat) (t : BakedTree) (root : Int32) (t' : BakedTree)
    (root' : Int32) : Prop where
  start : ∃ i < t.size, linkTarget? root = some i ∧ linkTarget? root' = some (place i)
  record : ∀ i n, t.Below root i n → ∃ n', t'.get? (place i) = some n' ∧ n'.SameSlots n
  children : ∀ i, t.Reaches root i → t'.children (place i) = (t.children i).map place

variable {t t' : BakedTree} {root root' : Int32} {place : Nat → Nat}

theorem reaches_of_linkTarget? {i : Nat} (h : linkTarget? root = some i) : t.Reaches root i :=
  ⟨i, h, .refl⟩

namespace Carries

section
variable (h : Carries place t root t' root') (hf : IsForest t.nodes) (hf' : IsForest t'.nodes)
include h hf hf'

theorem child {i j : Nat} (hi : t.Reaches root i) (hij : Child t.nodes i j) :
    Child t'.nodes (place i) (place j) := by
  refine (mem_children hf').1 ?_
  rw [h.children i hi]
  exact List.mem_map_of_mem ((mem_children hf).2 hij)

theorem below {i j : Nat} (hi : t.Reaches root i) (hij : ReflTransGen (Child t.nodes) i j) :
    ReflTransGen (Child t'.nodes) (place i) (place j) := by
  obtain ⟨r, hr, hri⟩ := hi
  induction hij with
  | refl => exact .refl
  | tail hij hjk ih => exact ih.tail (h.child hf hf' ⟨r, hr, hri.trans hij⟩ hjk)

/-- The root alone goes to where it goes: else the path down to another node would come back. -/
theorem eq_root {r j : Nat} (hr : linkTarget? root = some r) (hj : t.Reaches root j)
    (heq : place j = place r) : j = r := by
  obtain ⟨r', hr', hrj⟩ := hj
  cases hr.symm.trans hr'
  rcases hrj.cases_tail with rfl | ⟨p, hrp, hpj⟩
  · rfl
  · have hp : t.Reaches root p := ⟨r, hr, hrp⟩
    have hback := h.child hf hf' hp hpj
    rw [heq] at hback
    exact absurd (h.below hf hf' (reaches_of_linkTarget? hr) hrp) (hf'.child_acyclic.not_back hback)

/-- No two nodes of the subtree go to one. -/
theorem injective {i j : Nat} (hi : t.Reaches root i) (hj : t.Reaches root j)
    (heq : place i = place j) : i = j := by
  obtain ⟨r, hr, hri⟩ := hi
  -- along the path to `i`: parents that go to one place are the same by induction
  induction hri generalizing j with
  | refl => exact (h.eq_root hf hf' hr hj heq.symm).symm
  | @tail p i hrp hpi ih =>
    have hp : t.Reaches root p := ⟨r, hr, hrp⟩
    obtain ⟨r', hr', hrj⟩ := hj
    cases hr.symm.trans hr'
    rcases hrj.cases_tail with rfl | ⟨q, hrq, hqj⟩
    · exact h.eq_root hf hf' hr (hp.child hpi) heq
    · have hq : t.Reaches root q := ⟨r, hr, hrq⟩
      have hparents : place p = place q :=
        hf'.child_leftUnique (heq ▸ h.child hf hf' hp hpi) (h.child hf hf' hq hqj)
      cases ih hq hparents
      have hnd : ((t.children p).map place).Nodup := h.children p hp ▸ nodup_children hf' _
      exact List.inj_on_of_nodup_map hnd ((mem_children hf).2 hpi) ((mem_children hf).2 hqj) heq

open Behavior in
/-- The behaviours below the two roots are the same but for indices and links. -/
theorem relabel {b b' : Behavior} (hb : b.Fits t.nodes) (hb' : b'.Fits t'.nodes)
    (hi : t.Reaches root b.index) (heq : place b.index = b'.index) :
    b.relabel place BakedNode.unlinked = b'.unlinked := by
  induction b generalizing b' with
  | node i record bs ih =>
    obtain ⟨i', record', bs'⟩ := b'
    obtain ⟨hr, -, hbs⟩ := fits_node.1 hb
    obtain ⟨hr', -, hbs'⟩ := fits_node.1 hb'
    obtain rfl : place i = i' := heq
    obtain ⟨n', hn', hslots⟩ := h.record i record ⟨hi, hr⟩
    cases hn'.symm.trans hr'
    have hplaces : bs'.Forall₂ (fun b' b => b'.index = place b.index) bs := by
      have hmap := h.children i hi
      rwa [children_of_fits hf hb, children_of_fits hf' hb', List.map_map, ← List.forall₂_eq_eq_eq,
        List.forall₂_map_left_iff, List.forall₂_map_right_iff] at hmap
    have hkids : bs.Forall₂ (fun b b' => b.relabel place BakedNode.unlinked = b'.unlinked) bs' := by
      have hfits : ∀ b ∈ bs, b.Fits t.nodes ∧ t.Reaches root b.index := fun b hmem =>
        ⟨hbs b hmem, hi.child ((child_iff hb).2 (List.mem_map_of_mem hmem))⟩
      have hboth := (List.forall₂_and_left _ _).2 ⟨hbs', hplaces⟩
      refine ((List.forall₂_and_left _ _).2 ⟨fun b hmem => And.intro (@ih b hmem) (hfits b hmem),
        hboth.flip⟩).imp ?_
      rintro b b' ⟨⟨ih, hb, hi⟩, hb', heq⟩
      exact ih hb hb' hi heq.symm
    have hmaps : bs.map (Behavior.relabel place BakedNode.unlinked) =
        bs'.map Behavior.unlinked := by
      rwa [← List.forall₂_eq_eq_eq, List.forall₂_map_left_iff, List.forall₂_map_right_iff]
    rw [relabel_node, hmaps, Behavior.unlinked, mapRecords_node, hslots.unlinked_eq]
    rfl

end

end Carries

open Behavior in
/-- Nothing counts in a behaviour without repeaters. -/
theorem RepeatsNothing.not_mem_counted (h : t.RepeatsNothing root) {b : Behavior}
    (hb : b.Fits t.nodes) (hi : t.Reaches root b.index) (j : Nat) : j ∉ b.counted := by
  induction b with
  | node i record bs ih =>
    obtain ⟨hr, -, hbs⟩ := fits_node.1 hb
    have hk : record.kind ≠ .repeater := h i record ⟨hi, hr⟩
    rw [counted, if_neg hk, List.nil_append, mem_countedOfAll]
    rintro ⟨b, hmem, hj⟩
    exact ih b hmem (hbs b hmem) (hi.child ((child_iff hb).2 (List.mem_map_of_mem hmem))) hj

namespace Carries

variable (h : Carries place t root t' root') (hf : IsForest t.nodes) (hf' : IsForest t'.nodes)
  (hno : t.RepeatsNothing root) {actions : ActionTable ε} (hactions : actions.IgnoresLayout)
include h hf hf' hno hactions

theorem tickTraced (dt : Float32) (w : World ε) (trace : Trace) :
    t'.tickTraced actions root' dt w (trace.relabel place) =
      (t.tickTraced actions root dt w trace).relabel place := by
  obtain ⟨i, hi, hroot, hroot'⟩ := h.start
  obtain ⟨b, hb⟩ := exists_behavior hf hi
  obtain ⟨rfl, hfits⟩ := fits_of_behavior hf hb
  have hreaches : t.Reaches root b.index := reaches_of_linkTarget? hroot
  have hi' : place b.index < t'.size := by
    obtain ⟨n', hn', -⟩ := h.record _ t.nodes[b.index] ⟨hreaches, Array.getElem?_eq_getElem hi⟩
    exact (Array.getElem?_eq_some_iff.1 hn').1
  obtain ⟨b', hb'⟩ := exists_behavior hf' hi'
  obtain ⟨heq, hfits'⟩ := fits_of_behavior hf' hb'
  have hevaluate : b'.evaluate actions dt (fun i status t => t.push i status)
      (w, trace.relabel place) = Behavior.viewed (Trace.relabel place)
        (b.evaluate actions dt (fun i status t => t.push i status) (w, trace)) := by
    rw [← Behavior.evaluate_unlinked hactions.ignoresLinks b',
      ← h.relabel hf hf' hfits hfits' hreaches heq.symm]
    refine Behavior.evaluate_relabel BakedNode.sameSlots_unlinked
      (fun i n key w => hactions.execute n.sameSlots_unlinked key _ _ dt w)
      (fun i status t => Trace.relabel_push place t i status) b
      (fun j hj => absurd hj (hno.not_mem_counted hfits hreaches j)) w trace
  rw [BakedTree.tickTraced, tickReporting_of_fits hf' hfits' actions (heq ▸ hroot'), hevaluate,
    BakedTree.tickTraced, tickReporting_of_fits hf hfits actions hroot]
  rfl

/-- Ticks of the two trees differ in the indices of their traces alone. -/
theorem ticks (w : World ε) (dts : List Float32) :
    t'.ticks actions root' w dts = (t.ticks actions root w dts).map (·.relabel place) := by
  induction dts generalizing w with
  | nil => rfl
  | cons dt dts ih =>
    have htick := h.tickTraced hf hf' hno hactions dt w .empty
    rw [Trace.relabel_empty] at htick
    rw [BakedTree.ticks, BakedTree.ticks, List.map_cons, htick, ← ih]
    rfl

end Carries

end BakedTree

end BehaviorTree
