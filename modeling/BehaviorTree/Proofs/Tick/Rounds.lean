import BehaviorTree.Proofs.Tick.Effect
import BehaviorTree.Proofs.Tick.Termination

/-!
# Many ticks

A `Round` is what one tick is given from outside: the action table, the time, the environment.
`BakedTree.afterRounds` is the memory that rounds leave, each starting with what the one before it
left; `BakedTree.movesOfRounds` lists the steps that their ticks take. In an accepted tree these
lead from the first memory to the last (`trail_of_rounds`), so what every step keeps is kept by any
number of ticks, and every step is confined to the subtree of the root (`step_of_mem_moves`).
-/

namespace BehaviorTree

open Machine

variable {ε : Type}

/-- What a tick is given from outside. -/
structure Round (ε : Type) where
  actions : ActionTable ε
  deltaTime : Float32
  env : ε

namespace Machine

/-- A step of a tick: the states before and after it. -/
structure Move (ε : Type) where
  before : State ε Unit
  after : State ε Unit

def unobserved : Observer Unit := fun _ _ seen => seen

/-- Up to `fuel` steps, as `run` takes them. -/
def moves (t : BakedTree) (actions : ActionTable ε) (dt : Float32) :
    Nat → State ε Unit → List (Move ε)
  | 0, _ => []
  | fuel + 1, s =>
    match step t actions dt unobserved s with
    | .inl next => ⟨s, next⟩ :: moves t actions dt fuel next
    | .inr _ => []

def Move.memory (m : Move ε) : Blackboard := m.before.world.blackboard

def Move.memoryAfter (m : Move ε) : Blackboard := m.after.world.blackboard

/-- Steps lead from one memory to another, each from where the one before it ends. -/
def Trail : Blackboard → List (Move ε) → Blackboard → Prop
  | b, [], b' => b = b'
  | b, m :: ms, b' => m.memory = b ∧ Trail m.memoryAfter ms b'

end Machine

namespace BakedTree

/-- The memory after one round. -/
def afterRound (t : BakedTree) (root : Int32) (b : Blackboard) (r : Round ε) : Blackboard :=
  (t.tick r.actions root r.deltaTime ⟨b, r.env⟩).2.blackboard

/-- The memory after rounds in order. -/
def afterRounds (t : BakedTree) (root : Int32) (b : Blackboard) (rounds : List (Round ε)) :
    Blackboard := rounds.foldl (t.afterRound root) b

/-- The steps of one round. -/
def movesOfRound (t : BakedTree) (root : Int32) (b : Blackboard) (r : Round ε) : List (Move ε) :=
  match linkTarget? root with
  | none => []
  | some i =>
    moves t r.actions r.deltaTime (enoughSteps t) ⟨[], .enter i, ⟨b, r.env⟩, ()⟩

/-- The steps of rounds in order. -/
def movesOfRounds (t : BakedTree) (root : Int32) : Blackboard → List (Round ε) → List (Move ε)
  | _, [] => []
  | b, r :: rounds => t.movesOfRound root b r ++ t.movesOfRounds root (t.afterRound root b r) rounds

end BakedTree

/-! ## Trails -/

namespace Machine

variable {b b' b'' : Blackboard} {ms ms' : List (Move ε)}

theorem Trail.append (h : Trail b ms b') (h' : Trail b' ms' b'') : Trail b (ms ++ ms') b'' := by
  induction ms generalizing b with
  | nil =>
    cases h
    exact h'
  | cons m ms ih => exact ⟨h.1, ih h.2⟩

theorem Trail.split {m : Move ε} (h : Trail b (ms ++ m :: ms') b') :
    Trail b ms m.memory ∧ Trail m.memoryAfter ms' b' := by
  induction ms generalizing b with
  | nil => exact ⟨h.1.symm, h.2⟩
  | cons m ms ih =>
    obtain ⟨hbefore, hafter⟩ := ih h.2
    exact ⟨⟨h.1, hbefore⟩, hafter⟩

/-- What every step keeps holds before every step and at the end. -/
theorem Trail.keeps {P : Blackboard → Prop} (h : Trail b ms b')
    (step : ∀ m ∈ ms, P m.memory → P m.memoryAfter) (hb : P b) : (∀ m ∈ ms, P m.memory) ∧ P b' := by
  induction ms generalizing b with
  | nil =>
    cases h
    exact ⟨by simp, hb⟩
  | cons m ms ih =>
    obtain ⟨rfl, h⟩ := h
    obtain ⟨hms, hb'⟩ := ih h (fun m' hm' => step m' (List.mem_cons_of_mem _ hm'))
      (step m (by simp) hb)
    refine ⟨fun m' hm' => ?_, hb'⟩
    rcases List.mem_cons.1 hm' with rfl | hm'
    · exact hb
    · exact hms m' hm'

/-- As many steps as lower a measure that no step raises are no more than it is at first. -/
theorem Trail.length_add_le (h : Trail b ms b')
    (measure : Blackboard → Nat) {F : Move ε → Prop}
    (step : ∀ m ∈ ms, measure m.memoryAfter ≤ measure m.memory)
    (drop : ∀ m ∈ ms, F m → measure m.memoryAfter < measure m.memory)
    {fs : List (Move ε)} (hsub : fs.Sublist ms) (hF : ∀ m ∈ fs, F m) :
    fs.length + measure b' ≤ measure b := by
  induction hsub generalizing b with
  | slnil =>
    cases h
    simp
  | @cons fs ms m hsub ih =>
    obtain ⟨rfl, h⟩ := h
    have hrest := ih h (fun m' hm' => step m' (List.mem_cons_of_mem _ hm'))
      (fun m' hm' => drop m' (List.mem_cons_of_mem _ hm')) hF
    have hle := step m (by simp)
    omega
  | @cons_cons fs ms m hsub ih =>
    obtain ⟨rfl, h⟩ := h
    have hrest := ih h (fun m' hm' => step m' (List.mem_cons_of_mem _ hm'))
      (fun m' hm' => drop m' (List.mem_cons_of_mem _ hm'))
      (fun m' hm' => hF m' (List.mem_cons_of_mem _ hm'))
    have hlt := drop m (by simp) (hF m (by simp))
    rw [List.length_cons]
    omega

/-! ## The steps of a tick -/

variable {t : BakedTree} {root : Int32} {actions : ActionTable ε} {dt : Float32}

/-- The steps of a run that ends lead to the memory that it ends with. -/
theorem trail_of_run {fuel : Nat} {s : State ε Unit} {outcome : Outcome ε Unit}
    (h : run t actions dt unobserved fuel s = some outcome) :
    Trail s.world.blackboard (moves t actions dt fuel s) outcome.world.blackboard := by
  induction fuel generalizing s with
  | zero => cases h
  | succ fuel ih =>
    rw [run] at h
    rw [moves]
    cases hs : step t actions dt unobserved s with
    | inl next =>
      rw [hs] at h
      exact ⟨rfl, ih h⟩
    | inr last =>
      rw [hs] at h
      cases h
      -- the last step gives the outcome and is no move: it leaves the world as it is
      rw [state_of_outcome hs]
      rfl

theorem step_of_mem {fuel : Nat} {s : State ε Unit} (hs : Confined t root s) {m : Move ε}
    (hm : m ∈ moves t actions dt fuel s) :
    Confined t root m.before ∧ step t actions dt unobserved m.before = .inl m.after := by
  induction fuel generalizing s with
  | zero => cases hm
  | succ fuel ih =>
    rw [moves] at hm
    cases hstep : step t actions dt unobserved s with
    | inl next =>
      rw [hstep] at hm
      rcases List.mem_cons.1 hm with rfl | hm
      · exact ⟨hs, hstep⟩
      · exact ih (step_confined hs hstep) hm
    | inr last =>
      rw [hstep] at hm
      cases hm

end Machine

/-! ## The steps of rounds -/

namespace BakedTree

variable {t : BakedTree} {root : Int32}

theorem trail_of_round (hf : IsForest t.nodes) (root : Int32) (b : Blackboard) (r : Round ε) :
    Trail b (t.movesOfRound root b r) (t.afterRound root b r) := by
  unfold movesOfRound afterRound
  rw [tick]
  cases hroot : linkTarget? root with
  | none =>
    rw [tickReporting, hroot]
    rfl
  | some i =>
    obtain ⟨is, n, last, outcome, hsteps, hend, hn, -, -⟩ :=
      exists_steps_to_outcome r.actions r.deltaTime unobserved hf i ⟨b, r.env⟩ ()
    have houtcome : t.tickReporting r.actions root r.deltaTime ⟨b, r.env⟩
        (fun _ _ seen => seen) () = outcome := tickReporting_of_steps hroot hsteps hend hn
    rw [houtcome]
    exact trail_of_run (hsteps.run_eq_some hend hn)

theorem trail_of_rounds (hf : IsForest t.nodes) (root : Int32) (b : Blackboard)
    (rounds : List (Round ε)) :
    Trail b (t.movesOfRounds root b rounds) (t.afterRounds root b rounds) := by
  induction rounds generalizing b with
  | nil => rfl
  | cons r rounds ih => exact (trail_of_round hf root b r).append (ih _)

/-- Every step of rounds is a step with the actions of one of them, of a confined machine. -/
theorem step_of_mem_moves {b : Blackboard} {rounds : List (Round ε)} {m : Move ε}
    (hm : m ∈ t.movesOfRounds root b rounds) :
    Confined t root m.before ∧
      ∃ r ∈ rounds, step t r.actions r.deltaTime unobserved m.before = .inl m.after := by
  induction rounds generalizing b with
  | nil => cases hm
  | cons r rounds ih =>
    rcases List.mem_append.1 hm with hm | hm
    · unfold movesOfRound at hm
      cases hroot : linkTarget? root with
      | none =>
        rw [hroot] at hm
        cases hm
      | some i =>
        rw [hroot] at hm
        obtain ⟨hconfined, hstep⟩ := step_of_mem (confined_start hroot _ _) hm
        exact ⟨hconfined, r, by simp, hstep⟩
    · obtain ⟨hconfined, r', hr', hstep⟩ := ih hm
      exact ⟨hconfined, r', List.mem_cons_of_mem _ hr', hstep⟩

end BakedTree

end BehaviorTree
