import BehaviorTree.Proofs.Tick.Rounds

/-!
# The footprint of ticks

`Touched A lost b b'`: from one memory to another nothing changed but numbers under keys of `A`,
and, if `lost` holds, numbers that are gone. The relation is kept by every effect of a tick
(`Effect.touched`), with the keys that actions may change and those that nodes name
(`BakedTree.nodeKeys`), and so by any number of ticks (`afterRounds_footprint`).
-/

namespace BehaviorTree

open Machine

/-- Nothing changed but numbers under keys of `A`; others are gone at most, and only if `lost`
holds. -/
structure Touched (A : Set Key) (lost : Prop) (b b' : Blackboard) : Prop where
  bools : b'.bools = b.bools
  ints : b'.ints = b.ints
  vectors : b'.vectors = b.vectors
  entities : b'.entities = b.entities
  kept : ∀ key ∉ A, b'.find? key = b.find? key ∨ lost ∧ b'.find? key = none

namespace Touched

variable {A : Set Key} {lost : Prop} {b b' b'' : Blackboard}

theorem refl (A : Set Key) (lost : Prop) (b : Blackboard) : Touched A lost b b :=
  ⟨rfl, rfl, rfl, rfl, fun _ _ => .inl rfl⟩

theorem trans (h : Touched A lost b b') (h' : Touched A lost b' b'') : Touched A lost b b'' where
  bools := h'.bools.trans h.bools
  ints := h'.ints.trans h.ints
  vectors := h'.vectors.trans h.vectors
  entities := h'.entities.trans h.entities
  kept key hkey := by
    rcases h'.kept key hkey with heq' | hlost'
    · rw [heq']
      exact h.kept key hkey
    · exact .inr hlost'

theorem mono {A' : Set Key} {lost' : Prop} (h : Touched A lost b b') (hA : A ⊆ A')
    (hlost : lost → lost') : Touched A' lost' b b' where
  bools := h.bools
  ints := h.ints
  vectors := h.vectors
  entities := h.entities
  kept key hkey := (h.kept key fun hA' => hkey (hA hA')).imp_right fun hgone =>
    ⟨hlost hgone.1, hgone.2⟩

theorem set {key : Key} (hkey : key ∈ A) (value : Float32) :
    Touched A lost b (b.set key value) where
  bools := rfl
  ints := rfl
  vectors := rfl
  entities := rfl
  kept other hother := by
    have hne : key ≠ other := fun heq => hother (heq ▸ hkey)
    exact .inl (by rw [Blackboard.find?_set, if_neg hne])

theorem erase {key : Key} (hkey : key ∈ A) : Touched A lost b (b.erase key) where
  bools := rfl
  ints := rfl
  vectors := rfl
  entities := rfl
  kept other hother := by
    have hne : key ≠ other := fun heq => hother (heq ▸ hkey)
    exact .inl (Blackboard.find?_erase_of_ne b hne)

theorem clear (hlost : lost) : Touched A lost b b.clear :=
  ⟨rfl, rfl, rfl, rfl, fun _ _ => .inr ⟨hlost, rfl⟩⟩

/-- No key comes in from outside of `A`. -/
theorem mem_keys (h : Touched A lost b b') {key : Key} (hkey : key ∈ b'.values.keys) :
    key ∈ b.values.keys ∨ key ∈ A := by
  by_cases hA : key ∈ A
  · exact .inr hA
  · left
    have hfind : b'.find? key ≠ none := (Table.mem_keys_iff _ _).1 hkey
    rcases h.kept key hA with heq | ⟨-, hgone⟩
    · rw [heq] at hfind
      exact (Table.mem_keys_iff _ _).2 hfind
    · exact absurd hgone hfind

end Touched

/-- No registered action changes more of the memory than numbers under keys of `A`. -/
def ActionTable.WritesOnly {ε : Type} (actions : ActionTable ε) (A : Set Key) : Prop :=
  actions.Keeps (Touched A False)

/-- The key that a node itself may change: the one in its slots, or the counter of a repeater. -/
def BakedNode.ownKey? (n : BakedNode) : Option Key :=
  match n.kind with
  | .setBlackboard | .clearBlackboard | .interrupt => some n.key
  | .repeater => n.firstChild?.map repeaterCounterKey
  | _ => none

namespace BakedTree

/-- The keys that nodes of the subtree of a root may change. -/
def nodeKeys (t : BakedTree) (root : Int32) : Set Key :=
  fun key => ∃ i n, t.Below root i n ∧ n.ownKey? = some key

/-- A node of the subtree of a root removes a key; key 0 stands for every key. -/
def Clears (t : BakedTree) (root : Int32) (key : Key) : Prop :=
  ∃ i n, t.Below root i n ∧ n.kind = .clearBlackboard ∧ n.key = key

end BakedTree

variable {ε : Type} {t : BakedTree} {root : Int32} {A : Set Key}

theorem Machine.Effect.touched {actions : ActionTable ε} {dt : Float32} {w w' : World ε}
    (h : Effect t root actions dt w w') (hactions : actions.WritesOnly A) :
    Touched (A ∪ t.nodeKeys root) (t.Clears root 0) w.blackboard w'.blackboard := by
  have hkey : ∀ {i n key}, t.Below root i n → n.ownKey? = some key →
      key ∈ A ∪ t.nodeKeys root := fun hbelow hown => .inr ⟨_, _, hbelow, hown⟩
  cases h with
  | unchanged w => exact .refl _ _ _
  | acted hbelow hk w =>
    exact (hactions.execute (.refl A False) _ _ _ w).mono Set.subset_union_left False.elim
  | set hbelow hk w => exact .set (hkey hbelow (by simp [BakedNode.ownKey?, hk])) _
  | erased hbelow hk w => exact .erase (hkey hbelow (by simp [BakedNode.ownKey?, hk]))
  | cleared hbelow hk hzero w => exact .clear ⟨_, _, hbelow, hk, hzero⟩
  | fired hbelow hk w => exact .set (hkey hbelow (by simp [BakedNode.ownKey?, hk])) _
  | counted hbelow hk hchild count w =>
    exact .set (hkey hbelow (by simp [BakedNode.ownKey?, hk, hchild])) _

namespace BakedTree

variable {nodes : Array BakedNode} {ids : Array IdEntry}

theorem touched_of_rounds (hf : IsForest t.nodes) (root : Int32) (b : Blackboard)
    {rounds : List (Round ε)} (hactions : ∀ r ∈ rounds, r.actions.WritesOnly A) :
    Touched (A ∪ t.nodeKeys root) (t.Clears root 0) b (t.afterRounds root b rounds) := by
  refine ((trail_of_rounds hf root b rounds).keeps (fun m hm hb => ?_) (.refl _ _ b)).2
  obtain ⟨hconfined, r, hr, hstep⟩ := step_of_mem_moves hm
  exact hb.trans ((step_effect hconfined hstep).touched (hactions r hr))

/-- Any number of ticks, of actions that change numbers under keys of `A` alone, leave the other
four tables as they were, and every number whose key is neither in `A` nor of a node below the root.
Only a node that removes all numbers removes such a number too. So no key comes in but these. -/
theorem afterRounds_footprint (ht : ofNodes nodes ids = .ok t) (root : Int32)
    {rounds : List (Round ε)} (hactions : ∀ r ∈ rounds, r.actions.WritesOnly A) (b : Blackboard) :
    let b' := t.afterRounds root b rounds
    (b'.bools = b.bools ∧ b'.ints = b.ints ∧ b'.vectors = b.vectors ∧ b'.entities = b.entities) ∧
    (∀ key ∉ A, key ∉ t.nodeKeys root →
      (¬ t.Clears root 0 → b'.find? key = b.find? key) ∧
      (b'.find? key = b.find? key ∨ b'.find? key = none)) ∧
    ∀ key ∈ b'.values.keys, key ∈ b.values.keys ∨ key ∈ A ∨ key ∈ t.nodeKeys root := by
  have hf : IsForest t.nodes := forest_of_ofNodes ht
  intro b'
  have h : Touched (A ∪ t.nodeKeys root) (t.Clears root 0) b b' :=
    touched_of_rounds hf root b hactions
  refine ⟨⟨h.bools, h.ints, h.vectors, h.entities⟩, fun key hA hnode => ?_,
    fun key hkey => h.mem_keys hkey⟩
  have hkept := h.kept key fun hmem => hmem.elim hA hnode
  exact ⟨fun hclear => hkept.resolve_right fun hlost => hclear hlost.1,
    hkept.imp_right And.right⟩

/-- `afterRounds_footprint` for `guarded`, with an action that writes under key 9. -/
theorem afterRounds_footprint_guarded :
    let actions : ActionTable Unit :=
      ActionTable.empty.registerKey 5 fun _ ctx w => (.success, w.set 9 ctx.deltaTime)
    let rounds : List (Round Unit) := [⟨actions, 0.5, ()⟩, ⟨actions, 0.25, ()⟩]
    let b := (Blackboard.empty.set 3 1).setBool 3 true
    let b' := guarded.afterRounds 0 b rounds
    ofNodes guarded.nodes guarded.ids = .ok guarded ∧ (∀ r ∈ rounds, r.actions.WritesOnly {9}) ∧
      b'.bools = b.bools ∧ b'.find? 3 = some 1 ∧
      ∀ key ∈ b'.values.keys, key = 3 ∨ key = 9 ∨ key ∈ guarded.nodeKeys 0 := by
  intro actions rounds b b'
  have hwrites : actions.WritesOnly {9} := by
    refine ActionTable.keeps_empty.registerKey (fun n ctx w => ?_) 5
    exact .set (Set.mem_singleton 9) ctx.deltaTime
  have hactions : ∀ r ∈ rounds, r.actions.WritesOnly {9} := by simp [rounds, hwrites]
  obtain ⟨⟨hbools, -⟩, hkept, hkeys⟩ := afterRounds_footprint ofNodes_guarded 0 hactions b
  have hnode : 3 ∉ guarded.nodeKeys 0 := by
    rintro ⟨i, n, hbelow, hown⟩
    have hall : ∀ n ∈ guarded.nodes, n.ownKey? ≠ some 3 := by decide
    exact hall n (Array.mem_of_getElem? hbelow.record) hown
  have hclear : ¬ guarded.Clears 0 0 := by
    rintro ⟨i, n, hbelow, hk, -⟩
    have hall : ∀ n ∈ guarded.nodes, n.kind ≠ .clearBlackboard := by decide
    exact hall n (Array.mem_of_getElem? hbelow.record) hk
  have hthree : b'.find? 3 = b.find? 3 := (hkept 3 (by decide) hnode).1 hclear
  refine ⟨ofNodes_guarded, hactions, hbools, hthree.trans rfl, fun key hkey => ?_⟩
  exact (hkeys key hkey).imp_left List.mem_singleton.1

end BakedTree

end BehaviorTree
