import BehaviorTree.Bake.Basic
import BehaviorTree.Bake.Behavior
import BehaviorTree.Proofs.Ends

/-!
# Resolved edges

`positions_ends`: the pass over the node ids gives every id its position (`Positioned`), or names
an id that two nodes have. `adjacency_get`: with the positions of all ids, the pass over the edges
gives every node the links that `Graph.linksOf` reads off the authored graph, so there is a link
from one node to another exactly if an edge joins them (`linked_iff`), and once only
(`nodup_linksOf`).
-/

namespace BehaviorTree

@[simp] theorem get_setIfInBounds {α : Type*} {n : Nat} (v : Vector α n) (i j : Fin n) (a : α) :
    (v.setIfInBounds i a).get j = if i = j then a else v.get j := by
  simp only [Vector.get_eq_getElem, Vector.getElem_setIfInBounds, Fin.val_inj]

/-! ## Lists without repetitions of a feature -/

section
variable {α β : Type*} [DecidableEq β] (f : α → β)

theorem eraseDupsBy_loop_concat (r : α → α → Bool) (l : List α) (a : α) (seen : List α) :
    List.eraseDupsBy.loop r (l ++ [a]) seen =
      if (List.eraseDupsBy.loop r l seen).any (r a) then List.eraseDupsBy.loop r l seen
      else List.eraseDupsBy.loop r l seen ++ [a] := by
  induction l generalizing seen with
  | nil =>
    simp only [List.nil_append, List.eraseDupsBy.loop, List.any_reverse]
    cases seen.any (r a) <;> simp
  | cons b l ih =>
    simp only [List.cons_append, List.eraseDupsBy.loop]
    by_cases h : seen.any (r b) = true
    · simp only [h, ih]
    · simp only [Bool.not_eq_true] at h
      simp only [h, ih]

/-- The first element of each feature. -/
def firsts (l : List α) : List α := l.eraseDupsBy fun a b => f a = f b

theorem firsts_concat (l : List α) (a : α) :
    firsts f (l ++ [a]) =
      if (firsts f l).any (fun b => f b = f a) then firsts f l else firsts f l ++ [a] := by
  have := eraseDupsBy_loop_concat (fun a b => f a = f b) l a []
  simp only [eq_comm (a := f a)] at this
  exact this

theorem mem_map_firsts (l : List α) (x : β) : x ∈ (firsts f l).map f ↔ x ∈ l.map f := by
  induction l using List.reverseRecOn generalizing x with
  | nil => rfl
  | append_singleton l a ih =>
    rw [firsts_concat]
    split
    · rename_i h
      have hmem : f a ∈ (firsts f l).map f := by simpa using h
      rw [ih, List.map_append, List.mem_append]
      refine ⟨.inl, ?_⟩
      rintro (hx | hx)
      · exact hx
      · rw [List.map_singleton, List.mem_singleton] at hx
        exact hx ▸ (ih (f a)).1 hmem
    · rw [List.map_append, List.map_append, List.mem_append, List.mem_append, ih]

theorem nodup_map_firsts (l : List α) : ((firsts f l).map f).Nodup := by
  induction l using List.reverseRecOn with
  | nil => exact List.nodup_nil
  | append_singleton l a ih =>
    rw [firsts_concat]
    split
    · exact ih
    · rename_i h
      rw [List.map_append]
      refine List.nodup_append.2 ⟨ih, List.nodup_singleton _, ?_⟩
      rintro x hx y hy rfl
      rw [List.map_singleton, List.mem_singleton] at hy
      subst hy
      exact h (by simpa using hx)

theorem firsts_eq_self {l : List α} (h : (l.map f).Nodup) : firsts f l = l := by
  induction l using List.reverseRecOn with
  | nil => rfl
  | append_singleton l a ih =>
    rw [List.map_append, List.map_singleton] at h
    obtain ⟨hl, -, hnew⟩ := List.nodup_append.1 h
    have hany : ¬ (firsts f l).any (fun b => f b = f a) = true := by
      rw [ih hl, List.any_eq_true]
      rintro ⟨b, hb, heq⟩
      exact hnew _ (List.mem_map_of_mem hb) _ (List.mem_singleton_self _) (of_decide_eq_true heq)
    rw [firsts_concat, if_neg hany, ih hl]

theorem firsts_sublist (l : List α) : (firsts f l).Sublist l := by
  induction l using List.reverseRecOn with
  | nil => exact .slnil
  | append_singleton l a ih =>
    rw [firsts_concat]
    split
    · exact ih.trans (List.sublist_append_left _ _)
    · exact ih.append (.refl _)

/-- In a list whose places go up, an element comes first if none of its feature has a lower
place. -/
theorem mem_firsts_iff (place : α → Nat) {l : List α} (hl : l.Pairwise (place · < place ·))
    {a : α} : a ∈ firsts f l ↔ a ∈ l ∧ ∀ b ∈ l, f b = f a → place a ≤ place b := by
  induction l using List.reverseRecOn generalizing a with
  | nil => simp [firsts, List.eraseDupsBy, List.eraseDupsBy.loop]
  | append_singleton l c ih =>
    obtain ⟨hl, -, hlast⟩ := List.pairwise_append.1 hl
    have hlast : ∀ b ∈ l, place b < place c := fun b hb => hlast b hb c (List.mem_singleton_self c)
    have hany : (firsts f l).any (fun b => f b = f c) = true ↔ ∃ b ∈ l, f b = f c := by
      rw [← List.mem_map, ← mem_map_firsts]
      simp
    have hin : a ∈ l → (a ∈ firsts f l ↔ ∀ b ∈ l ++ [c], f b = f a → place a ≤ place b) := by
      intro ha
      rw [ih hl, and_iff_right ha, List.forall_mem_append, List.forall_mem_singleton]
      exact (and_iff_left fun _ => (hlast a ha).le).symm
    have hkept : a ∈ firsts f l → a ∈ l := fun ha => (firsts_sublist f l).subset ha
    rw [firsts_concat, List.mem_append, List.mem_singleton]
    split
    · next h =>
      constructor
      · intro ha
        exact ⟨.inl (hkept ha), (hin (hkept ha)).1 ha⟩
      · rintro ⟨ha | rfl, hfirst⟩
        · exact (hin ha).2 hfirst
        · obtain ⟨b, hb, hba⟩ := hany.1 h
          exact absurd (hfirst b (List.mem_append_left _ hb) hba) (hlast b hb).not_ge
    · next h =>
      rw [List.mem_append, List.mem_singleton]
      constructor
      · rintro (ha | rfl)
        · exact ⟨.inl (hkept ha), (hin (hkept ha)).1 ha⟩
        · refine ⟨.inr rfl, List.forall_mem_append.2 ⟨fun b hb hba => ?_, by simp⟩⟩
          exact absurd (hany.2 ⟨b, hb, hba⟩) h
      · rintro ⟨ha | rfl, hfirst⟩
        · exact .inl ((hin ha).2 hfirst)
        · exact .inr rfl

theorem firsts_map {α' β' : Type*} [DecidableEq β'] {f : α → β} {f' : α' → β'} {h : α → α'}
    (hf : ∀ a b, f' (h a) = f' (h b) ↔ f a = f b) (l : List α) :
    firsts f' (l.map h) = (firsts f l).map h := by
  induction l using List.reverseRecOn with
  | nil => rfl
  | append_singleton l a ih =>
    have hany : ((firsts f l).map h).any (fun b => f' b = f' (h a)) =
        (firsts f l).any (fun b => f b = f a) := by
      simp [List.any_map, Function.comp_def, hf]
    rw [List.map_append, List.map_singleton, firsts_concat, firsts_concat, ih, hany]
    split <;> simp

end

namespace Graph

variable {g : Graph}

/-! ## Positions of ids -/

/-- No two nodes share an id. -/
def UniqueIds (g : Graph) : Prop := ∀ p q, (g.node p).id = (g.node q).id → p = q

instance (g : Graph) : Decidable g.UniqueIds :=
  inferInstanceAs (Decidable (∀ p q, (g.node p).id = (g.node q).id → p = q))

instance (g : Graph) : DecidableRel g.Joins := fun p c =>
  inferInstanceAs
    (Decidable (∃ e ∈ g.edges, e.fromId = (g.node p).id ∧ e.toId = (g.node c).id))

/-- Every id of a node is under its position. -/
def Positioned (g : Graph) (positions : g.Positions) : Prop :=
  ∀ (id : String) (p : Fin g.nodes.size), positions[id]? = some p ↔ (g.node p).id = id

theorem Positioned.uniqueIds {positions : g.Positions} (h : g.Positioned positions) :
    g.UniqueIds := by
  intro p q hpq
  have hp := (h (g.node p).id p).2 rfl
  have hq := (h (g.node p).id q).2 hpq.symm
  exact Option.some.inj (hp.symm.trans hq)

/-- The ids of the nodes `done` are under their positions, and no others. -/
def PositionedAmong (g : Graph) (done : List (Fin g.nodes.size)) (positions : g.Positions) :
    Prop :=
  ∀ (id : String) (p : Fin g.nodes.size),
    positions[id]? = some p ↔ p ∈ done ∧ (g.node p).id = id

/-- An error that names an id of two nodes. -/
def NamesShared (g : Graph) (e : BakeError) : Prop :=
  ∃ p q, p ≠ q ∧ (g.node p).id = (g.node q).id ∧ e = .duplicateNodeId (g.node p).id

theorem PositionedAmong.contains_iff {done : List (Fin g.nodes.size)} {positions : g.Positions}
    (h : g.PositionedAmong done positions) (id : String) :
    positions.contains id = true ↔ ∃ p ∈ done, (g.node p).id = id := by
  rw [Std.HashMap.contains_eq_isSome_getElem?, Option.isSome_iff_exists]
  exact exists_congr fun p => h id p

theorem addPosition_ends {done : List (Fin g.nodes.size)} {positions : g.Positions}
    (h : g.PositionedAmong done positions) {p : Fin g.nodes.size} (hp : p ∉ done) :
    Ends (g.PositionedAmong (done ++ [p])) g.NamesShared (g.addPosition positions p) := by
  unfold addPosition
  dsimp only
  split
  · rename_i hc
    obtain ⟨q, hq, hid⟩ := (h.contains_iff _).1 hc
    exact ⟨p, q, fun hpq => hp (hpq ▸ hq), hid.symm, rfl⟩
  · rename_i hc
    intro id q
    rw [Std.HashMap.getElem?_insert, List.mem_append, List.mem_singleton]
    by_cases hid : (g.node p).id = id
    · subst hid
      have hno : ∀ q ∈ done, (g.node q).id ≠ (g.node p).id := fun q hq hqp =>
        hc ((h.contains_iff _).2 ⟨q, hq, hqp⟩)
      simp only [beq_self_eq_true, if_true, Option.some.injEq]
      constructor
      · intro hpq
        exact ⟨.inr hpq.symm, by rw [hpq]⟩
      · intro ⟨hq, hqp⟩
        exact (hq.resolve_left fun hq => hno q hq hqp).symm
    · simp only [beq_iff_eq, hid, if_false, h id q]
      constructor
      · intro ⟨hq, hqi⟩
        exact ⟨.inl hq, hqi⟩
      · intro ⟨hq, hqi⟩
        exact ⟨hq.resolve_right fun hqp => hid (hqp ▸ hqi), hqi⟩

theorem positions_ends (g : Graph) : Ends g.Positioned g.NamesShared g.positions := by
  have key := Ends.foldlM (E := g.NamesShared) (I := g.PositionedAmong) (f := g.addPosition)
    (List.finRange g.nodes.size) (b := ∅) (by simp [PositionedAmong]) ?_
  · exact key.mono (fun positions h id p => by simpa using h id p) fun _ he => he
  · intro done p rest positions hl h
    exact addPosition_ends h (not_mem_done (List.nodup_finRange _) hl)

theorem position?_eq_some_iff (hu : g.UniqueIds) {id : String} {p : Fin g.nodes.size} :
    g.position? id = some p ↔ (g.node p).id = id := by
  constructor
  · intro h
    simpa using List.find?_some h
  · rintro rfl
    cases h : g.position? (g.node p).id with
    | none =>
      have := List.find?_eq_none.1 h p (List.mem_finRange p)
      simp at this
    | some q =>
      have hq : (g.node q).id = (g.node p).id := by simpa using List.find?_some h
      rw [hu q p hq]

theorem Positioned.getElem? {positions : g.Positions} (h : g.Positioned positions) (id : String) :
    positions[id]? = g.position? id := by
  ext p
  rw [h id p, position?_eq_some_iff h.uniqueIds]

/-! ## Links -/

theorem linkOf?_eq_some_iff (hu : g.UniqueIds) {p : Fin g.nodes.size} {e : AuthoredEdge}
    {link : Link g.nodes.size} :
    g.linkOf? p e = some link ↔ e.fromId = (g.node p).id ∧ e.toId = (g.node link.child).id ∧
      link.port = e.fromPort := by
  unfold linkOf?
  split
  · rename_i hp
    rw [Option.map_eq_some_iff]
    constructor
    · rintro ⟨c, hc, rfl⟩
      exact ⟨hp, ((position?_eq_some_iff hu).1 hc).symm, rfl⟩
    · rintro ⟨-, hc, hport⟩
      exact ⟨link.child, (position?_eq_some_iff hu).2 hc.symm, by rw [← hport]⟩
  · rename_i hp
    simp [hp]

/-- The links that edges make from a node, each child once. -/
def linksAmong (g : Graph) (p : Fin g.nodes.size) (es : List AuthoredEdge) :
    List (Link g.nodes.size) := firsts (·.child) (es.filterMap (g.linkOf? p))

theorem linksAmong_concat (p : Fin g.nodes.size) (es : List AuthoredEdge) (e : AuthoredEdge) :
    g.linksAmong p (es ++ [e]) =
      match g.linkOf? p e with
      | none => g.linksAmong p es
      | some link =>
        if (g.linksAmong p es).any (·.child = link.child) then g.linksAmong p es
        else g.linksAmong p es ++ [link] := by
  unfold linksAmong
  cases h : g.linkOf? p e with
  | none => simp [h]
  | some link =>
    rw [List.filterMap_append, List.filterMap_cons_some h, List.filterMap_nil]
    exact firsts_concat _ _ _

/-- One edge adds to the links of its source, if at all. -/
theorem addLink_get {positions : g.Positions} (h : g.Positioned positions)
    {adjacency : Adjacency g.nodes.size} {warnings : Array BakeWarning} {es : List AuthoredEdge}
    (hadj : ∀ p, adjacency.get p = g.linksAmong p es) (e : AuthoredEdge) (p : Fin g.nodes.size) :
    (g.addLink positions (adjacency, warnings) e).1.get p = g.linksAmong p (es ++ [e]) := by
  rw [linksAmong_concat, addLink, h.getElem?, h.getElem?]
  have hsource : ∀ q, g.position? e.fromId = some q → (e.fromId = (g.node p).id ↔ q = p) := by
    intro q hq
    rw [← (position?_eq_some_iff h.uniqueIds).1 hq]
    exact ⟨fun hqp => h.uniqueIds q p hqp, fun hqp => by rw [hqp]⟩
  cases hfrom : g.position? e.fromId with
  | none =>
    have hp : e.fromId ≠ (g.node p).id := fun hp => by
      rw [(position?_eq_some_iff h.uniqueIds).2 hp.symm] at hfrom
      cases hfrom
    simp [linkOf?, hp, hadj]
  | some q =>
    cases hto : g.position? e.toId with
    | none => simp [linkOf?, hto, hadj]
    | some c =>
      dsimp only
      by_cases hqp : q = p
      · subst hqp
        rw [linkOf?, if_pos ((hsource q hfrom).2 rfl), hto, hadj]
        dsimp only [Option.map_some]
        split
        · exact hadj q
        · exact (get_setIfInBounds ..).trans (if_pos rfl)
      · rw [linkOf?, if_neg (mt (hsource q hfrom).1 hqp), hadj q]
        split
        · exact hadj p
        · rw [get_setIfInBounds, if_neg hqp, hadj p]

theorem adjacency_get {positions : g.Positions} (h : g.Positioned positions)
    (p : Fin g.nodes.size) : (g.adjacency positions).1.get p = g.linksOf p := by
  rw [adjacency, ← Array.foldl_toList]
  refine foldl_keeps (I := fun done (resolved : Adjacency g.nodes.size × Array BakeWarning) =>
    ∀ p, resolved.1.get p = g.linksAmong p done) g.edges.toList ?_ ?_ p
  · intro q
    simp [linksAmong, firsts, Vector.get]
  · intro done e rest resolved _ hadj q
    exact addLink_get h hadj e q

theorem mem_linksAmong_iff (hu : g.UniqueIds) {p c : Fin g.nodes.size} {es : List AuthoredEdge} :
    c ∈ (g.linksAmong p es).map (·.child) ↔
      ∃ e ∈ es, e.fromId = (g.node p).id ∧ e.toId = (g.node c).id := by
  refine (mem_map_firsts _ _ c).trans ?_
  simp only [List.mem_map, List.mem_filterMap]
  constructor
  · rintro ⟨link, ⟨e, he, hlink⟩, rfl⟩
    obtain ⟨hfrom, hto, -⟩ := (linkOf?_eq_some_iff hu).1 hlink
    exact ⟨e, he, hfrom, hto⟩
  · rintro ⟨e, he, hfrom, hto⟩
    exact ⟨⟨c, e.fromPort⟩, ⟨e, he, (linkOf?_eq_some_iff hu).2 ⟨hfrom, hto, rfl⟩⟩, rfl⟩

/-- There is a link from one node to another exactly if an edge joins them. -/
theorem mem_linksOf_iff (hu : g.UniqueIds) {p c : Fin g.nodes.size} :
    c ∈ (g.linksOf p).map (·.child) ↔ g.Joins p c := by
  refine (mem_linksAmong_iff hu).trans ?_
  simp only [Array.mem_toList_iff, Joins]

theorem nodup_linksOf (p : Fin g.nodes.size) : ((g.linksOf p).map (·.child)).Nodup :=
  nodup_map_firsts _ _

theorem nodup_adjacency {positions : g.Positions} (h : g.Positioned positions)
    (p : Fin g.nodes.size) : (((g.adjacency positions).1.get p).map (·.child)).Nodup := by
  rw [adjacency_get h]
  exact nodup_linksOf p

theorem linked_iff {positions : g.Positions} (h : g.Positioned positions)
    {p c : Fin g.nodes.size} : (g.adjacency positions).1.Linked p c ↔ g.Joins p c := by
  rw [Adjacency.Linked, adjacency_get h, ← mem_linksOf_iff h.uniqueIds, List.mem_map]

end Graph

end BehaviorTree
