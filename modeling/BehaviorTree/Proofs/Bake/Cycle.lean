import BehaviorTree.Bake.Cycle
import BehaviorTree.Proofs.Acyclic
import BehaviorTree.Proofs.Ends

/-!
# The search for a cycle

`isCycle_of_findCycle?`: a path that the search answers is a cycle of links, met at its first
repetition (`IsCycle`). `grounded_of_findCycle?`: when it answers none, no endless path of links
starts anywhere (`Grounded`), so the links are acyclic. Both come from what every step
of the search keeps, `SearchInv`: the open nodes are the active ones and make up a path, and the
links of an open node lead to finished nodes, to the next open node, or are still to follow.
-/

namespace BehaviorTree.Adjacency

open Relation

variable {n : Nat} {adjacency : Adjacency n}

/-! ## Cycles and paths without end -/

/-- A path of links from a node back to it that meets no other node twice. -/
def IsCycle (adjacency : Adjacency n) (path : List (Fin n)) : Prop :=
  ∃ first inner, path = first :: inner ++ [first] ∧ (first :: inner).Nodup ∧
    path.IsChain adjacency.Linked

/-- No endless path of links starts at a node. -/
def Grounded (adjacency : Adjacency n) (x : Fin n) : Prop :=
  Acc (fun child parent => adjacency.Linked parent child) x

theorem transGen_of_isChain {α : Type*} {R : α → α → Prop} {a b : α} {l : List α}
    (h : (a :: l ++ [b]).IsChain R) : TransGen R a b := by
  induction l generalizing a with
  | nil =>
    rw [List.singleton_append, List.isChain_pair] at h
    exact .single h
  | cons c l ih =>
    rw [List.cons_append, List.cons_append, List.isChain_cons_cons] at h
    exact .head h.1 (ih h.2)

/-! ## What the search keeps -/

/-- What is known of the open nodes of a search, if the innermost waits for `inner`. -/
def Waiting (adjacency : Adjacency n) : Option (Fin n) → Trail n → Prop
  | _, [] => True
  | inner, (node, links) :: outer =>
    (∀ link ∈ adjacency.get node, link ∈ links ∨ adjacency.Grounded link.child ∨
      inner = some link.child) ∧
    (∀ link ∈ links, link ∈ adjacency.get node) ∧
    (∀ child, inner = some child → adjacency.Linked node child) ∧
    Waiting adjacency (some node) outer

theorem Waiting.ground {x : Fin n} {trail : Trail n} (h : Waiting adjacency (some x) trail)
    (hx : adjacency.Grounded x) : Waiting adjacency none trail := by
  cases trail with
  | nil => trivial
  | cons frame outer =>
    obtain ⟨node, links⟩ := frame
    obtain ⟨hdone, hsub, -, houter⟩ := h
    refine ⟨fun link hl => ?_, hsub, by simp, houter⟩
    rcases hdone link hl with hl | hg | he
    · exact .inl hl
    · exact .inr (.inl hg)
    · cases he
      exact .inr (.inl hx)

/-- The open nodes, from the innermost outwards, are a path of links backwards. -/
theorem Waiting.isChain {inner : Option (Fin n)} {trail : Trail n}
    (h : Waiting adjacency inner trail) :
    (inner.toList ++ trail.map (·.1)).IsChain fun a b => adjacency.Linked b a := by
  induction trail generalizing inner with
  | nil => cases inner <;> simp
  | cons frame outer ih =>
    obtain ⟨node, links⟩ := frame
    obtain ⟨-, -, hinner, houter⟩ := h
    have hrest : (node :: outer.map (·.1)).IsChain fun a b => adjacency.Linked b a := ih houter
    cases inner with
    | none => exact hrest
    | some child => exact .cons_cons (hinner child rfl) hrest

/-- The state of a search, step after step. -/
structure SearchInv (adjacency : Adjacency n) (marks : Vector Mark n) (trail : Trail n) :
    Prop where
  active : ∀ x : Fin n, marks.get x = .active ↔ x ∈ trail.map (·.1)
  finished : ∀ x : Fin n, marks.get x = .finished → adjacency.Grounded x
  nodup : (trail.map (·.1)).Nodup
  waiting : Waiting adjacency none trail

theorem split_at_first {α : Type*} [DecidableEq α] {a : α} {l : List α} (h : a ∈ l) :
    ∃ rest, l = l.takeWhile (· ≠ a) ++ a :: rest := by
  induction l with
  | nil => cases h
  | cons b l ih =>
    by_cases hb : b = a
    · subst hb
      exact ⟨l, by simp⟩
    · obtain ⟨rest, hrest⟩ := ih ((List.mem_cons.1 h).resolve_left (Ne.symm hb))
      refine ⟨rest, ?_⟩
      rw [List.takeWhile_cons_of_pos (by simpa using hb), List.cons_append, ← hrest]

/-- Of a path backwards that comes back to `a`, the part up to there is a cycle. -/
theorem isCycle_of_isChain {a : Fin n} {path : List (Fin n)} (ha : a ∈ path) (hnd : path.Nodup)
    (hchain : (a :: path).IsChain fun b c => adjacency.Linked c b) :
    IsCycle adjacency (a :: (path.takeWhile (· ≠ a)).reverse ++ [a]) := by
  obtain ⟨rest, hsplit⟩ := split_at_first ha
  have hnot : a ∉ path.takeWhile (· ≠ a) := fun hmem => by
    simpa using List.mem_takeWhile_imp hmem
  refine ⟨a, _, rfl, ?_, ?_⟩
  · refine List.nodup_cons.2 ⟨by simpa using hnot, ?_⟩
    exact List.nodup_reverse.2 (hnd.sublist (List.takeWhile_sublist _))
  · have hpre : (a :: path.takeWhile (· ≠ a) ++ [a]) <+: (a :: path) := by
      refine ⟨rest, ?_⟩
      rw [List.cons_append, List.cons_append, List.append_assoc, List.singleton_append, ← hsplit]
    have := List.isChain_reverse.2 <| List.IsChain.prefix hchain hpre
    simpa using this

theorem get_set {α : Type*} (v : Vector α n) (i j : Fin n) (hi : i.1 < n) (a : α) :
    (v.set i a hi).get j = if i = j then a else v.get j := by
  simp only [Vector.get_eq_getElem, Vector.getElem_set, Fin.val_inj]

namespace SearchInv

variable {marks : Vector Mark n} {node : Fin n} {link : Link n} {links : List (Link n)}
  {outer : Trail n}

theorem initial : SearchInv adjacency (Vector.replicate n .unvisited) [] where
  active := by simp
  finished := by simp
  nodup := List.nodup_nil
  waiting := trivial

/-- A search begins. -/
theorem start (h : SearchInv adjacency marks []) (hnode : node.1 < n) :
    SearchInv adjacency (marks.set node .active hnode) [(node, adjacency.get node)] := by
  refine ⟨fun x => ?_, fun x hx => ?_, List.nodup_singleton _,
    ⟨fun l hl => .inl hl, fun l hl => hl, by simp, trivial⟩⟩
  · rw [get_set, List.map_singleton, List.mem_singleton]
    split
    · rename_i hx
      simp [hx]
    · rename_i hx
      rw [h.active x]
      simp [Ne.symm hx]
  · rw [get_set] at hx
    split at hx
    · cases hx
    · exact h.finished x hx

/-- The innermost node has no link left. -/
theorem close (h : SearchInv adjacency marks ((node, []) :: outer)) (hnode : node.1 < n) :
    SearchInv adjacency (marks.set node .finished hnode) outer := by
  obtain ⟨hdone, -, -, houter⟩ := h.waiting
  have hground : adjacency.Grounded node := by
    refine Acc.intro node ?_
    rintro child ⟨link, hl, rfl⟩
    exact ((hdone link hl).resolve_left List.not_mem_nil).resolve_right (by simp)
  have hnd := List.nodup_cons.1 h.nodup
  refine ⟨fun x => ?_, fun x hx => ?_, hnd.2, houter.ground hground⟩
  · rw [get_set]
    split
    · rename_i hx
      subst hx
      simpa using hnd.1
    · rename_i hx
      rw [h.active x, List.map_cons, List.mem_cons]
      simp [Ne.symm hx]
  · rw [get_set] at hx
    by_cases heq : node = x
    · exact heq ▸ hground
    · rw [if_neg heq] at hx
      exact h.finished x hx

/-- The next link leads to a node that the search has not seen. -/
theorem push (h : SearchInv adjacency marks ((node, link :: links) :: outer))
    (hnew : marks.get link.child = .unvisited) (hchild : link.child.1 < n) :
    SearchInv adjacency (marks.set link.child .active hchild)
      ((link.child, adjacency.get link.child) :: (node, links) :: outer) := by
  obtain ⟨hdone, hsub, -, houter⟩ := h.waiting
  have hlink : adjacency.Linked node link.child := ⟨link, hsub link (by simp), rfl⟩
  have hnot : link.child ∉ ((node, link :: links) :: outer).map (·.1) := by
    rw [← h.active, hnew]
    simp
  refine ⟨fun x => ?_, fun x hx => ?_, List.nodup_cons.2 ⟨hnot, h.nodup⟩,
    ⟨fun l hl => .inl hl, fun l hl => hl, by simp, fun l hl => ?_,
      fun l hl => hsub l (List.mem_cons_of_mem _ hl), ?_, houter⟩⟩
  · rw [get_set, List.map_cons, List.mem_cons]
    split
    · rename_i hx
      simp [hx]
    · rename_i hx
      rw [h.active x]
      simp [Ne.symm hx]
  · rw [get_set] at hx
    split at hx
    · cases hx
    · exact h.finished x hx
  · rcases hdone l hl with hl | hg | he
    · rcases List.mem_cons.1 hl with rfl | hl
      · exact .inr (.inr rfl)
      · exact .inl hl
    · exact .inr (.inl hg)
    · cases he
  · rintro child he
    cases he
    exact hlink

/-- The next link leads to a finished node. -/
theorem skip (h : SearchInv adjacency marks ((node, link :: links) :: outer))
    (hdone : marks.get link.child = .finished) :
    SearchInv adjacency marks ((node, links) :: outer) := by
  obtain ⟨hrest, hsub, -, houter⟩ := h.waiting
  refine ⟨h.active, h.finished, h.nodup, fun l hl => ?_,
    fun l hl => hsub l (List.mem_cons_of_mem _ hl), by simp, houter⟩
  rcases hrest l hl with hl | hg | he
  · rcases List.mem_cons.1 hl with rfl | hl
    · exact .inr (.inl (h.finished _ hdone))
    · exact .inl hl
  · exact .inr (.inl hg)
  · cases he

/-- The next link leads to an open node: the path from there on is a cycle. -/
theorem isCycle (h : SearchInv adjacency marks ((node, link :: links) :: outer))
    (hopen : marks.get link.child = .active) :
    IsCycle adjacency (cyclePath ((node, links) :: outer) link.child) := by
  obtain ⟨-, hsub, -, houter⟩ := h.waiting
  have hchain : (link.child :: node :: outer.map (·.1)).IsChain
      fun a b => adjacency.Linked b a :=
    .cons_cons ⟨link, hsub link (by simp), rfl⟩ houter.isChain
  exact isCycle_of_isChain ((h.active _).1 hopen) h.nodup hchain

end SearchInv

/-! ## What the search answers -/

/-- The nodes that the search has seen. -/
def Seen (marks : Vector Mark n) (x : Fin n) : Prop := marks.get x ≠ .unvisited

theorem Seen.set {marks : Vector Mark n} {x node : Fin n} (h : Seen marks x) (hnode : node.1 < n)
    {mark : Mark} (hmark : mark ≠ .unvisited) : Seen (marks.set node mark hnode) x := by
  unfold Seen
  rw [get_set]
  split
  · exact hmark
  · exact h

theorem search_ends {marks : Vector Mark n} {trail : Trail n}
    (h : SearchInv adjacency marks trail) :
    Ends (fun marks' => SearchInv adjacency marks' [] ∧ ∀ x, Seen marks x → Seen marks' x)
      (IsCycle adjacency) (search adjacency marks trail) := by
  fun_induction search with
  | case1 marks => exact ⟨h, fun _ hx => hx⟩
  | case2 marks node outer ih =>
    exact (ih (h.close _)).mono
      (fun _ hm => ⟨hm.1, fun x hx => hm.2 x (hx.set _ (by decide))⟩) fun _ he => he
  | case3 marks node link links outer hnew ih =>
    exact (ih (h.push hnew _)).mono
      (fun _ hm => ⟨hm.1, fun x hx => hm.2 x (hx.set _ (by decide))⟩) fun _ he => he
  | case4 marks node link links outer hopen => exact h.isCycle hopen
  | case5 marks node link links outer hdone ih => exact ih (h.skip hdone)

theorem searchFrom_ends {marks : Vector Mark n} (h : SearchInv adjacency marks []) (start : Fin n) :
    Ends (fun marks' => SearchInv adjacency marks' [] ∧ ∀ x, Seen marks x ∨ x = start →
      Seen marks' x) (IsCycle adjacency) (searchFrom adjacency marks start) := by
  unfold searchFrom
  split
  · refine (search_ends (h.start _)).mono (fun _ hm => ⟨hm.1, ?_⟩) fun _ he => he
    rintro x (hx | rfl)
    · exact hm.2 x (hx.set _ (by decide))
    · refine hm.2 x ?_
      rw [Seen, get_set, if_pos rfl]
      decide
  · rename_i hseen
    refine ⟨h, ?_⟩
    rintro x (hx | rfl)
    · exact hx
    · exact hseen

/-- The search finds a cycle, or has seen and grounded every node. -/
theorem findCycle?_ends (adjacency : Adjacency n) :
    Ends (fun _ => ∀ x, adjacency.Grounded x) (IsCycle adjacency)
      ((List.finRange n).foldlM adjacency.searchFrom (Vector.replicate n .unvisited)) := by
  have key := Ends.foldlM (E := IsCycle adjacency)
    (I := fun done marks => SearchInv adjacency marks [] ∧ ∀ x ∈ done, Seen marks x)
    (f := adjacency.searchFrom) (List.finRange n) (b := Vector.replicate n .unvisited)
    ⟨SearchInv.initial, by simp⟩ ?_
  · refine key.mono (fun marks hm x => ?_) fun _ he => he
    obtain ⟨hinv, hseen⟩ := hm
    cases hx : marks.get x with
    | unvisited => exact absurd hx (hseen x (List.mem_finRange x))
    | active => exact absurd ((hinv.active x).1 hx) List.not_mem_nil
    | finished => exact hinv.finished x hx
  · rintro done start rest marks - ⟨hinv, hseen⟩
    refine (searchFrom_ends hinv start).mono (fun _ hm => ⟨hm.1, fun x hx => hm.2 x ?_⟩)
      fun _ he => he
    rw [List.mem_append, List.mem_singleton] at hx
    exact hx.imp_left (hseen x)

theorem isCycle_of_findCycle? {path : List (Fin n)} (h : adjacency.findCycle? = some path) :
    IsCycle adjacency path := by
  have hends := findCycle?_ends adjacency
  unfold findCycle? at h
  split at h
  · cases h
  · rename_i he
    cases h
    exact hends.of_error he

theorem grounded_of_findCycle? (h : adjacency.findCycle? = none) (x : Fin n) :
    adjacency.Grounded x := by
  have hends := findCycle?_ends adjacency
  unfold findCycle? at h
  split at h
  · rename_i hok
    exact hends.of_ok hok x
  · cases h

theorem acyclic_of_findCycle? (h : adjacency.findCycle? = none) : Acyclic adjacency.Linked :=
  .of_acc (grounded_of_findCycle? h)

end BehaviorTree.Adjacency
