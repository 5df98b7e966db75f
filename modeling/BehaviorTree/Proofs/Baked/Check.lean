import BehaviorTree.Proofs.Baked.Links
import BehaviorTree.Proofs.Ends

/-!
# What the check of a baked tree accepts

`ofNodes_eq_ok_iff`: the passes of `ofNodes` accept records and ids exactly if they make up a tree
(`IsTree`), and by `ofNodes_ends` an error is true of what is refused (`Refuses`). The first pass
(`claimLinks`) finds the targets of all links or a fault among them (`ClaimFault`); the second
(`walkRoots`) walks from every index that no link leads to. Its invariant is `Walked`: what was
visited or is on the stack was reached from a start, and a link from a visited index leads to one
of these. No walk comes to an index twice (`walkRoots_ok`), and what no walk comes to is on a loop
of links or behind one (`visited_iff`).
-/

namespace BehaviorTree.BakedTree

open Relation

/-! ## What is refused -/

/-- A link leads nowhere or to one of `n` nodes. -/
def LinkFits (n : Nat) (link : Int32) : Prop :=
  link = noNode ∨ ∃ target < n, linkTarget? link = some target

/-- The index is on a loop of links, or links lead to it from one. -/
def BehindLoop (nodes : Array BakedNode) (j : Nat) : Prop :=
  ∃ i, TransGen (Leads nodes) i i ∧ ReflTransGen (Leads nodes) i j

/-- What an error says of the records and ids that are refused. -/
def Refuses (nodes : Array BakedNode) (ids : Array IdEntry) : TreeError → Prop
  | .empty => nodes.size = 0
  | .linkOutOfRange source link size => size = nodes.size ∧ ¬ LinkFits size link ∧
    ∃ n, nodes[source]? = some n ∧ link ∈ n.links
  | .rootIsLinked source => Leads nodes source 0
  | .sharedOrCyclic k => 2 ≤ (linkTargets nodes).count k ∨
    ((linkTargets nodes).Nodup ∧ IsLeast {j | BehindLoop nodes j} k)
  | .rootHasSibling => ∃ n, nodes[0]? = some n ∧ n.nextSibling ≠ noNode
  | .idOutOfRange id index size =>
    IsForest nodes ∧ size = nodes.size ∧ ⟨id, index⟩ ∈ ids ∧ size ≤ index

theorem not_isTree_of_refuses {nodes : Array BakedNode} {ids : Array IdEntry} {e : TreeError}
    (h : Refuses nodes ids e) : ¬ IsTree nodes ids := by
  rintro ⟨hf, hids⟩
  cases e with
  | empty => exact absurd h hf.nonempty.ne'
  | linkOutOfRange source link size =>
    obtain ⟨rfl, hfit, n, hn, hlink⟩ := h
    exact hfit (hf.inRange n (Array.mem_of_getElem? hn) link hlink)
  | rootIsLinked source => exact hf.rootUnlinked (mem_linkTargets.2 ⟨source, h⟩)
  | sharedOrCyclic k =>
    rcases h with hcount | ⟨-, ⟨i, hi, -⟩, -⟩
    · have := List.nodup_iff_count_le_one.1 hf.unshared k
      omega
    · exact hf.acyclic i hi
  | rootHasSibling =>
    obtain ⟨n, hn, hnext⟩ := h
    exact hnext (hf.rootAlone n hn)
  | idOutOfRange id index size =>
    obtain ⟨-, rfl, hmem, hle⟩ := h
    exact (hids _ hmem).not_ge hle

/-! ## Claiming the targets of links -/

/-- The marks after links to `targets` were claimed. -/
structure Claimed {n : Nat} (targets : List Nat) (claimed : Vector Bool n) : Prop where
  mark : ∀ i : Nat, claimed[i]? = some true ↔ i ∈ targets
  rootUnlinked : 0 ∉ targets
  unshared : targets.Nodup

/-- The fault of a link of the node `source`, when earlier links lead to `targets`. -/
inductive ClaimFault (n : Nat) (targets : List Nat) (source : Nat) (link : Int32) :
    TreeError → Prop
  | outOfRange (h : ¬ LinkFits n link) :
    ClaimFault n targets source link (.linkOutOfRange source link n)
  | root (h : linkTarget? link = some 0) : ClaimFault n targets source link (.rootIsLinked source)
  | shared {k : Nat} (h : linkTarget? link = some k) (hk : k ∈ targets) :
    ClaimFault n targets source link (.sharedOrCyclic k)

/-- A fault is one of the records, if the earlier links are those of the nodes before and those
of the node itself before. -/
theorem ClaimFault.refuses {nodes : Array BakedNode} {before after : List BakedNode}
    {node : BakedNode} {done rest : List Int32} {link : Int32} {e : TreeError}
    (h : ClaimFault nodes.size (before.flatMap (·.targets) ++ done.filterMap linkTarget?)
      before.length link e)
    (hnodes : nodes.toList = before ++ node :: after) (hlinks : node.links = done ++ link :: rest)
    (ids : Array IdEntry) : Refuses nodes ids e := by
  have hnode : nodes[before.length]? = some node := by simp [← Array.getElem?_toList, hnodes]
  have hlink : link ∈ node.links := by simp [hlinks]
  cases h with
  | outOfRange hfit => exact ⟨rfl, hfit, node, hnode, hlink⟩
  | root h0 => exact ⟨node, hnode, List.mem_filterMap.2 ⟨link, hlink, h0⟩⟩
  | @shared k hk hmem =>
    have hsplit : linkTargets nodes =
        (before.flatMap (·.targets) ++ done.filterMap linkTarget?) ++
          k :: (rest.filterMap linkTarget? ++ after.flatMap (·.targets)) := by
      simp [linkTargets, hnodes, BakedNode.targets, hlinks, hk]
    have := List.count_pos_iff.2 hmem
    refine .inl ?_
    rw [hsplit, List.count_append, List.count_cons_self]
    omega

variable {n : Nat}

theorem claimed_nil : Claimed [] (Vector.replicate n false) :=
  ⟨fun i => by simp [Vector.getElem?_replicate], List.not_mem_nil, List.nodup_nil⟩

theorem Claimed.claim {targets : List Nat} {claimed : Vector Bool n} (h : Claimed targets claimed)
    {t : Nat} (hlt : t < n) (h0 : t ≠ 0) (hnew : t ∉ targets) :
    Claimed (targets ++ [t]) (claimed.set t true hlt) := by
  refine ⟨fun i => ?_, ?_, List.nodup_append.2 ⟨h.unshared, List.nodup_singleton t, ?_⟩⟩
  · rw [Vector.getElem?_set]
    by_cases hi : t = i
    · subst hi
      simp
    · simp [hi, h.mark i, Ne.symm hi]
  · simpa [Ne.symm h0] using h.rootUnlinked
  · intro a ha b hb hab
    rw [List.mem_singleton] at hb
    exact hnew (hb ▸ hab ▸ ha)

theorem claimLink_ends {targets : List Nat} {claimed : Vector Bool n} (h : Claimed targets claimed)
    (source : Nat) (link : Int32) :
    Ends (fun c => LinkFits n link ∧ Claimed (targets ++ (linkTarget? link).toList) c)
      (ClaimFault n targets source link) (claimLink source claimed link) := by
  unfold claimLink
  split
  · rename_i hl
    subst hl
    exact ⟨.inl rfl, by simpa using h⟩
  · rename_i hl
    cases ht : linkTarget? link with
    | none =>
      refine .outOfRange ?_
      simp [LinkFits, hl, ht]
    | some t =>
      simp only [Option.toList_some]
      split
      · rename_i hlt
        split
        · rename_i h0
          exact .root (h0 ▸ ht)
        · rename_i h0
          split
          · rename_i hc
            exact .shared ht ((h.mark t).1 (by rw [Vector.getElem?_eq_getElem hlt, hc]))
          · rename_i hc
            have hnew : t ∉ targets := fun hm => hc <| by
              have := (h.mark t).2 hm
              rwa [Vector.getElem?_eq_getElem hlt, Option.some.injEq] at this
            exact ⟨.inr ⟨t, hlt, ht⟩, h.claim hlt h0 hnew⟩
      · rename_i hge
        refine .outOfRange ?_
        simpa [LinkFits, hl, ht] using hge

theorem claimNode_ends {targets : List Nat} {claimed : Vector Bool n} (h : Claimed targets claimed)
    (source : Nat) (node : BakedNode) :
    Ends (fun c => (∀ link ∈ node.links, LinkFits n link) ∧ Claimed (targets ++ node.targets) c)
      (fun e => ∃ done link rest, node.links = done ++ link :: rest ∧
        ClaimFault n (targets ++ done.filterMap linkTarget?) source link e)
      (node.links.foldlM (claimLink source) claimed) := by
  refine Ends.foldlM (I := fun links c => (∀ link ∈ links, LinkFits n link) ∧
    Claimed (targets ++ links.filterMap linkTarget?) c) node.links ⟨by simp, by simpa using h⟩ ?_
  rintro done link rest c hl ⟨hfit, hc⟩
  have heq : (done ++ [link]).filterMap linkTarget? =
      done.filterMap linkTarget? ++ (linkTarget? link).toList := by
    cases ht : linkTarget? link <;> simp [ht]
  refine (claimLink_ends hc source link).mono (fun c' ⟨hf, hc'⟩ => ⟨?_, ?_⟩) fun e he =>
    ⟨done, link, rest, hl, he⟩
  · simpa [or_imp, forall_and, hf] using hfit
  · rwa [heq, ← List.append_assoc]

theorem claimLinks_ends (nodes : Array BakedNode) (ids : Array IdEntry) :
    Ends (fun c => (∀ node ∈ nodes, ∀ link ∈ node.links, LinkFits nodes.size link) ∧
        Claimed (linkTargets nodes) c)
      (Refuses nodes ids) (claimLinks nodes) := by
  have hmap : nodes.zipIdx.toList.map (·.1) = nodes.toList := by simp
  unfold claimLinks
  rw [← Array.foldlM_toList]
  have key := Ends.foldlM (E := Refuses nodes ids)
    (f := fun (claimed : Vector Bool nodes.size) (p : BakedNode × Nat) =>
      p.1.links.foldlM (claimLink p.2) claimed)
    (I := fun done c => (∀ p ∈ done, ∀ link ∈ p.1.links, LinkFits nodes.size link) ∧
      Claimed ((done.map (·.1)).flatMap (·.targets)) c)
    nodes.zipIdx.toList ⟨by simp, by simpa using claimed_nil⟩ ?_
  · refine key.mono (fun c ⟨hfit, hc⟩ => ⟨fun node hn => ?_, ?_⟩) fun _ he => he
    · rw [← Array.mem_toList_iff, ← hmap] at hn
      obtain ⟨p, hp, rfl⟩ := List.mem_map.1 hn
      exact hfit p hp
    · rwa [hmap] at hc
  · rintro done ⟨node, source⟩ rest c hl ⟨hfit, hc⟩
    refine (claimNode_ends hc source node).mono (fun c' ⟨hf, hc'⟩ => ⟨?_, ?_⟩) ?_
    · intro p hp
      rcases List.mem_append.1 hp with hp | hp
      · exact hfit p hp
      · rw [List.mem_singleton.1 hp]
        exact hf
    · simpa using hc'
    · rintro e ⟨links, link, others, hlinks, he⟩
      -- a node is paired with the number of nodes before it
      have hsource : source = done.length := by
        have hpair : nodes.zipIdx.toList[done.length]? = some (node, source) := by
          rw [hl, List.getElem?_append_right le_rfl, Nat.sub_self, List.getElem?_cons_zero]
        rw [Array.toList_zipIdx, List.getElem?_zipIdx, Option.map_eq_some_iff] at hpair
        obtain ⟨_, -, hpair⟩ := hpair
        simpa using (congrArg Prod.snd hpair).symm
      have hnodes : nodes.toList = done.map (·.1) ++ node :: rest.map (·.1) := by
        rw [← hmap, hl, List.map_append, List.map_cons]
      rw [hsource, ← List.length_map (f := (·.1))] at he
      exact he.refuses hnodes hlinks ids

/-! ## Walking from the starts -/

variable {nodes : Array BakedNode}

/-- What a walk from `starts` has done when `visited` is marked and `stack` is to be visited. -/
structure Walked (nodes : Array BakedNode) (starts : List Nat) (visited : Vector Bool nodes.size)
    (stack : List Nat) : Prop where
  started : ∀ i ∈ starts, visited[i]? = some true ∨ i ∈ stack
  closed : ∀ i j, visited[i]? = some true → Leads nodes i j →
    visited[j]? = some true ∨ j ∈ stack
  origin : ∀ j, visited[j]? = some true ∨ j ∈ stack →
    j ∈ starts ∨ ∃ i, visited[i]? = some true ∧ Leads nodes i j
  reached : ∀ j, visited[j]? = some true ∨ j ∈ stack →
    ∃ i ∈ starts, ReflTransGen (Leads nodes) i j
  bound : ∀ j ∈ stack, j < nodes.size

/-- Nothing on the stack was visited before, or is there twice. -/
def Fresh (visited : Vector Bool nodes.size) (stack : List Nat) : Prop :=
  stack.Nodup ∧ ∀ j ∈ stack, visited[j]? ≠ some true

/-- No link leads to a start. -/
def Unled (nodes : Array BakedNode) (starts : List Nat) : Prop :=
  ∀ j ∈ starts, ∀ i, ¬ Leads nodes i j

section
variable {starts stack : List Nat} {visited : Vector Bool nodes.size} {i : Nat}

theorem getElem?_visit (h : i < nodes.size) (j : Nat) :
    (visited.set i true)[j]? = some true ↔ i = j ∨ visited[j]? = some true := by
  rw [Vector.getElem?_set]
  by_cases hij : i = j
  · subst hij
    simp
  · simp [hij]

theorem leads_of_get (h : i < nodes.size) (j : Nat) :
    Leads nodes i j ↔ j ∈ nodes[i].nextSibling?.toList ++ nodes[i].firstChild?.toList := by
  rw [leads_iff]
  simp [firstChildOf, siblingOf, h, or_comm]

/-- Visiting the topmost index keeps what a walk has done. -/
theorem Walked.visit (hw : Walked nodes starts visited (i :: stack)) (h : i < nodes.size)
    (hb : ∀ j, Leads nodes i j → j < nodes.size) :
    Walked nodes starts (visited.set i true)
      (nodes[i].nextSibling?.toList ++ nodes[i].firstChild?.toList ++ stack) := by
  have hnew : ∀ j, (visited.set i true)[j]? = some true ∨
      j ∈ nodes[i].nextSibling?.toList ++ nodes[i].firstChild?.toList ++ stack ↔
      (visited[j]? = some true ∨ j ∈ i :: stack) ∨ Leads nodes i j := by
    intro j
    rw [getElem?_visit h, List.mem_append, ← leads_of_get h, List.mem_cons]
    grind
  refine ⟨fun j hj => (hnew j).2 (.inl (hw.started j hj)), fun j k hj hk => (hnew k).2 ?_,
    fun j hj => ?_, fun j hj => ?_, fun j hj => ?_⟩
  · rw [getElem?_visit h] at hj
    rcases hj with rfl | hj
    · exact .inr hk
    · exact .inl (hw.closed j k hj hk)
  · rcases (hnew j).1 hj with hj | hj
    · rcases hw.origin j hj with hs | ⟨k, hk, hkj⟩
      · exact .inl hs
      · exact .inr ⟨k, (getElem?_visit h k).2 (.inr hk), hkj⟩
    · exact .inr ⟨i, (getElem?_visit h i).2 (.inl rfl), hj⟩
  · rcases (hnew j).1 hj with hj | hj
    · exact hw.reached j hj
    · obtain ⟨s, hs, hsi⟩ := hw.reached i (.inr (by simp))
      exact ⟨s, hs, hsi.tail hj⟩
  · rw [List.mem_append, ← leads_of_get h] at hj
    rcases hj with hj | hj
    · exact hb j hj
    · exact hw.bound j (List.mem_cons_of_mem _ hj)

/-- A walk that has ended goes on from one more start. -/
theorem Walked.start (hw : Walked nodes starts visited []) (h : i < nodes.size) :
    Walked nodes (starts ++ [i]) visited [i] := by
  refine ⟨fun j hj => ?_, fun j k hj hk => ?_, fun j hj => ?_, fun j hj => ?_, by simpa using h⟩
  · rcases List.mem_append.1 hj with hj | hj
    · exact .inl ((hw.started j hj).resolve_right List.not_mem_nil)
    · exact .inr hj
  · exact .inl ((hw.closed j k hj hk).resolve_right List.not_mem_nil)
  · rcases hj with hj | hj
    · exact (hw.origin j (.inl hj)).imp_left (List.mem_append_left _)
    · exact .inl (List.mem_append_right _ hj)
  · rcases hj with hj | hj
    · obtain ⟨s, hs, hsj⟩ := hw.reached j (.inl hj)
      exact ⟨s, List.mem_append_left _ hs, hsj⟩
    · exact ⟨i, by simp, by rw [List.mem_singleton.1 hj]⟩

/-- Where no index is the target of two links, the targets of a node that is visited for the first
time are new. -/
theorem Fresh.visit (hu : Unshared nodes) (hs : Unled nodes starts)
    (hw : Walked nodes starts visited (i :: stack)) (hfr : Fresh visited (i :: stack))
    (h : i < nodes.size) :
    Fresh (visited.set i true)
      (nodes[i].nextSibling?.toList ++ nodes[i].firstChild?.toList ++ stack) := by
  obtain ⟨hnd, hnot⟩ := hfr
  obtain ⟨hi, hnd⟩ := List.nodup_cons.1 hnd
  -- a target of `i` has no other source, and `i` was not visited
  have hnew : ∀ j, Leads nodes i j → ¬ (visited[j]? = some true ∨ j ∈ i :: stack) := by
    intro j hij hj
    rcases hw.origin j hj with hst | ⟨k, hk, hkj⟩
    · exact hs j hst i hij
    · cases hu.leftUnique hij hkj
      exact hnot i (by simp) hk
  refine ⟨List.nodup_append.2 ⟨?_, hnd, ?_⟩, fun j hj => ?_⟩
  · rw [List.nodup_append]
    refine ⟨by cases nodes[i].nextSibling? <;> simp, by cases nodes[i].firstChild? <;> simp, ?_⟩
    rintro a ha b hb rfl
    rw [Option.mem_toList] at ha hb
    have hfirst : firstChildOf nodes i = some a := by simpa [firstChildOf, h] using hb
    have hnext : siblingOf nodes i = some a := by simpa [siblingOf, h] using ha
    exact hu.apart hfirst hnext
  · rintro a ha b hb rfl
    exact hnew a ((leads_of_get h a).2 ha) (.inr (List.mem_cons_of_mem _ hb))
  · rw [Ne, getElem?_visit h]
    rw [List.mem_append, ← leads_of_get h] at hj
    rcases hj with hj | hj
    · rintro (rfl | hv)
      · exact hnew i hj (.inr List.mem_cons_self)
      · exact hnew j hj (.inl hv)
    · rintro (rfl | hv)
      · exact hi hj
      · exact hnot j (List.mem_cons_of_mem _ hj) hv

end

theorem walk_ok {starts : List Nat} (hb : ∀ i j, Leads nodes i j → j < nodes.size)
    (hu : Unshared nodes) (hs : Unled nodes starts) (visited : Vector Bool nodes.size)
    (stack : List Nat) (hw : Walked nodes starts visited stack) (hf : Fresh visited stack) :
    ∃ v, walk nodes visited stack = .ok v ∧ Walked nodes starts v [] := by
  fun_induction walk nodes visited stack with
  | case1 visited => exact ⟨visited, rfl, hw⟩
  | case2 visited i stack h hv =>
    refine absurd ?_ (hf.2 i (by simp))
    rw [Vector.getElem?_eq_getElem h, hv]
  | case3 visited i stack h hv ih => exact ih (hw.visit h (hb i)) (Fresh.visit hu hs hw hf h)
  | case4 visited i stack h ih => exact absurd (hw.bound i (by simp)) h

/-! ## Walking from every index that no link leads to -/

/-- The indices among `is` that no link was found to lead to. -/
def unclaimed (claimed : Vector Bool nodes.size) (is : List Nat) : List Nat :=
  is.filter fun i => !claimed[i]?.getD true

theorem walked_nil : Walked nodes [] (Vector.replicate nodes.size false) [] := by
  have hno : ∀ i : Nat, (Vector.replicate nodes.size false)[i]? ≠ some true := fun i => by
    simp [Vector.getElem?_replicate]
  exact ⟨by simp, fun i _ hi => absurd hi (hno i), fun j hj => absurd hj (by simp [hno j]),
    fun j hj => absurd hj (by simp [hno j]), by simp⟩

section
variable {claimed : Vector Bool nodes.size} (hc : Claimed (linkTargets nodes) claimed)
include hc

theorem getD_claimed {i : Nat} (h : i < nodes.size) :
    claimed[i]?.getD true = true ↔ ∃ k, Leads nodes k i := by
  rw [← mem_linkTargets, ← hc.mark i, Vector.getElem?_eq_getElem h]
  simp

theorem unled_unclaimed {is : List Nat} (h : ∀ i ∈ is, i < nodes.size) :
    Unled nodes (unclaimed claimed is) := by
  intro j hj i hij
  obtain ⟨hj, hcl⟩ := List.mem_filter.1 hj
  rw [(getD_claimed hc (h j hj)).2 ⟨i, hij⟩] at hcl
  cases hcl

/-- The walks from all indices that no link leads to come to no index twice. -/
theorem walkRoots_ok (hb : ∀ i j, Leads nodes i j → j < nodes.size) (hu : Unshared nodes) :
    ∃ v, walkRoots nodes claimed = .ok v ∧
      Walked nodes (unclaimed claimed (List.range nodes.size)) v [] := by
  refine Ends.exists_ok (E := fun _ => False) ?_ fun _ => id
  refine Ends.foldlM (I := fun done v => Walked nodes (unclaimed claimed done) v []) _
    walked_nil ?_
  intro done i rest v hl hw
  have hsub : (done ++ [i]).Sublist (done ++ i :: rest) := by simp
  have hlt : ∀ j ∈ done ++ [i], j < nodes.size := fun j hj =>
    List.mem_range.1 (hl ▸ hsub.subset hj)
  by_cases hcl : claimed[i]?.getD true = true
  · rw [if_pos hcl]
    simpa [unclaimed, List.filter_append, hcl] using hw
  rw [if_neg hcl]
  have hstarts : unclaimed claimed (done ++ [i]) = unclaimed claimed done ++ [i] := by
    simp [unclaimed, List.filter_append, hcl]
  have hun := unled_unclaimed hc hlt
  rw [hstarts] at hun ⊢
  -- `i` is a new start that nothing leads to, so no earlier walk came there
  have hnew : v[i]? ≠ some true := by
    intro hv
    rcases hw.origin i (.inl hv) with hd | ⟨k, -, hk⟩
    · exact not_mem_done List.nodup_range hl (List.mem_filter.1 hd).1
    · exact hun i (by simp) k hk
  obtain ⟨v', hv', hw'⟩ := walk_ok hb hu hun v [i] (hw.start (hlt i (by simp)))
    ⟨List.nodup_singleton i, by simpa using hnew⟩
  rw [hv']
  exact hw'

/-- The walks come to all but what is on a loop of links or behind one. -/
theorem visited_iff (hu : Unshared nodes) {v : Vector Bool nodes.size}
    (hw : Walked nodes (unclaimed claimed (List.range nodes.size)) v []) {i : Nat}
    (hi : i < nodes.size) : v[i]? = some true ↔ ¬ BehindLoop nodes i := by
  constructor
  · rintro hv ⟨c, hloop, hci⟩
    obtain ⟨s, hs, hsi⟩ := hw.reached i (.inl hv)
    have hun : ∀ k, ¬ Leads nodes k s :=
      unled_unclaimed hc (fun j hj => List.mem_range.1 hj) s hs
    have hsc : ReflTransGen (Leads nodes) s c := by
      rcases total_of_leftUnique hu.leftUnique hci hsi with hcs | hsc
      · rcases hcs.cases_tail with rfl | ⟨k, -, hk⟩
        · exact .refl
        · exact absurd hk (hun k)
      · exact hsc
    obtain ⟨k, -, hk⟩ := TransGen.tail'_iff.1 (loop_of_above hu.leftUnique hloop hsc)
    exact hun k hk
  · intro hno
    -- the links above `i`, backwards
    have hup : Acyclic fun j k => Leads nodes k j ∧ ReflTransGen (Leads nodes) j i := by
      intro j hj
      obtain ⟨k, ⟨-, hji⟩, -⟩ := TransGen.head'_iff.1 hj
      exact hno ⟨j, transGen_swap.1 (TransGen.mono (fun _ _ h => h.1) _ _ hj), hji⟩
    refine hup.of_depth (s := Finset.range nodes.size)
      (P := fun _ j => ReflTransGen (Leads nodes) j i → j < nodes.size → v[j]? = some true)
      (fun j k hk => by simpa using lt_of_leads hk.1) ?_ i (by simpa using hi) .refl hi
    intro _ j ih hji hj
    by_cases hcl : claimed[j]?.getD true = true
    · obtain ⟨k, hk⟩ := (getD_claimed hc hj).1 hcl
      have hvk := ih k ⟨hk, hji⟩ (.head hk hji) (lt_of_leads hk)
      exact (hw.closed k j hvk hk).resolve_right List.not_mem_nil
    · have : j ∈ unclaimed claimed (List.range nodes.size) := by
        simpa [unclaimed, hj] using hcl
      exact (hw.started j this).resolve_right List.not_mem_nil

end

/-! ## The check -/

theorem BehindLoop.lt (hb : ∀ i j, Leads nodes i j → j < nodes.size) {j : Nat}
    (h : BehindLoop nodes j) : j < nodes.size := by
  obtain ⟨i, hi, hij⟩ := h
  rcases hij.cases_tail with rfl | ⟨k, -, hkj⟩
  · obtain ⟨k, hk, -⟩ := TransGen.head'_iff.1 hi
    exact lt_of_leads hk
  · exact hb k j hkj

theorem findIdx?_eq_none_iff_visited {v : Vector Bool nodes.size} :
    v.toArray.findIdx? (· = false) = none ↔ ∀ i < nodes.size, v[i]? = some true := by
  rw [Array.findIdx?_eq_none_iff]
  constructor
  · intro h i hi
    have := h v[i] (by simp [Vector.mem_toArray_iff])
    rw [Vector.getElem?_eq_getElem hi]
    simpa using this
  · intro h a ha
    obtain ⟨i, hi, rfl⟩ := Array.mem_iff_getElem.1 ha
    have := h i (by simpa using hi)
    rw [Vector.getElem?_eq_getElem (by simpa using hi)] at this
    simpa using this

theorem isLeast_of_findIdx? {v : Vector Bool nodes.size} {k : Nat}
    (h : v.toArray.findIdx? (· = false) = some k) :
    IsLeast {i | i < nodes.size ∧ v[i]? ≠ some true} k := by
  obtain ⟨hk, hfalse, hbefore⟩ := Array.findIdx?_eq_some_iff_getElem.1 h
  have hlt : k < nodes.size := by simpa using hk
  refine ⟨⟨hlt, ?_⟩, fun j ⟨hj, hjv⟩ => not_lt.1 fun hjk => ?_⟩
  · rw [Vector.getElem?_eq_getElem hlt]
    simpa using hfalse
  · have := hbefore j hjk
    rw [Vector.getElem?_eq_getElem hj] at hjv
    simp at this hjv
    rw [hjv] at this
    cases this

theorem checkNodes_ends (nodes : Array BakedNode) (ids : Array IdEntry) :
    Ends (fun _ => IsForest nodes) (Refuses nodes ids) (checkNodes nodes) := by
  unfold checkNodes
  split
  · rename_i h0
    refine (claimLinks_ends nodes ids).bind fun claimed ⟨hfit, hc⟩ => ?_
    have hb : ∀ i j, Leads nodes i j → j < nodes.size := fun _ _ => target_lt_of_inRange hfit
    have hu : Unshared nodes := unshared_of_nodup hc.unshared
    split
    · rename_i halone
      obtain ⟨v, hv, hw⟩ := walkRoots_ok hc hb hu
      have hbehind : {i | i < nodes.size ∧ v[i]? ≠ some true} = {i | BehindLoop nodes i} := by
        ext i
        refine ⟨fun ⟨hi, hno⟩ => ?_, fun hloop => ⟨hloop.lt hb, fun hyes => ?_⟩⟩
        · exact not_not.1 (mt (visited_iff hc hu hw hi).2 hno)
        · exact (visited_iff hc hu hw (hloop.lt hb)).1 hyes hloop
      rw [hv]
      dsimp only [bind, Except.bind]
      split
      · rename_i k hk
        exact .inr ⟨hc.unshared, hbehind ▸ isLeast_of_findIdx? hk⟩
      · rename_i hk
        refine ⟨h0, hfit, hc.unshared, hc.rootUnlinked, fun n hn => ?_, fun i hi => ?_⟩
        · rw [Array.getElem?_eq_getElem h0] at hn
          cases hn
          exact halone
        · have hloop : BehindLoop nodes i := ⟨i, hi, .refl⟩
          have hvi := findIdx?_eq_none_iff_visited.1 hk i (hloop.lt hb)
          exact (visited_iff hc hu hw (hloop.lt hb)).1 hvi hloop
    · rename_i halone
      exact ⟨nodes[0], Array.getElem?_eq_getElem h0, halone⟩
  · rename_i h0
    exact Nat.eq_zero_of_not_pos h0

theorem ofNodes_ends (nodes : Array BakedNode) (ids : Array IdEntry) :
    Ends (fun t => IsTree nodes ids ∧ t = ⟨nodes, ids⟩) (Refuses nodes ids)
      (ofNodes nodes ids) := by
  refine (checkNodes_ends nodes ids).bind fun _ hf => ?_
  split
  · rename_i e he
    exact ⟨hf, rfl, Array.mem_of_find?_eq_some he, by simpa using Array.find?_some he⟩
  · rename_i hnone
    refine ⟨⟨hf, fun e he => ?_⟩, rfl⟩
    simpa using Array.find?_eq_none.1 hnone e he

theorem ofNodes_eq_ok_iff {nodes : Array BakedNode} {ids : Array IdEntry} {t : BakedTree} :
    ofNodes nodes ids = .ok t ↔ IsTree nodes ids ∧ t = ⟨nodes, ids⟩ := by
  refine ⟨(ofNodes_ends nodes ids).of_ok, ?_⟩
  rintro ⟨htree, rfl⟩
  obtain ⟨t, ht, -, rfl⟩ := (ofNodes_ends nodes ids).exists_ok fun e he =>
    not_isTree_of_refuses he htree
  exact ht

/-- The records of an accepted tree make up a forest. -/
theorem forest_of_ofNodes {nodes : Array BakedNode} {ids : Array IdEntry} {t : BakedTree}
    (ht : ofNodes nodes ids = .ok t) : IsForest t.nodes := by
  obtain ⟨⟨hf, -⟩, rfl⟩ := ofNodes_eq_ok_iff.1 ht
  exact hf

end BehaviorTree.BakedTree
