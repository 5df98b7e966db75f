import BehaviorTree.Proofs.Tick.Report
import BehaviorTree.Proofs.Tick.Shape

/-!
# The order of reports

Where a report on a behaviour of a forest lists an index, the report on the behaviour there stands
as one block (`Within`, `exists_within`). From the block of a node: its parent is reported later
(`Accounts.parent_later`), what is reported of the nodes below it is the block
(`Within.mem_indices_iff`), and the entries of its children are those of the block's own reports
(`Within.filter_children`). `Accounts.isPostOrder` puts this together.
-/

namespace BehaviorTree

open Relation Machine Report

namespace Report

/-- The indices of the entries in order. -/
def indices (r : Report) : List Nat := r.entries.map (·.index)

theorem entriesOfAll_append (rs rs' : List Report) :
    entriesOfAll (rs ++ rs') = entriesOfAll rs ++ entriesOfAll rs' := by
  induction rs with
  | nil => simp [entriesOfAll]
  | cons r rs ih => simp [entriesOfAll, ih]

theorem getLast?_entries (r : Report) : r.entries.getLast? = some r.entry := by
  cases r
  simp [entries, entry]

end Report

namespace Behavior

theorem indicesOfAll_append (bs bs' : List Behavior) :
    indicesOfAll (bs ++ bs') = indicesOfAll bs ++ indicesOfAll bs' := by
  induction bs with
  | nil => simp [indicesOfAll]
  | cons b bs ih => simp [indicesOfAll, ih]

/-! ## Reports and their parts -/

/-- Where reports of behaviours hold an index, they split around the report of one of these. -/
theorem AccountsAll.split {bs : List Behavior} {rs : List Report} (h : AccountsAll bs rs) {p : Nat}
    (hp : p ∈ (entriesOfAll rs).map (·.index)) :
    ∃ bs₁ b bs₂ rs₁ r rs₂, bs = bs₁ ++ b :: bs₂ ∧ rs = rs₁ ++ r :: rs₂ ∧ AccountsAll bs₁ rs₁ ∧
      Accounts b r ∧ AccountsAll bs₂ rs₂ ∧ p ∈ r.indices := by
  induction h using AccountsAll.pairs with
  | nil bs => simp [entriesOfAll] at hp
  | cons b bs r rs hr hrs ih =>
    rw [entriesOfAll, List.map_append, List.mem_append] at hp
    rcases hp with hp | hp
    · exact ⟨[], b, bs, [], r, rs, rfl, rfl, accountsAll_nil _, hr, hrs, hp⟩
    · obtain ⟨bs₁, b', bs₂, rs₁, r', rs₂, rfl, rfl, h₁, hr', h₂, hp⟩ := ih hp
      exact ⟨b :: bs₁, b', bs₂, r :: rs₁, r', rs₂, rfl, rfl, accountsAll_cons.2 ⟨hr, h₁⟩, hr', h₂,
        hp⟩

theorem AccountsAll.sublist_of {bs : List Behavior} {rs : List Report} (h : AccountsAll bs rs)
    (hsub : ∀ b ∈ bs, ∀ r, Accounts b r → r.indices.Sublist b.indices) :
    ((entriesOfAll rs).map (·.index)).Sublist (indicesOfAll bs) := by
  induction h using AccountsAll.pairs with
  | nil bs => exact List.nil_sublist _
  | cons b bs r rs hr _ ih =>
    rw [entriesOfAll, List.map_append, indicesOfAll]
    exact (hsub b (by simp) r hr).append (ih fun c hc => hsub c (List.mem_cons_of_mem _ hc))

/-- What is reported of a behaviour are indices of it, in its order. -/
theorem Accounts.sublist {b : Behavior} {r : Report} (h : Accounts b r) :
    r.indices.Sublist b.indices := by
  induction b generalizing r with
  | node i record bs ih =>
    obtain ⟨e, rs⟩ := r
    obtain ⟨rfl, hrs, -⟩ := accounts_node.1 h
    rw [Report.indices, entries, List.map_append, indices]
    exact (hrs.sublist_of fun b hb r hr => ih b hb hr).append (List.Sublist.refl _)

theorem AccountsAll.sublist {bs : List Behavior} {rs : List Report} (h : AccountsAll bs rs) :
    ((entriesOfAll rs).map (·.index)).Sublist (indicesOfAll bs) :=
  h.sublist_of fun _ _ _ hr => hr.sublist

theorem AccountsAll.first {bs : List Behavior} {rs : List Report} (h : AccountsAll bs rs) :
    (rs.map entry).map (·.index) <+: bs.map index := by
  induction h using AccountsAll.pairs with
  | nil bs => exact List.nil_prefix
  | cons b bs r rs hr _ ih =>
    simp only [List.map_cons, hr.index_entry, List.prefix_cons_inj]
    exact ih

/-- In the entries `es` stands the report `r` of the behaviour `b`, and what is around it is of no
node of `b`. -/
structure Within (nodes : Array BakedNode) (es : List TraceEntry) (b : Behavior) (r : Report) :
    Prop where
  fits : b.Fits nodes
  accounts : Accounts b r
  around : ∃ before after, es = before ++ r.entries ++ after ∧
    ∀ e ∈ before ++ after, e.index ∉ b.indices

section
variable {nodes : Array BakedNode}

theorem Within.self {b : Behavior} {r : Report} (hfit : b.Fits nodes) (h : Accounts b r) :
    Within nodes r.entries b r := ⟨hfit, h, [], [], by simp, by simp⟩

theorem Fits.indices_subset {b b' : Behavior} (h : b.Fits nodes) (h' : b'.Fits nodes)
    (hmem : b'.index ∈ b.indices) : b'.indices ⊆ b.indices := fun _ hj =>
  h.mem_indices.2 ((h.mem_indices.1 hmem).trans (h'.mem_indices.1 hj))

/-- A part of a part is a part. -/
theorem Within.trans {es : List TraceEntry} {b b' : Behavior} {r r' : Report}
    (h : Within nodes es b r) (h' : Within nodes r.entries b' r') (hmem : b'.index ∈ b.indices) :
    Within nodes es b' r' := by
  obtain ⟨hfit, -, before, after, hes, hout⟩ := h
  obtain ⟨hfit', hacc, before', after', hr, hout'⟩ := h'
  have hsub := hfit.indices_subset hfit' hmem
  refine ⟨hfit', hacc, before ++ before', after' ++ after, by simp [hes, hr], fun e he => ?_⟩
  by_cases hin : e ∈ before ++ after
  · exact fun hmem => hout e hin (hsub hmem)
  · refine hout' e ?_
    simp only [List.mem_append] at he hin ⊢
    tauto

theorem within_child (hf : IsForest nodes) {i : Nat} {record : BakedNode} {bs : List Behavior}
    {e : TraceEntry} {rs : List Report} (hfit : (node i record bs).Fits nodes)
    (h : Accounts (node i record bs) (.node e rs)) {p : Nat}
    (hp : p ∈ (entriesOfAll rs).map (·.index)) :
    ∃ b ∈ bs, ∃ r, p ∈ r.indices ∧ Within nodes (Report.node e rs).entries b r := by
  obtain ⟨hi, hrs, -⟩ := accounts_node.1 h
  obtain ⟨bs₁, b, bs₂, rs₁, r, rs₂, rfl, rfl, h₁, hr, h₂, hp⟩ := hrs.split hp
  have hnd := hfit.nodup_indices hf
  rw [indices, indicesOfAll_append, indicesOfAll, List.append_assoc, List.append_assoc] at hnd
  obtain ⟨-, hrest, hbefore⟩ := List.nodup_append.1 hnd
  obtain ⟨-, -, hafter⟩ := List.nodup_append.1 hrest
  refine ⟨b, by simp, r, hp, (fits_node.1 hfit).2.2 b (by simp), hr, entriesOfAll rs₁,
    entriesOfAll rs₂ ++ [e], ?_, fun e' he' hb => ?_⟩
  · simp [entries, entriesOfAll_append, entriesOfAll]
  · rcases List.mem_append.1 he' with he' | he'
    · have hin := h₁.sublist.subset (List.mem_map_of_mem he')
      exact hbefore _ hin _ (List.mem_append_left _ hb) rfl
    · refine hafter _ hb _ ?_ rfl
      rcases List.mem_append.1 he' with he' | he'
      · exact List.mem_append_left _ (h₂.sublist.subset (List.mem_map_of_mem he'))
      · rw [List.mem_singleton.1 he', hi]
        simp

/-- Around every index that is reported stands the report of the behaviour there. -/
theorem exists_within (hf : IsForest nodes) {b : Behavior} {r : Report} (hfit : b.Fits nodes)
    (h : Accounts b r) {p : Nat} (hp : p ∈ r.indices) :
    ∃ b' r', b'.index = p ∧ Within nodes r.entries b' r' := by
  induction b generalizing r with
  | node i record bs ih =>
    obtain ⟨e, rs⟩ := r
    by_cases hpi : p = i
    · subst hpi
      exact ⟨_, _, rfl, .self hfit h⟩
    · have hp' : p ∈ (entriesOfAll rs).map (·.index) := by
        have hi : e.index = i := (accounts_node.1 h).1
        simpa [Report.indices, entries, hi, hpi] using hp
      obtain ⟨b, hb, r, hpr, hw⟩ := within_child hf hfit h hp'
      obtain ⟨b', r', rfl, hw'⟩ := ih b hb hw.fits hw.accounts hpr
      exact ⟨b', r', rfl, hw.trans hw' (hw.accounts.sublist.subset hpr)⟩

/-- What is reported below a node is reported in its block. -/
theorem Within.mem_indices_iff {es : List TraceEntry} {b : Behavior} {r : Report}
    (h : Within nodes es b r) {j : Nat} (hj : j ∈ es.map (·.index)) :
    j ∈ r.indices ↔ ReflTransGen (Child nodes) b.index j := by
  obtain ⟨hfit, hacc, before, after, rfl, hout⟩ := h
  rw [← hfit.mem_indices]
  refine ⟨fun hjr => hacc.sublist.subset hjr, fun hjb => ?_⟩
  obtain ⟨e, he, rfl⟩ := List.mem_map.1 hj
  rw [List.append_assoc, List.mem_append, List.mem_append] at he
  rcases he with he | he | he
  · exact absurd hjb (hout e (List.mem_append_left _ he))
  · exact List.mem_map_of_mem he
  · exact absurd hjb (hout e (List.mem_append_right _ he))

/-- Above an index that is reported and not the root's, the parent is reported, and later. -/
theorem Accounts.parent_later (hf : IsForest nodes) {b : Behavior} {r : Report}
    (hfit : b.Fits nodes) (h : Accounts b r) {p c : Nat} (hc : c ∈ r.indices)
    (hne : c ≠ b.index) (hpc : Child nodes p c) : [c, p].Sublist r.indices := by
  induction b generalizing r with
  | node i record bs ih =>
    obtain ⟨e, rs⟩ := r
    have hi : e.index = i := (accounts_node.1 h).1
    have hc' : c ∈ (entriesOfAll rs).map (·.index) := by
      rw [index] at hne
      simpa [Report.indices, entries, hi, hne] using hc
    obtain ⟨b, hb, r, hcr, hw⟩ := within_child hf hfit h hc'
    by_cases hcb : c = b.index
    · have hchild : Child nodes i c := (child_iff hfit).2 (hcb ▸ List.mem_map_of_mem hb)
      cases hf.child_leftUnique hpc hchild
      rw [Report.indices, entries, List.map_append, List.map_singleton, hi]
      exact (List.singleton_sublist.2 hc').append (List.Sublist.refl _)
    · have hlater := ih b hb hw.fits hw.accounts hcr hcb
      obtain ⟨before, after, hes, -⟩ := hw.around
      rw [Report.indices, hes, List.map_append, List.map_append]
      exact (hlater.trans (List.sublist_append_right _ _)).trans (List.sublist_append_left _ _)

end

/-! ## The reported children of a node -/

theorem Accounts.filter_entries {b : Behavior} {r : Report} (h : Accounts b r)
    (hnd : b.indices.Nodup) {cs : List Nat} (hb : b.index ∈ cs)
    (hcs : ∀ j ∈ b.indices, j ∈ cs → j = b.index) :
    r.entries.filter (·.index ∈ cs) = [r.entry] := by
  obtain ⟨i, record, bs⟩ := b
  obtain ⟨e, rs⟩ := r
  obtain ⟨hi, hrs, -⟩ := accounts_node.1 h
  obtain ⟨-, -, hapart⟩ := List.nodup_append.1 hnd
  have hinner : (entriesOfAll rs).filter (·.index ∈ cs) = [] := by
    simp only [List.filter_eq_nil_iff, decide_eq_true_eq]
    intro e' he' hmem
    have hin := hrs.sublist.subset (List.mem_map_of_mem he')
    exact hapart _ hin i (by simp) (hcs _ (List.mem_append_left _ hin) hmem)
  rw [entries, List.filter_append, hinner, entry, List.nil_append]
  exact List.filter_eq_self.2 (by simpa [hi, index] using hb)

theorem AccountsAll.filter_entries {bs : List Behavior} {rs : List Report} (h : AccountsAll bs rs)
    {cs : List Nat} (hbs : ∀ b ∈ bs, b.indices.Nodup ∧ b.index ∈ cs ∧
      ∀ j ∈ b.indices, j ∈ cs → j = b.index) :
    (entriesOfAll rs).filter (·.index ∈ cs) = rs.map entry := by
  induction h using AccountsAll.pairs with
  | nil bs => rfl
  | cons b bs r rs hr _ ih =>
    obtain ⟨hnd, hb, hcs⟩ := hbs b (by simp)
    rw [entriesOfAll, List.filter_append, hr.filter_entries hnd hb hcs,
      ih fun c hc => hbs c (List.mem_cons_of_mem _ hc)]
    rfl

section
variable {t : BakedTree} (hf : IsForest t.nodes)
include hf

/-- The entries of a node's children, picked out of a trace, are those of its report. -/
theorem Within.filter_children {es : List TraceEntry} {i : Nat} {record : BakedNode}
    {bs : List Behavior} {e : TraceEntry} {rs : List Report}
    (h : Within t.nodes es (node i record bs) (.node e rs)) :
    es.filter (·.index ∈ t.children i) = rs.map entry := by
  obtain ⟨hfit, hacc, before, after, rfl, hout⟩ := h
  obtain ⟨hi, hrs, -⟩ := accounts_node.1 hacc
  rw [children_of_fits hf hfit]
  have hchild : ∀ b ∈ bs, Child t.nodes i b.index := fun b hb =>
    (child_iff hfit).2 (List.mem_map_of_mem hb)
  have hbelow : ∀ j ∈ bs.map index, j ∈ (node i record bs).indices := fun j hj =>
    hfit.mem_indices.2 (.single ((child_iff hfit).2 hj))
  have hnone : ∀ es' : List TraceEntry, es' ⊆ before ++ after →
      es'.filter (·.index ∈ bs.map index) = [] := by
    intro es' hsub
    simp only [List.filter_eq_nil_iff, decide_eq_true_eq]
    exact fun e' he' hmem => hout e' (hsub he') (hbelow _ hmem)
  have hown : [e].filter (·.index ∈ bs.map index) = [] := by
    simp only [List.filter_eq_nil_iff, decide_eq_true_eq, List.mem_singleton, forall_eq, hi]
    exact fun hmem => hf.child_acyclic i (.single ((child_iff hfit).2 hmem))
  have hinner : (entriesOfAll rs).filter (·.index ∈ bs.map index) = rs.map entry := by
    refine hrs.filter_entries fun b hb => ?_
    have hb' := (fits_node.1 hfit).2.2 b hb
    refine ⟨hb'.nodup_indices hf, List.mem_map_of_mem hb, fun j hj hmem => ?_⟩
    -- what is below one child and a child itself is that child
    exact (eq_of_below hf.child_leftUnique hf.child_acyclic (hchild b hb)
      ((child_iff hfit).2 hmem) (hb'.mem_indices.1 hj) .refl).symm
  rw [entries, List.filter_append, List.filter_append, List.filter_append, hinner, hown,
    hnone before (List.subset_append_left _ _), hnone after (List.subset_append_right _ _)]
  simp

end

end Behavior

/-- Indices are a post-order of a part of the tree below `root`, to which the parent of every node
in it but the root belongs. -/
structure IsPostOrder (t : BakedTree) (root : Nat) (is : List Nat) : Prop where
  nodup : is.Nodup
  below : ∀ i ∈ is, ReflTransGen (Child t.nodes) root i
  parent : ∀ p, ∀ c ∈ t.children p, c ∈ is → c ≠ root → [c, p].Sublist is
  block : ∀ p ∈ is, ∃ before inner after, is = before ++ (inner ++ [p]) ++ after ∧
    ∀ i ∈ is, i ∈ inner ++ [p] ↔ ReflTransGen (Child t.nodes) p i
  siblings : ∀ p, (is.filter (· ∈ t.children p)).Sublist (t.children p)

namespace Behavior

variable {t : BakedTree} (hf : IsForest t.nodes) {b : Behavior} {r : Report}
  (hfit : b.Fits t.nodes) (h : Accounts b r)
include hf hfit h

theorem Accounts.nodup_indices : r.indices.Nodup := (hfit.nodup_indices hf).sublist h.sublist

theorem Accounts.block {p : Nat} (hp : p ∈ r.indices) :
    ∃ before inner after, r.indices = before ++ (inner ++ [p]) ++ after ∧
      ∀ i ∈ r.indices, i ∈ inner ++ [p] ↔ ReflTransGen (Child t.nodes) p i := by
  obtain ⟨b', ⟨e, rs⟩, rfl, hw⟩ := exists_within hf hfit h hp
  have hinner : (Report.node e rs).indices =
      (entriesOfAll rs).map (·.index) ++ [b'.index] := by
    rw [← hw.accounts.index_entry, Report.indices, entries, List.map_append, List.map_singleton,
      entry]
  obtain ⟨before, after, hes, -⟩ := hw.around
  refine ⟨before.map (·.index), (entriesOfAll rs).map (·.index), after.map (·.index), ?_, ?_⟩
  · rw [← hinner, Report.indices, Report.indices, hes, List.map_append, List.map_append]
  · intro i hi
    rw [← hinner]
    exact hw.mem_indices_iff hi

theorem Accounts.siblings (p : Nat) :
    (r.indices.filter (· ∈ t.children p)).Sublist (t.children p) := by
  by_cases hp : p ∈ r.indices
  · obtain ⟨⟨i, record, bs⟩, ⟨e, rs⟩, rfl, hw⟩ := exists_within hf hfit h hp
    rw [Report.indices, List.filter_map]
    change ((r.entries.filter (·.index ∈ t.children i)).map (·.index)).Sublist (t.children i)
    rw [hw.filter_children hf, children_of_fits hf hw.fits]
    exact (accounts_node.1 hw.accounts).2.1.first.sublist
  · -- only the topmost node is reported without its parent
    have hroot : ∀ c ∈ r.indices.filter (· ∈ t.children p), c = b.index := by
      intro c hc
      obtain ⟨hc, hpc⟩ := List.mem_filter.1 hc
      by_contra hne
      have hlater := h.parent_later hf hfit hc hne
        ((BakedTree.mem_children hf).1 (of_decide_eq_true hpc))
      exact hp (hlater.subset (by simp))
    have hnd := (h.nodup_indices hf hfit).filter (· ∈ t.children p)
    have hmem : ∀ c ∈ r.indices.filter (· ∈ t.children p), c ∈ t.children p := fun c hc =>
      of_decide_eq_true (List.mem_filter.1 hc).2
    rcases hl : r.indices.filter (· ∈ t.children p) with _ | ⟨c, _ | ⟨c', cs⟩⟩
    · exact List.nil_sublist _
    · exact List.singleton_sublist.2 (hmem c (by simp [hl]))
    · rw [hl] at hnd hroot
      have hsame : c = c' := (hroot c (by simp)).trans (hroot c' (by simp)).symm
      simp [hsame] at hnd

/-- The indices of a report are a post-order. -/
theorem Accounts.isPostOrder : IsPostOrder t b.index r.indices where
  nodup := h.nodup_indices hf hfit
  below _ hi := hfit.mem_indices.1 (h.sublist.subset hi)
  parent _ _ hpc hc hne := h.parent_later hf hfit hc hne ((BakedTree.mem_children hf).1 hpc)
  block _ hp := h.block hf hfit hp
  siblings := h.siblings hf hfit

/-- What is reported of a node follows from what is reported of its children. -/
theorem Accounts.explains {e : TraceEntry} (he : e ∈ r.entries) :
    ∃ record, t.get? e.index = some record ∧ Explains record.kind (t.children e.index)
      (r.entries.filter (·.index ∈ t.children e.index)) e.status := by
  obtain ⟨⟨i, record, bs⟩, ⟨e', rs⟩, hi, hw⟩ :=
    exists_within hf hfit h (List.mem_map_of_mem he)
  obtain ⟨hi', -, hex⟩ := accounts_node.1 hw.accounts
  have hmem : e' ∈ r.entries := by
    obtain ⟨before, after, hes, -⟩ := hw.around
    simp [hes, entries]
  have hsame : e' = e := by
    refine List.inj_on_of_nodup_map (h.nodup_indices hf hfit) hmem he ?_
    exact hi'.trans hi
  change i = e.index at hi
  refine ⟨record, ?_, ?_⟩
  · rw [← hi]
    exact (fits_node.1 hw.fits).1
  · rw [← hi, hw.filter_children hf, children_of_fits hf hw.fits, ← hsame]
    exact hex

end Behavior

end BehaviorTree
