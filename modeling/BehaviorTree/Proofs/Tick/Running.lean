import BehaviorTree.Proofs.Tick.Traced

/-!
# Running ends the walk

Where no node below the root is parallel, the running entries of a trace stand at its end and lead
from a node up to the root (`RunsUp`); if the root does not run, no entry does. Below a parallel
node a running entry may be followed by others, but its parent runs as well, unless that is a
parallel node and fails. Both are in `tickTraced_running`, and both rest on what the status of a
node says of the last child that was reported (`Explains.running`).
-/

namespace BehaviorTree

open Relation Behavior Report

/-- The entries end with running ones that lead from a node up to the last entry, each the parent of
the one before it; those before are not running. -/
def RunsUp (t : BakedTree) (es : List TraceEntry) : Prop :=
  ∃ before path, es = before ++ path ∧ path ≠ [] ∧ (∀ e ∈ before, e.status ≠ .running) ∧
    (∀ e ∈ path, e.status = .running) ∧ path.IsChain fun e e' => e.index ∈ t.children e'.index

section
variable {kind : NodeKind} {children : List Nat} {reported : List TraceEntry} {status : Status}

theorem StopsAfter.running {pass : Status} (h : StopsAfter pass children reported status)
    (hpass : pass ≠ .running) : (∀ e ∈ reported.dropLast, e.status ≠ .running) ∧
      ∀ e ∈ reported.getLast?, e.status = .running → status = .running := by
  constructor
  · intro e he
    rw [h.passed e he]
    exact hpass
  · intro e he hrun
    rw [h.last, Option.mem_def.1 he]
    exact hrun

theorem FirstAlone.running {childless : Prop} {settles : Status → Prop}
    (h : FirstAlone children reported childless settles)
    (hrun : settles .running → status = .running) : (∀ e ∈ reported.dropLast, e.status ≠ .running) ∧
      ∀ e ∈ reported.getLast?, e.status = .running → status = .running := by
  cases children with
  | nil =>
    obtain ⟨rfl, -⟩ := h
    simp
  | cons child children =>
    obtain ⟨s, rfl, hs⟩ := h
    refine ⟨by simp, fun e he he' => hrun ?_⟩
    cases Option.mem_def.1 he
    cases he'
    exact hs

/-- Of the children that are reported of a node that is not parallel, only the last may run, and
then the node runs. -/
theorem Explains.running (h : Explains kind children reported status) (hk : kind ≠ .parallel) :
    (∀ e ∈ reported.dropLast, e.status ≠ .running) ∧
      ∀ e ∈ reported.getLast?, e.status = .running → status = .running := by
  have hnone : reported = [] → (∀ e ∈ reported.dropLast, e.status ≠ .running) ∧
      ∀ e ∈ reported.getLast?, e.status = .running → status = .running := by
    rintro rfl
    simp
  cases kind with
  | selector => exact StopsAfter.running h (by decide)
  | sequence => exact StopsAfter.running h (by decide)
  | parallel => exact absurd rfl hk
  | invert | succeeder | repeater => exact FirstAlone.running h id
  | interrupt =>
    rcases h with h | ⟨-, hr, -⟩
    · exact FirstAlone.running h id
    · exact hnone hr
  | action => exact hnone h
  | setBlackboard => exact hnone h.1
  | clearBlackboard => exact hnone h.1

/-- A running child of a parallel node makes it run or fail. -/
theorem Explains.parallel_running (h : Explains .parallel children reported status)
    {e : TraceEntry} (he : e ∈ reported) (hrun : e.status = .running) :
    status = .running ∨ status = .failure := by
  have hmem : Status.running ∈ reported.map (·.status) := hrun ▸ List.mem_map_of_mem he
  rw [h.2]
  split
  · exact .inr rfl
  · exact .inl rfl

end

/-! ## Reports -/

theorem mem_entriesOfAll {rs : List Report} {e : TraceEntry} :
    e ∈ entriesOfAll rs ↔ ∃ r ∈ rs, e ∈ r.entries := by
  induction rs with
  | nil => simp [entriesOfAll]
  | cons r rs ih => simp [entriesOfAll, ih]

theorem Behavior.AccountsAll.exists_of_mem {bs : List Behavior} {rs : List Report}
    (h : AccountsAll bs rs) {r : Report} (hr : r ∈ rs) : ∃ b ∈ bs, Accounts b r := by
  induction h using AccountsAll.pairs with
  | nil bs => cases hr
  | cons b bs r' rs hr' _ ih =>
    rcases List.mem_cons.1 hr with rfl | hr
    · exact ⟨b, by simp, hr'⟩
    · obtain ⟨c, hc, hcr⟩ := ih hr
      exact ⟨c, List.mem_cons_of_mem _ hc, hcr⟩

section
variable {t : BakedTree}

/-- What holds of the entries of one report: they run up to the topmost, or none runs. -/
def Report.RunsLast (t : BakedTree) (r : Report) : Prop :=
  if r.entry.status = .running then RunsUp t r.entries else ∀ e ∈ r.entries, e.status ≠ .running

theorem runsUp_concat {es : List TraceEntry} {e : TraceEntry} (hes : ∀ e ∈ es, e.status ≠ .running)
    (he : e.status = .running) : RunsUp t (es ++ [e]) :=
  ⟨es, [e], rfl, by simp, hes, by simpa using he, by simp⟩

theorem Report.RunsLast.none {r : Report} (h : r.RunsLast t) (hr : r.entry.status ≠ .running) :
    ∀ e ∈ r.entries, e.status ≠ .running := by
  rwa [RunsLast, if_neg hr] at h

/-- A node stands alone above reports where nothing runs, whether it runs or not. -/
theorem Report.runsLast_of_none {e : TraceEntry} {rs : List Report}
    (hrs : ∀ e' ∈ entriesOfAll rs, e'.status ≠ .running) : (node e rs).RunsLast t := by
  rw [RunsLast, entries, entry]
  split
  · rename_i he
    exact runsUp_concat hrs he
  · rename_i he
    exact List.forall_mem_append.2 ⟨hrs, by simpa using he⟩

/-- A running path goes on to the parent of its last node. -/
theorem RunsUp.concat {es es' : List TraceEntry} {c e : TraceEntry} (h : RunsUp t es')
    (hes : ∀ e ∈ es, e.status ≠ .running) (hc : es'.getLast? = some c)
    (hce : c.index ∈ t.children e.index) (he : e.status = .running) :
    RunsUp t (es ++ es' ++ [e]) := by
  obtain ⟨before, path, rfl, hne, hbefore, hpath, hchain⟩ := h
  refine ⟨es ++ before, path ++ [e], by simp, by simp, ?_, ?_, ?_⟩
  · intro e' he'
    exact (List.mem_append.1 he').elim (hes e') (hbefore e')
  · intro e' he'
    rcases List.mem_append.1 he' with he' | he'
    · exact hpath e' he'
    · rw [List.mem_singleton.1 he']
      exact he
  · rw [List.getLast?_append_of_ne_nil _ hne] at hc
    refine hchain.append (List.isChain_singleton e) fun c' hc' e' he' => ?_
    cases hc.symm.trans hc'
    cases he'
    exact hce

/-- A report where no node is parallel ends with its running entries. -/
theorem Behavior.Accounts.runsLast (hf : IsForest t.nodes) {b : Behavior} {r : Report}
    (hfit : b.Fits t.nodes) (h : Accounts b r)
    (hpar : ∀ i n, ReflTransGen (Child t.nodes) b.index i → t.get? i = some n →
      n.kind ≠ .parallel) : r.RunsLast t := by
  induction b generalizing r with
  | node i record bs ih =>
    obtain ⟨e, rs⟩ := r
    obtain ⟨hi, hrs, hex⟩ := accounts_node.1 h
    obtain ⟨hrecord, -, hbs⟩ := fits_node.1 hfit
    obtain ⟨hinit, hlast⟩ := hex.running (hpar i record .refl hrecord)
    have hchild : ∀ b ∈ bs, Child t.nodes i b.index := fun b hb =>
      (child_iff hfit).2 (List.mem_map_of_mem hb)
    have ih : ∀ r ∈ rs, r.RunsLast t ∧ r.entry.index ∈ t.children e.index := by
      intro r hr
      obtain ⟨b, hb, hbr⟩ := hrs.exists_of_mem hr
      refine ⟨ih b hb (hbs b hb) hbr fun j n hj => hpar j n (.head (hchild b hb) hj), ?_⟩
      rw [hbr.index_entry, hi, BakedTree.mem_children hf]
      exact hchild b hb
    rcases List.eq_nil_or_concat' rs with rfl | ⟨rs, r, rfl⟩
    · -- no child is reported: the entry of the node stands alone
      exact runsLast_of_none (by simp [entriesOfAll])
    · -- of the children only the last may run, so no entry below those before it does
      have hbefore : ∀ e ∈ entriesOfAll rs, e.status ≠ .running := by
        intro e he
        obtain ⟨r', hr', he⟩ := mem_entriesOfAll.1 he
        have hr : r'.entry.status ≠ .running := hinit r'.entry (by simpa using ⟨r', hr', rfl⟩)
        exact (ih r' (by simp [hr'])).1.none hr e he
      obtain ⟨hr, hparent⟩ := ih r (by simp)
      have hentries : entriesOfAll (rs ++ [r]) = entriesOfAll rs ++ r.entries := by
        rw [entriesOfAll_append, entriesOfAll, entriesOfAll, List.append_nil]
      by_cases hrun : r.entry.status = .running
      · -- the path of the last child goes on to the node
        have he : e.status = .running := hlast r.entry (by simp) hrun
        rw [RunsLast, if_pos hrun] at hr
        rw [RunsLast, entries, hentries, entry, if_pos he]
        exact hr.concat hbefore r.getLast?_entries hparent he
      · refine runsLast_of_none ?_
        rw [hentries]
        exact List.forall_mem_append.2 ⟨hbefore, hr.none hrun⟩

/-- Above a running entry that is not the last the parent runs, or it is parallel and fails. -/
theorem Behavior.Accounts.running_parent (hf : IsForest t.nodes) {b : Behavior} {r : Report}
    (hfit : b.Fits t.nodes) (h : Accounts b r) {e : TraceEntry} (he : e ∈ r.entries)
    (hrun : e.status = .running) (hne : e.index ≠ b.index) :
    ∃ p ∈ r.entries, e.index ∈ t.children p.index ∧ (p.status = .running ∨
      p.status = .failure ∧ ∃ n, t.get? p.index = some n ∧ n.kind = .parallel) := by
  have hbelow : ReflTransGen (Child t.nodes) b.index e.index :=
    hfit.mem_indices.1 (h.sublist.subset (List.mem_map_of_mem he))
  obtain heq | ⟨p, -, hpe⟩ := hbelow.cases_tail
  · exact absurd heq hne
  have hchild : e.index ∈ t.children p := (BakedTree.mem_children hf).2 hpe
  have hreported : p ∈ r.indices :=
    (h.parent_later hf hfit (List.mem_map_of_mem he) hne hpe).subset (by simp)
  obtain ⟨p, hp, rfl⟩ := List.mem_map.1 hreported
  obtain ⟨n, hn, hex⟩ := h.explains hf hfit hp
  have hmem : e ∈ r.entries.filter (·.index ∈ t.children p.index) := by
    simpa using ⟨he, hchild⟩
  refine ⟨p, hp, hchild, ?_⟩
  by_cases hk : n.kind = .parallel
  · rw [hk] at hex
    exact (hex.parallel_running hmem hrun).imp_right fun hfail => ⟨hfail, n, hn, hk⟩
  · obtain ⟨hinit, hlast⟩ := hex.running hk
    obtain ⟨init, last, hl⟩ := (List.eq_nil_or_concat' _).resolve_left (List.ne_nil_of_mem hmem)
    rw [hl] at hinit hlast hmem
    rcases List.mem_append.1 hmem with hmem | hmem
    · exact absurd hrun (hinit e (by simpa using hmem))
    · rw [List.mem_singleton] at hmem
      exact .inl (hlast last (by simp) (hmem ▸ hrun))

end

/-! ## Ticks -/

namespace BakedTree

variable {ε : Type} {t : BakedTree} {nodes : Array BakedNode} {ids : Array IdEntry}

/-- Where no node below the root is parallel, the running entries of a trace are its end, a path
from a node up to the root; none is running if the tick is not. Anywhere, the parent of a running
node but the root runs, unless it is a parallel node that fails. -/
theorem tickTraced_running (ht : ofNodes nodes ids = .ok t) (actions : ActionTable ε)
    (root : Int32) (dt : Float32) (w : World ε) :
    let traced := t.tickTraced actions root dt w .empty
    let es := traced.seen.entries.toList
    ((∀ i n, t.Below root i n → n.kind ≠ .parallel) →
      (traced.status = .running →
        RunsUp t es ∧ es.getLast?.map (·.index) = linkTarget? root) ∧
      (traced.status ≠ .running → ∀ e ∈ es, e.status ≠ .running)) ∧
    ∀ e ∈ es, e.status = .running → linkTarget? root ≠ some e.index →
      ∃ p ∈ es, e.index ∈ t.children p.index ∧ (p.status = .running ∨
        p.status = .failure ∧ ∃ n, t.get? p.index = some n ∧ n.kind = .parallel) := by
  have hf : IsForest t.nodes := forest_of_ofNodes ht
  intro traced es
  obtain ⟨hstatus, hes⟩ | ⟨b, r, hroot, hfits, hr, hentry, hes⟩ :=
    traced_cases hf actions root dt w
  · have hes : es = [] := hes
    have hstatus : traced.status = .failure := hstatus
    simp [hes, hstatus]
  · have hes : es = r.entries := hes
    have hentry : r.entry = ⟨b.index, traced.status⟩ := hentry
    rw [hroot, hes]
    constructor
    · intro hpar
      have hlast : r.RunsLast t := hr.runsLast hf hfits fun i n hi hn =>
        hpar i n ⟨⟨_, hroot, hi⟩, hn⟩
      rw [RunsLast, hentry] at hlast
      constructor
      · intro hrun
        rw [if_pos hrun] at hlast
        refine ⟨hlast, ?_⟩
        rw [r.getLast?_entries, hentry]
        rfl
      · intro hrun
        rwa [if_neg hrun] at hlast
    · intro e he hrun hne
      exact hr.running_parent hf hfits he hrun fun heq => hne (by rw [heq])

/-- A sequence of a leaf and a turned-around repeater. -/
def repeating : BakedTree where
  nodes := #[
    { BakedNode.ofKind .sequence with firstChild := 1 },
    { BakedNode.setBlackboard 7 1 with nextSibling := 2 },
    { BakedNode.ofKind .invert with firstChild := 3 },
    { BakedNode.repeater 2 with firstChild := 4 },
    .setBlackboard 8 1]
  ids := #[⟨"root", 0⟩]

/-- `tickTraced_running` at the root of `repeating`, where the repeater starts the path. -/
theorem tickTraced_running_repeating :
    let traced := repeating.tickTraced counting 0 0.5 ⟨.empty, 0⟩ .empty
    let es := traced.seen.entries.toList
    ofNodes repeating.nodes repeating.ids = .ok repeating ∧
      (∀ i n, repeating.Below 0 i n → n.kind ≠ .parallel) ∧ traced.status = .running ∧
      RunsUp repeating es ∧ es.getLast?.map (·.index) = some 0 := by
  intro traced es
  have ht : ofNodes repeating.nodes repeating.ids = .ok repeating := by cbv
  have hpar : ∀ i n, repeating.Below 0 i n → n.kind ≠ .parallel := by
    intro i n h
    have hall : ∀ n ∈ repeating.nodes, n.kind ≠ .parallel := by decide
    exact hall n (Array.mem_of_getElem? h.record)
  have hrun : (repeating.tickTraced counting 0 0.5 ⟨.empty, 0⟩ .empty).status = .running := by
    decide +kernel
  exact ⟨ht, hpar, hrun, ((tickTraced_running ht counting 0 0.5 ⟨.empty, 0⟩).1 hpar).1 hrun⟩

end BakedTree

end BehaviorTree
