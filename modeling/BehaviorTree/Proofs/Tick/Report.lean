import BehaviorTree.Proofs.Tick.Rules
import BehaviorTree.Tick.Trace

/-!
# Reports

A `Report` holds what one evaluation tells its observer, as a tree: an entry for a node above the
reports of those of its children that were evaluated. In `Report.entries` every entry is behind
those below it. A report `Accounts` for a behaviour if its reports are of the first children,
in order, and the status of every node follows from what was reported of its children
(`Explains`). `exists_report`: every evaluation has a report that accounts for the behaviour.
-/

namespace BehaviorTree

open Machine

/-! ## What reported children say of a status -/

/-- Children were evaluated in order until one did not settle with `pass`. -/
structure StopsAfter (pass : Status) (children : List Nat) (reported : List TraceEntry)
    (status : Status) : Prop where
  first : reported.map (·.index) <+: children
  passed : ∀ e ∈ reported.dropLast, e.status = pass
  all : (∀ e ∈ reported.getLast?, e.status = pass) → reported.map (·.index) = children
  last : status = (reported.getLast?.map (·.status)).getD pass

/-- The first child alone was evaluated, or `childless` holds because there is none. -/
def FirstAlone (children : List Nat) (reported : List TraceEntry) (childless : Prop)
    (settles : Status → Prop) : Prop :=
  match children with
  | [] => reported = [] ∧ childless
  | child :: _ => ∃ status, reported = [⟨child, status⟩] ∧ settles status

/-- What a kind of node settles with follows from the entries of its children. -/
def Explains (kind : NodeKind) (children : List Nat) (reported : List TraceEntry)
    (status : Status) : Prop :=
  match kind with
  | .selector => StopsAfter .failure children reported status
  | .sequence => StopsAfter .success children reported status
  | .parallel =>
    reported.map (·.index) = children ∧
      status = if .failure ∈ reported.map (·.status) then .failure
        else if .running ∈ reported.map (·.status) then .running else .success
  | .invert => FirstAlone children reported (status = .failure) fun
    | .success => status = .failure
    | .failure => status = .success
    | .running => status = .running
  | .succeeder => FirstAlone children reported (status = .success) fun
    | .success | .failure => status = .success
    | .running => status = .running
  | .repeater => FirstAlone children reported (status = .success) fun
    | .success => status = .success ∨ status = .running
    | .failure => status = .failure
    | .running => status = .running
  | .interrupt =>
    FirstAlone children reported (status = .success) (fun s => status = s) ∨
      children ≠ [] ∧ reported = [] ∧ status = .failure
  | .action => reported = []
  | .setBlackboard | .clearBlackboard => reported = [] ∧ status = .success

section
variable {pass status : Status} {child : Nat} {children : List Nat} {reported : List TraceEntry}

theorem stopsAfter_nil (pass : Status) : StopsAfter pass [] [] pass :=
  ⟨List.prefix_rfl, by simp, fun _ => rfl, rfl⟩

theorem stopsAfter_stop (h : status ≠ pass) :
    StopsAfter pass (child :: children) [⟨child, status⟩] status :=
  ⟨by simp, by simp, fun hp => absurd (hp ⟨child, status⟩ (by simp)) h, rfl⟩

theorem StopsAfter.cons (h : StopsAfter pass children reported status) :
    StopsAfter pass (child :: children) (⟨child, pass⟩ :: reported) status := by
  obtain ⟨hfirst, hpassed, hall, hlast⟩ := h
  cases reported with
  | nil =>
    have hnone : [] = children := hall (by simp)
    subst hnone
    exact ⟨by simp, by simp, by simp, by simpa using hlast⟩
  | cons e es =>
    refine ⟨by simpa using hfirst, ?_, fun hp => ?_, ?_⟩
    · simpa using hpassed
    · rw [List.map_cons, hall (by simpa using hp)]
    · simpa using hlast

/-- A repeater that counts a success is done, or goes on. -/
theorem countRepeat_counted {ε : Type} (key : Key) (target : Int32) (w : World ε) :
    (countRepeat key target .success w).1 = .success ∨
      (countRepeat key target .success w).1 = .running := by
  dsimp only [countRepeat]
  split
  · exact .inl rfl
  · exact .inr rfl

end

/-! ## Reports -/

/-- The entry of a node above the reports of its children. -/
inductive Report
  | node (entry : TraceEntry) (children : List Report)

namespace Report

def entry : Report → TraceEntry
  | node e _ => e

mutual

/-- The entries of a report, each behind those below it. -/
def entries : Report → List TraceEntry
  | node e rs => entriesOfAll rs ++ [e]

def entriesOfAll : List Report → List TraceEntry
  | [] => []
  | r :: rs => r.entries ++ entriesOfAll rs

end

end Report

open Report

namespace Behavior

mutual

/-- A report is of what a behaviour may do. -/
def Accounts : Behavior → Report → Prop
  | .node i record bs, .node e rs =>
    e.index = i ∧ AccountsAll bs rs ∧
      Explains record.kind (bs.map index) (rs.map entry) e.status

/-- Reports are of what the first behaviours may do, one after the other. -/
def AccountsAll : List Behavior → List Report → Prop
  | [], rs => rs = []
  | b :: bs, rs =>
    match rs with
    | [] => True
    | r :: rs => Accounts b r ∧ AccountsAll bs rs

end

theorem accountsAll_nil (bs : List Behavior) : AccountsAll bs [] := by
  cases bs <;> simp [AccountsAll]

theorem accountsAll_cons {b : Behavior} {bs : List Behavior} {r : Report} {rs : List Report} :
    AccountsAll (b :: bs) (r :: rs) ↔ Accounts b r ∧ AccountsAll bs rs := by
  rw [AccountsAll]

/-- Induction on the pairs of a behaviour and its report. -/
@[elab_as_elim]
theorem AccountsAll.pairs {P : ∀ bs rs, AccountsAll bs rs → Prop}
    (nil : ∀ bs, P bs [] (accountsAll_nil bs))
    (cons : ∀ b bs r rs (hr : Accounts b r) (hrs : AccountsAll bs rs), P bs rs hrs →
      P (b :: bs) (r :: rs) (accountsAll_cons.2 ⟨hr, hrs⟩))
    {bs : List Behavior} {rs : List Report} (h : AccountsAll bs rs) : P bs rs h := by
  induction bs generalizing rs with
  | nil =>
    have hnone : rs = [] := by rwa [AccountsAll] at h
    subst hnone
    exact nil []
  | cons b bs ih =>
    cases rs with
    | nil => exact nil _
    | cons r rs =>
      obtain ⟨hr, hrs⟩ := accountsAll_cons.1 h
      exact cons b bs r rs hr hrs (ih hrs)

theorem accounts_node {i : Nat} {record : BakedNode} {bs : List Behavior} {e : TraceEntry}
    {rs : List Report} : Accounts (.node i record bs) (.node e rs) ↔
      e.index = i ∧ AccountsAll bs rs ∧
        Explains record.kind (bs.map index) (rs.map entry) e.status := by
  rw [Accounts]

theorem Accounts.index_entry {b : Behavior} {r : Report} (h : Accounts b r) :
    r.entry.index = b.index := by
  cases b; cases r
  exact (accounts_node.1 h).1

/-! ## The report of an evaluation -/

variable {ε τ : Type} {actions : ActionTable ε} {dt : Float32} {observe : Observer τ}

/-- What an observer has gathered after it was told of entries in order. -/
def tellAll (observe : Observer τ) (seen : τ) (es : List TraceEntry) : τ :=
  es.foldl (fun seen e => observe e.index e.status seen) seen

theorem tellAll_append (seen : τ) (es es' : List TraceEntry) :
    tellAll observe seen (es ++ es') = tellAll observe (tellAll observe seen es) es' :=
  List.foldl_append

/-- The report `r` is of the evaluation that gives `result`. -/
structure Reported (observe : Observer τ) (seen : τ) (b : Behavior) (r : Report)
    (result : Status × Scene ε τ) : Prop where
  accounts : Accounts b r
  status : r.entry.status = result.1
  seen : result.2.2 = tellAll observe seen r.entries

section
variable (actions : ActionTable ε) (dt : Float32) (observe : Observer τ)

def HasReports (b : Behavior) : Prop :=
  ∀ (w : World ε) (seen : τ), ∃ r, Reported observe seen b r
    (b.evaluate actions dt observe (w, seen))

end

variable {bs : List Behavior}

theorem evaluateWhile_reports (h : ∀ b ∈ bs, HasReports actions dt observe b) (pass : Status)
    (w : World ε) (seen : τ) :
    ∃ rs, AccountsAll bs rs ∧
      StopsAfter pass (bs.map index) (rs.map entry)
        (evaluateWhile actions dt observe pass bs (w, seen)).1 ∧
      (evaluateWhile actions dt observe pass bs (w, seen)).2.2 =
        tellAll observe seen (entriesOfAll rs) := by
  induction bs generalizing w seen with
  | nil => exact ⟨[], accountsAll_nil _, stopsAfter_nil pass, rfl⟩
  | cons b bs ih =>
    obtain ⟨r, hr, hstatus, hseen⟩ := h b (by simp) w seen
    rw [evaluateWhile_cons]
    generalize b.evaluate actions dt observe (w, seen) = result at hstatus hseen ⊢
    obtain ⟨status, w', seen'⟩ := result
    dsimp only at hstatus hseen ⊢
    have hentry : r.entry = ⟨b.index, status⟩ := by rw [← hstatus, ← hr.index_entry]
    split
    · rename_i hpass
      subst hpass
      obtain ⟨rs, hrs, hstops, hseens⟩ :=
        ih (fun c hc => h c (List.mem_cons_of_mem _ hc)) w' seen'
      refine ⟨r :: rs, accountsAll_cons.2 ⟨hr, hrs⟩, ?_, ?_⟩
      · rw [List.map_cons, List.map_cons, hentry]
        exact hstops.cons
      · rw [entriesOfAll, tellAll_append, ← hseen]
        exact hseens
    · rename_i hstop
      refine ⟨[r], accountsAll_cons.2 ⟨hr, accountsAll_nil _⟩, ?_, ?_⟩
      · rw [List.map_cons, List.map_singleton, hentry]
        exact stopsAfter_stop hstop
      · rw [entriesOfAll, entriesOfAll, List.append_nil]
        exact hseen

theorem evaluateAll_reports (h : ∀ b ∈ bs, HasReports actions dt observe b)
    (w : World ε) (seen : τ) :
    ∃ rs, AccountsAll bs rs ∧ (rs.map entry).map (·.index) = bs.map index ∧
      (rs.map entry).map (·.status) = (evaluateAll actions dt observe bs (w, seen)).1 ∧
      (evaluateAll actions dt observe bs (w, seen)).2.2 =
        tellAll observe seen (entriesOfAll rs) := by
  induction bs generalizing w seen with
  | nil => exact ⟨[], accountsAll_nil _, rfl, rfl, rfl⟩
  | cons b bs ih =>
    obtain ⟨r, hr, hstatus, hseen⟩ := h b (by simp) w seen
    rw [evaluateAll_cons]
    generalize b.evaluate actions dt observe (w, seen) = result at hstatus hseen ⊢
    obtain ⟨status, w', seen'⟩ := result
    dsimp only at hstatus hseen ⊢
    obtain ⟨rs, hrs, hall, hstatuses, hseens⟩ :=
      ih (fun c hc => h c (List.mem_cons_of_mem _ hc)) w' seen'
    refine ⟨r :: rs, accountsAll_cons.2 ⟨hr, hrs⟩, ?_, ?_, ?_⟩
    · rw [List.map_cons, List.map_cons, List.map_cons, hall, hr.index_entry]
    · rw [List.map_cons, List.map_cons, hstatuses, hstatus]
    · rw [entriesOfAll, tellAll_append, ← hseen]
      exact hseens

/-! ### One node -/

theorem explains_childless {kind : NodeKind} (hk : Descends kind ∨ kind = .interrupt) :
    Explains kind [] [] (emptyStatus kind) := by
  rcases hk with (rfl | rfl | rfl | rfl | rfl | rfl) | rfl
  · exact stopsAfter_nil .failure
  · exact stopsAfter_nil .success
  · exact ⟨rfl, rfl⟩
  · exact ⟨rfl, rfl⟩
  · exact ⟨rfl, rfl⟩
  · exact ⟨rfl, rfl⟩
  · exact .inl ⟨rfl, rfl⟩

theorem explains_settleBy {record : BakedNode} (hk : IsDecorator record.kind) (child : Nat)
    (children : List Nat) (status : Status) (w : World ε) :
    Explains record.kind (child :: children) [⟨child, status⟩]
      (settleBy record child status w).1 := by
  unfold settleBy
  rcases hk with hk | hk | hk
  · rw [hk]
    refine ⟨status, rfl, ?_⟩
    cases status <;> rfl
  · rw [hk]
    refine ⟨status, rfl, ?_⟩
    cases status <;> rfl
  · rw [hk]
    refine ⟨status, rfl, ?_⟩
    cases status with
    | success => exact countRepeat_counted ..
    | failure | running => rfl

section
variable {i : Nat} {record : BakedNode} {seen : τ} {w : World ε} {result : Status × Scene ε τ}
  {rs : List Report}
  (heq : (node i record bs).evaluate actions dt observe (w, seen) = told observe i result)
include heq

/-- The report of a node, by the reports of its children. -/
theorem reported_node (hrs : AccountsAll bs rs)
    (hex : Explains record.kind (bs.map index) (rs.map entry) result.1)
    (hseen : result.2.2 = tellAll observe seen (entriesOfAll rs)) :
    ∃ r, Reported observe seen (node i record bs) r
      ((node i record bs).evaluate actions dt observe (w, seen)) := by
  refine ⟨.node ⟨i, result.1⟩ rs, accounts_node.2 ⟨rfl, hrs, hex⟩, ?_, ?_⟩
  · rw [heq]
    rfl
  · rw [heq, entries, tellAll_append, ← hseen]
    rfl

/-- The report of a node that evaluates no child. -/
theorem reported_alone (hex : Explains record.kind (bs.map index) [] result.1)
    (hseen : result.2.2 = seen) :
    ∃ r, Reported observe seen (node i record bs) r
      ((node i record bs).evaluate actions dt observe (w, seen)) :=
  reported_node heq (accountsAll_nil bs) hex hseen

end

/-- The report of a node that evaluates its first child alone. -/
theorem reported_firstChild {i : Nat} {record : BakedNode} {b : Behavior} {w : World ε} {seen : τ}
    {result : Status × Scene ε τ} (hb : HasReports actions dt observe b)
    (heq : (node i record (b :: bs)).evaluate actions dt observe (w, seen) = told observe i result)
    (hex : Explains record.kind ((b :: bs).map index)
      [⟨b.index, (b.evaluate actions dt observe (w, seen)).1⟩] result.1)
    (hseen : result.2.2 = (b.evaluate actions dt observe (w, seen)).2.2) :
    ∃ r, Reported observe seen (node i record (b :: bs)) r
      ((node i record (b :: bs)).evaluate actions dt observe (w, seen)) := by
  obtain ⟨r, hr, hstatus, hr'⟩ := hb w seen
  refine reported_node heq (accountsAll_cons.2 ⟨hr, accountsAll_nil bs⟩) ?_ ?_
  · rw [← hstatus, ← hr.index_entry] at hex
    exact hex
  · rw [entriesOfAll, entriesOfAll, List.append_nil, ← hr', hseen]

theorem reported_interrupt {i : Nat} {record : BakedNode} {b : Behavior}
    (hk : record.kind = .interrupt) (hb : HasReports actions dt observe b) :
    HasReports actions dt observe (node i record (b :: bs)) := by
  intro w seen
  have heq : (node i record (b :: bs)).evaluate actions dt observe (w, seen) = told observe i _ :=
    evaluate_interrupt (w, seen) hk
  by_cases hfire : record.key ≠ 0 ∧ w.get record.key != 0
  · rw [if_pos hfire] at heq
    refine reported_alone heq ?_ rfl
    rw [hk]
    exact .inr ⟨by simp, rfl, rfl⟩
  · rw [if_neg hfire] at heq
    refine reported_firstChild hb heq ?_ rfl
    rw [hk]
    exact .inl ⟨_, rfl, rfl⟩

/-- Every evaluation tells its observer the entries of a report that accounts for it. -/
theorem exists_report (b : Behavior) : HasReports actions dt observe b := by
  induction b with
  | node i record bs ih =>
    intro w seen
    by_cases hempty : bs = [] ∧ (Descends record.kind ∨ record.kind = .interrupt)
    · obtain ⟨rfl, hk⟩ := hempty
      exact reported_alone (evaluate_childless _ hk) (explains_childless hk) rfl
    cases hk : record.kind with
    | selector =>
      obtain ⟨rs, hrs, hstops, hseen⟩ := evaluateWhile_reports ih .failure w seen
      exact reported_node (evaluate_selector _ hk) hrs (by rw [hk]; exact hstops) hseen
    | sequence =>
      obtain ⟨rs, hrs, hstops, hseen⟩ := evaluateWhile_reports ih .success w seen
      exact reported_node (evaluate_sequence _ hk) hrs (by rw [hk]; exact hstops) hseen
    | parallel =>
      obtain ⟨rs, hrs, hall, hstatuses, hseen⟩ := evaluateAll_reports ih w seen
      refine reported_node (evaluate_parallel _ hk) hrs ?_ hseen
      rw [hk]
      refine ⟨hall, ?_⟩
      rw [hstatuses, parallelAfter_none]
    | invert | succeeder | repeater =>
      have hd : IsDecorator record.kind := by simp [hk, IsDecorator]
      cases bs with
      | nil => exact absurd ⟨rfl, .inl hd.descends⟩ hempty
      | cons b bs =>
        exact reported_firstChild (ih b (by simp)) (evaluate_decorator _ hd)
          (explains_settleBy hd ..) rfl
    | interrupt =>
      cases bs with
      | nil => exact absurd ⟨rfl, .inr hk⟩ hempty
      | cons b bs => exact reported_interrupt hk (ih b (by simp)) w seen
    | action => exact reported_alone (evaluate_action _ hk) (by rw [hk]; rfl) rfl
    | setBlackboard =>
      exact reported_alone (evaluate_setBlackboard _ hk) (by rw [hk]; exact ⟨rfl, rfl⟩) rfl
    | clearBlackboard =>
      exact reported_alone (evaluate_clearBlackboard _ hk) (by rw [hk]; exact ⟨rfl, rfl⟩) rfl

end Behavior

end BehaviorTree
