import Xv6.Verif.Tables

/-!
# Classes of groups

The slots of a group are in the class of its master. A group in the stride class has an entry of
its own and no queue node; the others are charged to the first entry, or to none after an LWP has
left its group in `exec`.
-/

namespace Xv6

/-- What holds of classes in every state. -/
structure Classed (s : System) : Prop where
  /-- The slots of a group are in the class of its master. -/
  agree : ∀ m q, Leads s m → (s.proc q).state ≠ .unused → (s.proc q).pid = (s.proc m).pid →
    (s.proc m).SameClass (s.proc q)
  /-- A group in the stride class has no node. -/
  unqueued : ∀ m, Leads s m → (s.proc m).schedstate = .stride → ∀ n, (s.node n).pid ≠ (s.proc m).pid
  /-- It has an entry. -/
  entry : ∀ m, Leads s m → (s.proc m).schedstate = .stride → ∃ e, e ≠ 0 ∧ (s.proc m).pstride = some e ∧
    (s.sTable e).state = .used ∧ (s.sTable e).pid = (s.proc m).pid
  /-- Another group is charged to the first entry or to none. -/
  charged : ∀ m, Leads s m → (s.proc m).schedstate ≠ .stride →
    (s.proc m).pstride = some 0 ∨ (s.proc m).pstride = none
  first : (s.sTable 0).state = .used

section Classes

variable {s t u : System} {p q np : Lwp} {pid : Nat} {n : NodeRef}

/-- Slots were given up, nodes were emptied, and the entries of the groups that are left are used as before. -/
theorem Classed.fewer (classed : Classed s) (positive : ∀ q, (s.proc q).state ≠ .unused → 0 < (s.proc q).pid)
    (slots : ∀ q, (t.proc q).state ≠ .unused → (s.proc q).SameMember (t.proc q))
    (nodes : ∀ n, (t.node n).pid = (s.node n).pid ∨ (t.node n).pid = 0)
    (entries : ∀ m e, Leads t m → (s.proc m).schedstate = .stride → (s.proc m).pstride = some e → e ≠ 0 →
      (s.sTable e).pid = (s.proc m).pid →
      (t.sTable e).state = (s.sTable e).state ∧ (t.sTable e).pid = (s.sTable e).pid)
    (first : (t.sTable 0).state = .used) : Classed t := by
  have leads : ∀ m, Leads t m → Leads s m ∧ (s.proc m).SameMember (t.proc m) := by
    rintro m ⟨whole, taken⟩
    have same := slots m taken
    exact ⟨⟨same.tid.symm.trans whole, same.taken⟩, same⟩
  refine ⟨?_, ?_, ?_, ?_, first⟩
  · intro m q leader taken pid
    obtain ⟨before, same⟩ := leads m leader
    have other := slots q taken
    have agree := classed.agree m q before other.taken (by rw [← other.pid, ← same.pid]; exact pid)
    refine ⟨?_, ?_, ?_⟩
    · rw [other.schedstate, agree.schedstate, same.schedstate]
    · rw [other.pstride, agree.pstride, same.pstride]
    · rw [other.pmlfqNode, agree.pmlfqNode, same.pmlfqNode]
  · intro m leader stride n
    obtain ⟨before, same⟩ := leads m leader
    rw [same.schedstate] at stride
    rw [same.pid]
    rcases nodes n with kept | zero
    · rw [kept]
      exact classed.unqueued m before stride n
    · rw [zero]
      exact Nat.ne_of_lt (positive m before.2)
  · intro m leader stride
    obtain ⟨before, same⟩ := leads m leader
    rw [same.schedstate] at stride
    obtain ⟨e, other, charged, used, pid⟩ := classed.entry m before stride
    obtain ⟨state, owner⟩ := entries m e leader stride charged other pid
    refine ⟨e, other, same.pstride.trans charged, state.trans used, ?_⟩
    rw [owner, same.pid]
    exact pid
  · intro m leader queued
    obtain ⟨before, same⟩ := leads m leader
    rw [same.schedstate] at queued
    rw [same.pstride]
    exact classed.charged m before queued

/-- Slots, nodes and entries are the same for the classes. -/
theorem Classed.congr (classed : Classed s) (positive : ∀ q, (s.proc q).state ≠ .unused → 0 < (s.proc q).pid)
    (slots : ∀ q, (t.proc q).state ≠ .unused → (s.proc q).SameMember (t.proc q)) (nodes : SameNodes s t)
    (entries : ∀ e, (t.sTable e).state = (s.sTable e).state ∧ (t.sTable e).pid = (s.sTable e).pid) : Classed t :=
  classed.fewer positive slots (fun n => .inl (nodes n).2.2) (fun _ e _ _ _ _ _ => entries e)
    ((entries 0).1.trans classed.first)

/-- Slots were given up at most. -/
theorem Classed.retains (classed : Classed s) (positive : ∀ q, (s.proc q).state ≠ .unused → 0 < (s.proc q).pid)
    (kept : Retains s t) : Classed t :=
  classed.congr positive kept.slots (.of_eq kept.node) (fun e => by rw [kept.sTable]; exact ⟨rfl, rfl⟩)

/-- Slots were given up at most. -/
theorem Queues.retains (queues : Queues s) (kept : Retains s t) : Queues t :=
  queues.congr (.of_eq kept.node) kept.nextpid

/-- The slots of a pid whose group is not in the stride class get another queue node. -/
theorem Classed.requeue (classed : Classed s) {schedstate : StrideState} {place : Option NodeRef}
    (queued : ∀ m, Leads s m → (s.proc m).pid = pid → (s.proc m).schedstate ≠ .stride)
    (stays : schedstate ≠ .stride)
    (slots : ∀ q, t.proc q = if (s.proc q).pid = pid then
      { s.proc q with schedstate, pmlfqNode := place } else s.proc q)
    (nodes : ∀ m, Leads s m → (s.proc m).pid ≠ pid → ∀ n, (t.node n).pid = (s.proc m).pid → (s.node n).pid = (s.proc m).pid)
    (entries : t.sTable = s.sTable) : Classed t := by
  have kept : ∀ q, (t.proc q).pid = (s.proc q).pid ∧ (t.proc q).tid = (s.proc q).tid ∧
      (t.proc q).state = (s.proc q).state ∧ (t.proc q).pstride = (s.proc q).pstride := by
    intro q
    rw [slots q]
    by_cases mine : (s.proc q).pid = pid
    · rw [if_pos mine]
      exact ⟨rfl, rfl, rfl, rfl⟩
    · rw [if_neg mine]
      exact ⟨rfl, rfl, rfl, rfl⟩
  have leads : ∀ m, Leads t m → Leads s m := by
    rintro m ⟨whole, taken⟩
    exact ⟨(kept m).2.1.symm.trans whole, by rw [← (kept m).2.2.1]; exact taken⟩
  have strange : ∀ m, (t.proc m).schedstate = .stride → (s.proc m).pid ≠ pid ∧ (s.proc m).schedstate = .stride := by
    intro m stride
    rw [slots m] at stride
    by_cases mine : (s.proc m).pid = pid
    · rw [if_pos mine] at stride
      exact absurd stride stays
    · rw [if_neg mine] at stride
      exact ⟨mine, stride⟩
  refine ⟨?_, ?_, ?_, ?_, ?_⟩
  · intro m q leader taken same
    rw [(kept q).1, (kept m).1] at same
    rw [(kept q).2.2.1] at taken
    have agree := classed.agree m q (leads m leader) taken same
    rw [slots m, slots q]
    by_cases mine : (s.proc m).pid = pid
    · rw [if_pos mine, if_pos (same.trans mine)]
      exact ⟨rfl, agree.pstride, rfl⟩
    · rw [if_neg mine, if_neg (by rw [same]; exact mine)]
      exact agree
  · intro m leader stride n same
    obtain ⟨other, before⟩ := strange m stride
    rw [(kept m).1] at same
    exact classed.unqueued m (leads m leader) before n (nodes m (leads m leader) other n same)
  · intro m leader stride
    obtain ⟨_, before⟩ := strange m stride
    rw [(kept m).1, (kept m).2.2.2, entries]
    exact classed.entry m (leads m leader) before
  · intro m leader out
    rw [(kept m).2.2.2]
    by_cases mine : (s.proc m).pid = pid
    · exact classed.charged m (leads m leader) (queued m (leads m leader) mine)
    · rw [slots m, if_neg mine] at out
      exact classed.charged m (leads m leader) out
  · rw [entries]
    exact classed.first

/-- `pop_mlfq`. -/
theorem Classed.empties (classed : Classed s) (positive : ∀ q, (s.proc q).state ≠ .unused → 0 < (s.proc q).pid)
    (empties : Empties s pid n t) : Classed t ∧ ∀ m, Leads t m → (t.proc m).pid = pid → (t.proc m).schedstate ≠ .stride := by
  refine ⟨classed.requeue ?_ ?_ empties.proc ?_ empties.sTable, ?_⟩
  · intro m leader mine stride
    exact classed.unqueued m leader stride n (empties.found.trans mine.symm)
  · exact StrideState.noConfusion
  · intro m leader other n' same
    by_cases here : n' = n
    · rw [here, empties.node] at same
      exact absurd same (Nat.ne_of_lt (positive m leader.2))
    · rw [empties.others n' here] at same
      exact same
  · intro m _ mine
    have slot := empties.proc m
    by_cases was : (s.proc m).pid = pid
    · rw [slot, if_pos was]
      exact StrideState.noConfusion
    · rw [slot, if_neg was] at mine
      exact absurd mine was

/-- `push_mlfq` of a pid that is not in the stride class. -/
theorem Classed.fills (classed : Classed s) (fills : Fills s pid n t)
    (queued : ∀ m, Leads s m → (s.proc m).pid = pid → (s.proc m).schedstate ≠ .stride) : Classed t := by
  refine classed.requeue queued ?_ fills.proc ?_ fills.sTable
  · exact StrideState.noConfusion
  · intro m leader other n' same
    by_cases here : n' = n
    · rw [here, fills.node] at same
      exact absurd same.symm other
    · rw [fills.others n' here] at same
      exact same

/-- Nodes and classes after a change of the queues. -/
theorem Queues.requeues (requeues : Requeues s t) (queues : Queues s) (classed : Classed s)
    (positive : ∀ q, (s.proc q).state ≠ .unused → 0 < (s.proc q).pid) : Queues t ∧ Classed t := by
  induction requeues with
  | nil => exact ⟨queues, classed⟩
  | tick ticked _ ih =>
    refine ih (queues.congr ticked.nodes (Nat.le_of_eq ticked.nextpid.symm)) ?_ ?_
    · refine classed.congr positive (fun q taken => .of_eq (congrFun ticked.proc q) taken) ticked.nodes fun e => ?_
      rw [ticked.sTable]
      exact ⟨rfl, rfl⟩
    · rw [ticked.proc]
      exact positive
  | @move s t u pid prior known popped _ ih =>
    have above := queues.positive_of_known known
    obtain ⟨n, empties⟩ := popMlfq_empties popped
    obtain ⟨cleared, used, gone⟩ := queues.empties empties above
    obtain ⟨left, queued⟩ := classed.empties positive empties
    have old : pid < t.nextpid := by
      rw [empties.nextpid, ← empties.found]
      exact (queues.busy n used).2
    have kept : ∀ q, (t.proc q).state ≠ .unused → 0 < (t.proc q).pid := by
      intro q
      rw [empties.proc q]
      by_cases mine : (s.proc q).pid = pid
      · rw [if_pos mine]
        exact positive q
      · rw [if_neg mine]
        exact positive q
    rcases pushMlfq_fills t pid prior with ⟨i, fills⟩ | ⟨_, same⟩
    · refine ih ?_ (left.fills fills queued) ?_
      · exact cleared.fills fills.toNodeFills (Nat.le_of_eq fills.nextpid.symm) above (by rw [fills.nextpid]; exact old) gone
      · intro q
        rw [fills.proc q]
        by_cases mine : (t.proc q).pid = pid
        · rw [if_pos mine]
          exact kept q
        · rw [if_neg mine]
          exact kept q
    · rw [same] at ih
      exact ih cleared left kept

/-! ## Founding and joining groups -/

/-- Every node's pid was handed out. -/
theorem Queues.fresh (queues : Queues s) (ranked : Ranked s) (n : NodeRef) : (s.node n).pid < s.nextpid := by
  by_cases used : (s.node n).state = .used
  · exact (queues.busy n used).2
  · rw [(queues.idle n used).2]
    exact Nat.lt_of_le_of_lt (Nat.zero_le _) (ranked.fresh 0)

/-- A group is founded. -/
theorem Queues.founds (queues : Queues s) (ranked : Ranked s) (founds : Founds s p t) : Queues t := by
  have later : s.nextpid < t.nextpid := by
    rw [founds.nextpid]
    exact Nat.lt_succ_self _
  rcases founds.node with ⟨i, fills, _⟩ | ⟨_, nodes, _⟩
  · exact queues.fills fills (Nat.le_of_lt later) (Nat.lt_of_le_of_lt (Nat.zero_le _) (ranked.fresh p)) later
      fun n => Nat.ne_of_lt (queues.fresh ranked n)
  · exact queues.congr (.of_eq nodes) (Nat.le_of_lt later)

/-- A new group's pid belongs to nobody else. -/
theorem Founds.stranger (founds : Founds s p t) (ranked : Ranked s) (other : q ≠ p) :
    (t.proc q).pid ≠ (t.proc p).pid := by
  rw [founds.others q other, founds.pid]
  exact Nat.ne_of_lt (ranked.fresh q)

/-- A group is founded. -/
theorem Classed.founds (classed : Classed s) (ranked : Ranked s) (founds : Founds s p t) : Classed t := by
  have leads : ∀ m, m ≠ p → Leads t m → Leads s m := by
    rintro m other ⟨whole, taken⟩
    rw [founds.others m other] at whole taken
    exact ⟨whole, taken⟩
  have nodes : ∀ n, (t.node n).pid = (s.node n).pid ∨ (t.node n).pid = s.nextpid := by
    intro n
    rcases founds.node with ⟨i, fills, _⟩ | ⟨_, same, _⟩
    · by_cases here : n = (0, i)
      · rw [here, fills.node]
        exact .inr rfl
      · rw [fills.others n here]
        exact .inl rfl
    · rw [same n]
      exact .inl rfl
  refine ⟨?_, ?_, ?_, ?_, ?_⟩
  · intro m q leader taken same
    by_cases here : m = p
    · by_cases there : q = p
      · rw [here, there]
        exact .refl _
      · rw [here] at same
        exact absurd same (founds.stranger ranked there)
    · by_cases there : q = p
      · rw [there] at same
        exact absurd same.symm (founds.stranger ranked here)
      · have before := leads m here leader
        rw [founds.others m here] at same ⊢
        rw [founds.others q there] at taken same ⊢
        exact classed.agree m q before taken same
  · intro m leader stride n
    by_cases here : m = p
    · rw [here] at stride
      exact absurd stride founds.schedstate
    · have before := leads m here leader
      rw [founds.others m here] at stride ⊢
      rcases nodes n with kept | new
      · rw [kept]
        exact classed.unqueued m before stride n
      · rw [new]
        exact (Nat.ne_of_lt (ranked.fresh m)).symm
  · intro m leader stride
    by_cases here : m = p
    · rw [here] at stride
      exact absurd stride founds.schedstate
    · have before := leads m here leader
      rw [founds.others m here] at stride ⊢
      rw [founds.sTable]
      exact classed.entry m before stride
  · intro m leader out
    by_cases here : m = p
    · rw [here]
      exact founds.pstride
    · have before := leads m here leader
      rw [founds.others m here] at out ⊢
      exact classed.charged m before out
  · rw [founds.sTable]
    exact classed.first

/-- `thread_create`. -/
theorem Queues.creates (queues : Queues s) (creates : Creates s p np t) : Queues t := by
  obtain ⟨n, prior, state, pid, others, _⟩ := creates.node
  exact queues.clear prior state pid others (by rw [creates.nextpid]; exact Nat.le_succ _)

/-- `thread_create`. -/
theorem Classed.creates (classed : Classed s) (ranked : Ranked s) (started : (s.proc p).state.started = true)
    (creates : Creates s p np t) : Classed t := by
  have others : ∀ q, q ≠ np → (t.proc q).state ≠ .unused → (s.proc q).SameMember (t.proc q) := by
    intro q other taken
    obtain ⟨sz, stack, slot⟩ := creates.others q other
    rw [slot] at taken ⊢
    exact ⟨⟨rfl, rfl, rfl⟩, rfl, rfl, taken⟩
  have nodes : ∀ n, (t.node n).pid = (s.node n).pid ∨ (t.node n).pid = 0 := by
    intro n'
    obtain ⟨n, _, _, pid, kept, _⟩ := creates.node
    by_cases here : n' = n
    · rw [here]
      exact .inr pid
    · rw [kept n' here]
      exact .inl rfl
  rcases creates.slot with unused | ⟨M, points, thread, pid, _, _, joins⟩
  · refine classed.fewer ranked.positive ?_ nodes ?_ ?_
    · intro q taken
      refine others q ?_ taken
      rintro rfl
      exact taken unused
    · intro m e _ _ _ _ _
      rw [creates.sTable]
      exact ⟨rfl, rfl⟩
    · rw [creates.sTable]
      exact classed.first
  · have leads : ∀ m, Leads t m → m ≠ np ∧ Leads s m ∧ (s.proc m).SameMember (t.proc m) := by
      rintro m ⟨one, taken⟩
      have other : m ≠ np := by
        rintro rfl
        omega
      have same := others m other taken
      exact ⟨other, ⟨same.tid.symm.trans one, same.taken⟩, same⟩
    refine ⟨?_, ?_, ?_, ?_, ?_⟩
    · intro m q leader taken same
      obtain ⟨apart, before, member⟩ := leads m leader
      by_cases here : q = np
      · have mine : M = m := by
          refine Option.some.inj (points.symm.trans (ranked.leader m p before started ?_))
          rw [← member.pid, ← same, here, pid]
        have joins := joins (by rw [mine]; exact apart)
        rw [here]
        rw [mine] at joins
        refine ⟨?_, ?_, ?_⟩
        · rw [joins.schedstate, member.schedstate]
        · rw [joins.pstride, member.pstride]
        · rw [joins.pmlfqNode, member.pmlfqNode]
      · have other := others q here taken
        have agree := classed.agree m q before other.taken (by rw [← other.pid, ← member.pid]; exact same)
        refine ⟨?_, ?_, ?_⟩
        · rw [other.schedstate, agree.schedstate, member.schedstate]
        · rw [other.pstride, agree.pstride, member.pstride]
        · rw [other.pmlfqNode, agree.pmlfqNode, member.pmlfqNode]
    · intro m leader stride n
      obtain ⟨_, before, member⟩ := leads m leader
      rw [member.schedstate] at stride
      rw [member.pid]
      rcases nodes n with kept | zero
      · rw [kept]
        exact classed.unqueued m before stride n
      · rw [zero]
        exact Nat.ne_of_lt (ranked.positive m before.2)
    · intro m leader stride
      obtain ⟨_, before, member⟩ := leads m leader
      rw [member.schedstate] at stride
      rw [member.pid, member.pstride, creates.sTable]
      exact classed.entry m before stride
    · intro m leader out
      obtain ⟨_, before, member⟩ := leads m leader
      rw [member.schedstate] at out
      rw [member.pstride]
      exact classed.charged m before out
    · rw [creates.sTable]
      exact classed.first

/-! ## Deleting and sharing -/

/-- A slot is deleted. -/
theorem Queues.drops (queues : Queues s) (drops : Drops s p t) (later : s.nextpid ≤ t.nextpid) : Queues t := by
  cases drops with
  | none _ nodes _ => exact queues.congr (.of_eq (System.node_congr nodes)) later
  | node n _ _ _ node others _ _ =>
    refine queues.clear (n := n) ?_ ?_ ?_ others later
    · rw [node]
    · rw [node]
    · rw [node]
  | entry _ _ _ _ nodes _ => exact queues.congr (.of_eq (System.node_congr nodes)) later

/-- Deleting a zombie keeps the slots that are still taken. -/
theorem deleteThread_members (deleted : s.deleteThread p = some t) (taken : (t.proc q).state ≠ .unused) :
    (s.proc q).SameMember (t.proc q) := by
  have other : q ≠ p := by
    rintro rfl
    exact taken (System.deleteThread_self deleted).1
  obtain ⟨stack, slot⟩ := System.deleteThread_other deleted other
  rw [slot] at taken ⊢
  exact ⟨⟨rfl, rfl, rfl⟩, rfl, rfl, taken⟩

/-- A zombie is deleted. -/
theorem Classed.deleteThread (classed : Classed s) (ranked : Ranked s) (zombie : (s.proc p).state = .zombie)
    (deleted : s.deleteThread p = some t) : Classed t := by
  have gone := (System.deleteThread_self deleted).1
  have slots : ∀ q, (t.proc q).state ≠ .unused → (s.proc q).SameMember (t.proc q) :=
    fun q => deleteThread_members deleted
  cases deleteThread_drops deleted with
  | none _ nodes entries =>
    refine classed.fewer ranked.positive slots (fun n => .inl ?_) ?_ ?_
    · rw [System.node_congr nodes]
    · intro m e _ _ _ _ _
      rw [entries]
      exact ⟨rfl, rfl⟩
    · rw [entries]
      exact classed.first
  | node n _ _ _ node others _ entries =>
    refine classed.fewer ranked.positive slots (fun n' => ?_) ?_ ?_
    · by_cases here : n' = n
      · rw [here, node]
        exact .inr rfl
      · rw [others n' here]
        exact .inl rfl
    · intro m e _ _ _ _ _
      rw [entries]
      exact ⟨rfl, rfl⟩
    · rw [entries]
      exact classed.first
  | entry e whole stride charged nodes entries =>
    obtain ⟨e', away, same, _, owner⟩ := classed.entry p ⟨whole, by rw [zombie]; exact RunState.noConfusion⟩ stride
    rw [charged] at same
    cases same
    obtain ⟨_, kept⟩ := entries away
    refine classed.fewer ranked.positive slots (fun n => .inl ?_) ?_ ?_
    · rw [System.node_congr nodes]
    · intro m e' leader _ _ _ mine
      have member := slots m leader.2
      have other : e' ≠ e := by
        rintro rfl
        have here := ranked.masters p m ⟨whole, by rw [zombie]; exact RunState.noConfusion⟩
          ⟨member.tid.symm.trans leader.1, member.taken⟩ (owner.symm.trans mine)
        rw [← here] at leader
        exact leader.2 gone
      exact ⟨(kept e' other).1, (kept e' other).2.1⟩
    · rw [(kept 0 away.symm).1]
      exact classed.first

/-- Zombies are deleted. -/
theorem Classed.reaps (reaps : Reaps s t) (queues : Queues s) (classed : Classed s) (ranked : Ranked s) :
    Queues t ∧ Classed t := by
  induction reaps with
  | calm calm => exact ⟨queues.retains (.of_calm calm), classed.retains ranked.positive (.of_calm calm)⟩
  | reap q before zombie deleted _ ih =>
    have between := ranked.congr before.groups
    have kept := Retains.of_calm before
    exact ih ((queues.retains kept).drops (deleteThread_drops deleted) (Nat.le_of_eq (System.deleteThread_rest deleted).1.symm))
      ((classed.retains ranked.positive kept).deleteThread between zombie deleted) (between.deleteThread zombie deleted)

/-- A group without a node moves to an entry. -/
theorem Classed.shares (classed : Classed s) {minPass : Int} {e : Entry} (shares : Shares s pid minPass e t)
    (out : ∀ n, (s.node n).pid ≠ pid) : Classed t := by
  have kept : ∀ q, (t.proc q).pid = (s.proc q).pid ∧ (t.proc q).tid = (s.proc q).tid ∧
      (t.proc q).state = (s.proc q).state := by
    intro q
    rw [shares.proc q]
    by_cases mine : (s.proc q).pid = pid
    · rw [if_pos mine]
      exact ⟨rfl, rfl, rfl⟩
    · rw [if_neg mine]
      exact ⟨rfl, rfl, rfl⟩
  have leads : ∀ m, Leads t m → Leads s m := by
    rintro m ⟨whole, taken⟩
    exact ⟨(kept m).2.1.symm.trans whole, by rw [← (kept m).2.2]; exact taken⟩
  refine ⟨?_, ?_, ?_, ?_, ?_⟩
  · intro m q leader taken same
    rw [(kept q).1, (kept m).1] at same
    rw [(kept q).2.2] at taken
    have agree := classed.agree m q (leads m leader) taken same
    rw [shares.proc m, shares.proc q]
    by_cases mine : (s.proc m).pid = pid
    · rw [if_pos mine, if_pos (same.trans mine)]
      exact ⟨rfl, rfl, agree.pmlfqNode⟩
    · rw [if_neg mine, if_neg (by rw [same]; exact mine)]
      exact agree
  · intro m leader stride n
    rw [(kept m).1, System.node_congr shares.mTable]
    by_cases mine : (s.proc m).pid = pid
    · rw [mine]
      exact out n
    · rw [shares.proc m, if_neg mine] at stride
      exact classed.unqueued m (leads m leader) stride n
  · intro m leader stride
    rw [(kept m).1]
    by_cases mine : (s.proc m).pid = pid
    · rw [shares.proc m, if_pos mine]
      exact ⟨e, shares.free.1, rfl, shares.entry.1, shares.entry.2.1.trans mine.symm⟩
    · rw [shares.proc m, if_neg mine] at stride ⊢
      obtain ⟨e', away, charged, used, owner⟩ := classed.entry m (leads m leader) stride
      have other : e' ≠ e := by
        rintro rfl
        rw [shares.free.2] at used
        contradiction
      refine ⟨e', away, charged, ?_, ?_⟩
      · rw [(shares.others e' other).1]
        exact used
      · rw [(shares.others e' other).2.1]
        exact owner
  · intro m leader queued
    by_cases mine : (s.proc m).pid = pid
    · rw [shares.proc m, if_pos mine] at queued
      exact absurd rfl queued
    · rw [shares.proc m, if_neg mine] at queued ⊢
      exact classed.charged m (leads m leader) queued
  · rw [(shares.others 0 shares.free.1.symm).1]
    exact classed.first

/-! ## Steps -/

/-- Nodes and classes after `set_cpu_share` has moved a group. -/
theorem Classed.shareUpdate (queues : Queues s) (classed : Classed s) (ranked : Ranked s) {master : Lwp}
    {inquire minPass : Int} (positive : 0 < (s.proc master).pid)
    (updated : s.shareUpdate master inquire minPass = some t) : Queues t ∧ Classed t := by
  obtain ⟨u, e, popped, shares⟩ := shareUpdate_shares updated
  have later : u.nextpid ≤ t.nextpid := Nat.le_of_eq shares.nextpid.symm
  rcases popped with ⟨n, empties⟩ | ⟨rfl, out⟩
  · obtain ⟨cleared, _, gone⟩ := queues.empties empties positive
    obtain ⟨left, _⟩ := classed.empties ranked.positive empties
    exact ⟨cleared.congr (.of_eq (System.node_congr shares.mTable)) later, left.shares shares gone⟩
  · exact ⟨queues.congr (.of_eq (System.node_congr shares.mTable)) later, classed.shares shares out⟩

/-- The group that a step moves to the stride class has a pid. -/
def MovesGroup (s : System) (event : Event) : Prop :=
  ∀ p master inquire minPass, event = .shareUpdate p → (s.proc p).state.started = true →
    s.call p = .setCpuShare master inquire minPass → 0 < (s.proc master).pid

/-- Without orphans the master that `set_cpu_share` has found is still there. -/
theorem Grouped.moves (grouped : Grouped s) (event : Event) : MovesGroup s event :=
  fun _ _ _ _ _ started call => grouped.sharing_positive started call

/-- Every step keeps nodes and classes. -/
theorem Classed.step {event : Event} (queues : Queues s) (classed : Classed s) (ranked : Ranked s)
    (moves : MovesGroup s event) (tables : TableStep s event t) : Queues t ∧ Classed t := by
  cases tables with
  | kept _ kept => exact ⟨queues.retains kept, classed.retains ranked.positive kept⟩
  | reaps u _ _ reaps kept =>
    obtain ⟨ordered, sorted⟩ := Classed.reaps reaps queues classed ranked
    exact ⟨ordered.retains kept, sorted.retains (ranked.reaps reaps).positive kept⟩
  | founds p u v _ calm founds positive kept _ =>
    have before := Retains.of_calm calm
    have between := ranked.congr calm.groups
    exact ⟨((queues.retains before).founds between founds).retains kept,
      ((classed.retains ranked.positive before).founds between founds).retains positive kept⟩
  | creates p np _ started creates => exact ⟨queues.creates creates, classed.creates ranked started creates⟩
  | shares p master inquire minPass u started call updated kept =>
    obtain ⟨ordered, sorted⟩ := classed.shareUpdate queues ranked (moves p master inquire minPass rfl started call) updated
    exact ⟨ordered.retains kept, sorted.retains (ranked.congr (Sorted.shareUpdate updated).groups).positive kept⟩
  | ticks p u _ charges requeues =>
    refine Queues.requeues requeues ?_ ?_ ?_
    · exact queues.congr (.of_eq (System.node_congr charges.mTable)) (Nat.le_of_eq charges.nextpid.symm)
    · exact classed.congr ranked.positive (fun q taken => .of_eq (congrFun charges.proc q) taken)
        (.of_eq (System.node_congr charges.mTable)) charges.entry
    · rw [charges.proc]
      exact ranked.positive

/-! ## The first process -/

/-- The empty tables have no used node. -/
theorem Queues.emptyTables : Queues System.emptyTables where
  prior _ := rfl
  idle _ _ := ⟨rfl, rfl⟩
  busy _ used := absurd used StrideState.noConfusion
  single _ _ used := absurd used StrideState.noConfusion

/-- The first process on top of the tables with its group. -/
theorem userinit_slots (d : Nat) :
    (∀ q, q ≠ 0 → ((System.userinit d).proc q).state = .unused) ∧
      (System.userinit d).proc 0 = { ((System.emptyTables.takeSlot 0).initSlot 0).proc 0 with
        pgdir := some d, sz := PGSIZE, state := .runnable } ∧
      (System.userinit d).mTable = ((System.emptyTables.takeSlot 0).initSlot 0).mTable ∧
      (System.userinit d).nextpid = ((System.emptyTables.takeSlot 0).initSlot 0).nextpid := by
  obtain ⟨founds, _⟩ := allocproc_founds Grouped.emptyTables.fresh 0
  unfold System.userinit
  rw [allocproc_first]
  refine ⟨fun q other => ?_, System.setProc_self _ _ _, rfl, rfl⟩
  rw [System.setProc_other _ _ other]
  change (((System.emptyTables.takeSlot 0).initSlot 0).proc q).state = .unused
  rw [founds.others q other]
  rfl

/-- Only the first slot is taken at the start. -/
theorem userinit_only (d : Nat) (q : Lwp) (taken : ((System.userinit d).proc q).state ≠ .unused) : q = 0 := by
  by_contra other
  exact taken ((userinit_slots d).1 q other)

/-- The nodes at the start. -/
theorem Queues.userinit (d : Nat) : Queues (System.userinit d) := by
  obtain ⟨founds, _⟩ := allocproc_founds Grouped.emptyTables.fresh 0
  obtain ⟨_, _, mTable, nextpid⟩ := userinit_slots d
  exact (Queues.emptyTables.founds Grouped.emptyTables.ranked founds).congr (.of_eq (System.node_congr mTable)) (Nat.le_of_eq nextpid.symm)

/-- The classes at the start. -/
theorem Classed.userinit (d : Nat) : Classed (System.userinit d) := by
  obtain ⟨founds, _⟩ := allocproc_founds Grouped.emptyTables.fresh 0
  obtain ⟨others, slot, _, _⟩ := userinit_slots d
  have only := userinit_only d
  have queued : ((System.userinit d).proc 0).schedstate ≠ .stride := by
    rw [slot]
    exact founds.schedstate
  have entries : (System.userinit d).sTable = Function.update ((System.emptyTables.takeSlot 0).initSlot 0).sTable 0
      { ((System.emptyTables.takeSlot 0).initSlot 0).sTable 0 with
        isMLFQ := true, state := .used, tickets := 100, stride := stride1.tdiv 100 } := by
    unfold System.userinit
    rw [allocproc_first]
    rfl
  refine ⟨?_, ?_, ?_, ?_, ?_⟩
  · intro m q leader taken _
    rw [only m leader.2, only q taken]
    exact .refl _
  · intro m leader stride
    rw [only m leader.2] at stride
    exact absurd stride queued
  · intro m leader stride
    rw [only m leader.2] at stride
    exact absurd stride queued
  · intro m leader _
    rw [only m leader.2, slot]
    exact founds.pstride
  · rw [entries, Function.update_self]

end Classes

end Xv6
