import Xv6.Verif.Queues

/-!
# The scheduler's tables under each effect

Which slots, nodes and entries an effect of a step changes: a timer tick moves pids between
queues, `allocproc` and `exec_delete_thread` found a group, `thread_create` founds one and gives
its node back, `delete_thread` gives up the node or the entry of a master, and `set_cpu_share`
moves a group from a queue to the stride table.
-/

namespace Xv6

/-! ## Ticks -/

/-- Only ticks were counted. -/
structure Ticked (s t : System) : Prop where
  proc : t.proc = s.proc
  nodes : SameNodes s t
  count : ∀ k, (t.mTable k).count = (s.mTable k).count
  sTable : t.sTable = s.sTable
  nextpid : t.nextpid = s.nextpid

/-- Pids were popped and pushed again, between ticks. -/
inductive Requeues : System → System → Prop where
  /-- Nothing. -/
  | nil (s : System) : Requeues s s
  /-- A tick before the rest. -/
  | tick {s t u : System} : Ticked s t → Requeues t u → Requeues s u
  /-- One pid moves before the rest. -/
  | move {s t u : System} (pid : Nat) (prior : Fin 3) :
      (0 < pid ∨ ∃ n, (s.node n).state = .used ∧ (s.node n).pid = pid) →
      s.popMlfq pid = some t → Requeues (t.pushMlfq pid prior) u → Requeues s u

section Ticks

variable {s t u : System} {p : Lwp}

/-- Two changes. -/
theorem Ticked.trans (first : Ticked s t) (second : Ticked t u) : Ticked s u :=
  ⟨second.proc.trans first.proc, first.nodes.trans second.nodes,
    fun k => (second.count k).trans (first.count k), second.sTable.trans first.sTable,
    second.nextpid.trans first.nextpid⟩

/-- A tick of a node. -/
theorem Ticked.setNode {n : NodeRef} {m : MlfqNode} (prior : m.prior = (s.node n).prior)
    (state : m.state = (s.node n).state) (pid : m.pid = (s.node n).pid) : Ticked s (s.setNode n m) := by
  refine ⟨rfl, fun n' => ?_, System.setNode_count s n m, rfl, rfl⟩
  by_cases here : n' = n
  · rw [here, System.setNode_self]
    exact ⟨prior, state, pid⟩
  · rw [System.setNode_other _ _ here]
    exact ⟨rfl, rfl, rfl⟩

/-- A tick alone. -/
theorem Ticked.requeues (ticked : Ticked s t) : Requeues s t := .tick ticked (.nil t)

/-- One sequence after another. -/
theorem Requeues.trans (first : Requeues s t) (second : Requeues t u) : Requeues s u := by
  induction first with
  | nil => exact second
  | tick ticked _ ih => exact .tick ticked (ih second)
  | move pid prior known popped _ ih => exact .move pid prior known popped (ih second)

/-- `move_prior`. -/
theorem Requeues.movePrior {pid : Nat} (known : 0 < pid ∨ ∃ n, (s.node n).state = .used ∧ (s.node n).pid = pid)
    (prior : Fin 3) : Requeues s (s.movePrior pid prior) := by
  unfold System.movePrior
  split
  · exact .nil s
  · rename_i popped
    exact .move pid prior known popped (.nil _)

/-- A loop of moves. -/
theorem Requeues.foldl {ι : Type} {change : System → ι → System} (each : ∀ s i, Requeues s (change s i))
    (items : List ι) (s : System) : Requeues s (items.foldl change s) := by
  induction items generalizing s with
  | nil => exact .nil s
  | cons i rest ih => exact (each s i).trans (ih _)

/-- `prior_boost`. -/
theorem Requeues.priorBoost (s : System) : Requeues s s.priorBoost := by
  have node : ∀ (s : System) (n : NodeRef), Requeues s (s.boostNode n) := by
    intro s n
    unfold System.boostNode
    split
    · exact .nil s
    · rename_i used
      exact .movePrior (.inr ⟨n, not_not.mp used, rfl⟩) 0
  have queue : ∀ (s : System) (prior : Fin 3), Requeues s (s.boostQueue prior) := by
    intro s prior
    unfold System.boostQueue
    split
    · exact .nil s
    · exact .foldl (fun s i => node s (prior, i)) _ s
  exact (Requeues.foldl queue _ s).trans (Ticked.requeues ⟨rfl, .refl _, fun _ => rfl, rfl, rfl⟩)

/-- The demotion at the end of a time allotment. -/
theorem Requeues.demote (s : System) (positive : 0 < (s.proc p).pid) (prior : Fin 3) (elapsed : Nat) :
    Requeues s (s.demote p prior elapsed) := by
  unfold System.demote
  split
  · split
    · exact .movePrior (.inl positive) 1
    · exact .nil s
  · split
    · exact .movePrior (.inl positive) 2
    · exact .nil s
  · exact .nil s

/-- The end of `add_tick`. -/
theorem Requeues.endTick (s : System) (positive : 0 < (s.proc p).pid) (m : MlfqNode) (curTick : Nat) :
    Requeues s (s.endTick p m curTick).2 := by
  unfold System.endTick
  simp only
  split
  · refine (Requeues.demote s positive m.prior m.eticks).trans ?_
    simp only
    split
    · exact .priorBoost _
    · exact .nil _
  · exact .demote s positive _ _

/-- `add_pass_stride` changes passes only. -/
structure Charges (s t : System) : Prop where
  proc : t.proc = s.proc
  mTable : t.mTable = s.mTable
  nextpid : t.nextpid = s.nextpid
  /-- The entries but for their passes. -/
  entry : ∀ e, (t.sTable e).state = (s.sTable e).state ∧ (t.sTable e).pid = (s.sTable e).pid

/-- `add_pass_stride`. -/
theorem addPassStride_charges (charged : s.addPassStride p = some t) : Charges s t := by
  have entry : ∀ (e e' : Entry), ((s.charge e).sTable e').state = (s.sTable e').state ∧
      ((s.charge e).sTable e').pid = (s.sTable e').pid := by
    intro e e'
    unfold System.charge
    by_cases here : e' = e
    · simp only [here, Function.update_self, true_and]
    · simp only [Function.update_of_ne here, true_and]
  unfold System.addPassStride at charged
  split at charged
  · contradiction
  · rename_i e _
    simp only at charged
    split at charged
    · cases charged
      refine ⟨rfl, rfl, rfl, fun e' => ?_⟩
      unfold System.resetPasses
      simp only
      split
      · exact entry e e'
      · exact entry e e'
    · cases charged
      exact ⟨rfl, rfl, rfl, entry e⟩

/-- `add_tick` charges the stride entry, then moves pids. -/
theorem addTick_requeues {yields : Bool} (positive : 0 < (s.proc p).pid) (ticked : s.addTick p = some (yields, t)) :
    ∃ u, s.addPassStride p = some u ∧ Charges s u ∧ Requeues u t := by
  obtain ⟨u, charged, ⟨_, rfl⟩ | ⟨_, n, _, rfl⟩⟩ := addTick_some ticked
  · exact ⟨u, charged, addPassStride_charges charged, Ticked.requeues ⟨rfl, .refl _, fun _ => rfl, rfl, rfl⟩⟩
  · have charges := addPassStride_charges charged
    refine ⟨u, charged, charges, ?_⟩
    have counted : Ticked u (System.setNode { u with schedticks := u.schedticks + 1 } n
        { u.node n with eticks := (u.node n).eticks + 1 }) :=
      Ticked.trans (t := { u with schedticks := u.schedticks + 1 }) ⟨rfl, .refl _, fun _ => rfl, rfl, rfl⟩
        (.setNode rfl rfl rfl)
    refine .tick counted (.endTick _ ?_ _ _)
    change 0 < (u.proc p).pid
    rw [charges.proc]
    exact positive

/-- Moving pids changes the queue nodes of slots only. -/
theorem Requeues.slot (requeues : Requeues s t) (q : Lwp) :
    ∃ schedstate pmlfqNode, t.proc q = { s.proc q with schedstate, pmlfqNode } := by
  induction requeues with
  | nil => exact ⟨_, _, rfl⟩
  | tick ticked _ ih =>
    rw [ticked.proc] at ih
    exact ih
  | @move s t u pid prior _ popped _ ih =>
    obtain ⟨schedstate, pmlfqNode, slot⟩ := ih
    obtain ⟨n, empties⟩ := popMlfq_empties popped
    have first : ∃ schedstate pmlfqNode, t.proc q = { s.proc q with schedstate, pmlfqNode } := by
      rw [empties.proc q]
      split
      · exact ⟨_, _, rfl⟩
      · exact ⟨_, _, rfl⟩
    have second : ∃ schedstate pmlfqNode, (t.pushMlfq pid prior).proc q = { t.proc q with schedstate, pmlfqNode } := by
      rcases pushMlfq_fills t pid prior with ⟨i, fills⟩ | ⟨_, same⟩
      · rw [fills.proc q]
        split
        · exact ⟨_, _, rfl⟩
        · exact ⟨_, _, rfl⟩
      · rw [same]
        exact ⟨_, _, rfl⟩
    obtain ⟨_, _, first⟩ := first
    obtain ⟨_, _, second⟩ := second
    rw [slot, second, first]
    exact ⟨_, _, rfl⟩

end Ticks

/-! ## Founding a group -/

/-- A slot became the master of a group with a new pid; it is in the first queue, unless that
has no empty node. -/
structure Founds (s : System) (p : Lwp) (t : System) : Prop where
  others : ∀ q, q ≠ p → t.proc q = s.proc q
  pid : (t.proc p).pid = s.nextpid
  tid : (t.proc p).tid = 1
  /-- The slot is taken. -/
  taken : (t.proc p).state ≠ .unused
  /-- It is charged to the first entry, or to none yet. -/
  pstride : (t.proc p).pstride = some 0 ∨ (t.proc p).pstride = none
  /-- It is not in the stride class. -/
  schedstate : (t.proc p).schedstate ≠ .stride
  node : (∃ i, NodeFills s s.nextpid (0, i) t ∧ (t.proc p).schedstate = .mlfq ∧ (t.proc p).pmlfqNode = some (0, i)) ∨
    (∀ i, (s.node (0, i)).state ≠ .empty) ∧ (∀ n, t.node n = s.node n) ∧ ∀ k, (t.mTable k).count = (s.mTable k).count
  sTable : t.sTable = s.sTable
  nextpid : t.nextpid = s.nextpid + 1

section Founding

variable {s t u v w : System} {p q np master : Lwp}

/-- Nodes are read from `m_table`. -/
theorem System.node_congr (same : t.mTable = s.mTable) (n : NodeRef) : t.node n = s.node n := by
  unfold System.node
  rw [same]

/-- `push_mlfq` of a new pid. -/
theorem pushMlfq_new (fresh : ∀ q, (s.proc q).pid < s.nextpid) (others : ∀ q, q ≠ p → v.proc q = s.proc q)
    (pid : (v.proc p).pid = s.nextpid) (tables : v.mTable = s.mTable) :
    (∀ q, q ≠ p → (v.pushMlfq s.nextpid 0).proc q = s.proc q) ∧ (v.pushMlfq s.nextpid 0).sTable = v.sTable ∧
      (v.pushMlfq s.nextpid 0).nextpid = v.nextpid ∧
      ((∃ i, NodeFills s s.nextpid (0, i) (v.pushMlfq s.nextpid 0) ∧ (v.pushMlfq s.nextpid 0).proc p =
          { v.proc p with schedstate := .mlfq, pmlfqNode := some (0, i) }) ∨
        (∀ i, (s.node (0, i)).state ≠ .empty) ∧ v.pushMlfq s.nextpid 0 = v) := by
  rcases pushMlfq_fills v s.nextpid 0 with ⟨i, fills⟩ | ⟨full, same⟩
  · refine ⟨fun q other => ?_, fills.sTable, fills.nextpid, .inl ⟨i, ⟨?_, ?_, ?_, ?_⟩, ?_⟩⟩
    · have old : (v.proc q).pid ≠ s.nextpid := by
        rw [others q other]
        exact Nat.ne_of_lt (fresh q)
      rw [fills.proc q, if_neg old, others q other]
    · rw [← System.node_congr tables]
      exact fills.free
    · rw [← System.node_congr tables]
      exact fills.node
    · intro n' other
      rw [← System.node_congr tables]
      exact fills.others n' other
    · intro k
      rw [← tables]
      exact fills.count k
    · rw [fills.proc p, if_pos pid]
  · rw [same]
    refine ⟨others, rfl, rfl, .inr ⟨fun i => ?_, rfl⟩⟩
    rw [← System.node_congr tables]
    exact full i

/-- `allocproc` founds a group. -/
theorem allocproc_founds (fresh : ∀ q, (s.proc q).pid < s.nextpid) (np : Lwp) :
    Founds s np ((s.takeSlot np).initSlot np) ∧ (((s.takeSlot np).initSlot np).proc np).pstride = some 0 := by
  have slot := System.setProc_self { s with nextpid := s.nextpid + 1 } np { s.proc np with
    state := .embryo, pid := s.nextpid, tid := 1, parent := some np, master := some np,
    stack := [], cur := 0, base := (s.proc np).sz, pgdir := none }
  have pid : (((s.takeSlot np).setProc np { (s.takeSlot np).proc np with kstack := true }).proc np).pid = s.nextpid := by
    rw [System.setProc_self]
    exact congrArg Proc.pid slot
  have others : ∀ q, q ≠ np →
      ((s.takeSlot np).setProc np { (s.takeSlot np).proc np with kstack := true }).proc q = s.proc q := by
    intro q other
    rw [System.setProc_other _ _ other]
    exact System.setProc_other _ _ other
  obtain ⟨same, sTable, nextpid, node⟩ := pushMlfq_new fresh others pid rfl
  have self : ((s.takeSlot np).initSlot np).proc np = { (((s.takeSlot np).setProc np
      { (s.takeSlot np).proc np with kstack := true }).pushMlfq s.nextpid 0).proc np with
      pstride := some 0, schedstate := .mlfq } := by
    unfold System.initSlot
    simp only
    rw [System.setProc_self, pid]
  have queues : ((s.takeSlot np).initSlot np).mTable = (((s.takeSlot np).setProc np
      { (s.takeSlot np).proc np with kstack := true }).pushMlfq s.nextpid 0).mTable := by
    unfold System.initSlot
    simp only
    rw [pid]
    rfl
  have kept : ∀ {q r : Proc}, q.SameGroup r → q.state = .embryo → r.state ≠ .unused := by
    intro q r same embryo
    rw [(same.state_iff rfl).mpr embryo]
    exact RunState.noConfusion
  have sorted := Sorted.initSlot (s.takeSlot np) np
  refine ⟨⟨fun q other => ?_, ?_, ?_, ?_, .inl ?_, ?_, ?_, ?_, ?_⟩, ?_⟩
  · unfold System.initSlot
    simp only
    rw [System.setProc_other _ _ other, pid]
    exact same q other
  · rw [(sorted.groups.proc np).pid]
    exact congrArg Proc.pid slot
  · rw [(sorted.groups.proc np).tid]
    exact congrArg Proc.tid slot
  · exact kept (sorted.groups.proc np) (takeSlot_embryo s np)
  · rw [self]
  · rw [self]
    exact StrideState.noConfusion
  · rcases node with ⟨i, fills, moved⟩ | ⟨full, unchanged⟩
    · refine .inl ⟨i, ⟨fills.free, ?_, ?_, ?_⟩, ?_, ?_⟩
      · rw [System.node_congr queues]
        exact fills.node
      · intro n' other
        rw [System.node_congr queues]
        exact fills.others n' other
      · intro k
        rw [queues]
        exact fills.count k
      · rw [self]
      · rw [self, moved]
    · refine .inr ⟨full, fun n => ?_, fun k => ?_⟩
      · rw [System.node_congr queues, unchanged]
        rfl
      · rw [queues, unchanged]
        rfl
  · unfold System.initSlot
    simp only
    rw [pid]
    exact sTable
  · exact sorted.groups.nextpid
  · rw [self]

/-- `exec_delete_thread` founds a group, once it has killed the other LWPs. -/
theorem leaveGroup_founds (fresh : ∀ q, (s.proc q).pid < s.nextpid) (started : (s.proc p).state.started = true) :
    Founds s p ((s.leaveGroup p).pushMlfq ((s.leaveGroup p).proc p).pid 0) := by
  have slot : (s.leaveGroup p).proc p = { s.proc p with
      schedstate := .used, pmlfqNode := none, pstride := none,
      pid := s.nextpid, tid := 1, parent := some s.initproc, master := some p } := System.setProc_self _ _ _
  have pid : ((s.leaveGroup p).proc p).pid = s.nextpid := by rw [slot]
  obtain ⟨same, sTable, nextpid, node⟩ := pushMlfq_new (v := s.leaveGroup p) fresh
    (fun q other => System.setProc_other _ _ other) pid rfl
  have sorted := Sorted.pushMlfq (s.leaveGroup p) s.nextpid 0
  rw [pid]
  refine ⟨same, ?_, ?_, ?_, .inr ?_, ?_, ?_, sTable, nextpid⟩
  · rw [(sorted.groups.proc p).pid, slot]
  · rw [(sorted.groups.proc p).tid, slot]
  · intro unused
    rw [(sorted.groups.proc p).state_iff rfl, slot] at unused
    rw [show (s.proc p).state = .unused from unused] at started
    contradiction
  · rcases node with ⟨_, _, moved⟩ | ⟨_, unchanged⟩
    · rw [moved, slot]
    · rw [unchanged, slot]
  · rcases node with ⟨_, _, moved⟩ | ⟨_, unchanged⟩
    · rw [moved]
      exact StrideState.noConfusion
    · rw [unchanged, slot]
      exact StrideState.noConfusion
  · rcases node with ⟨i, fills, moved⟩ | ⟨full, unchanged⟩
    · refine .inl ⟨i, fills, ?_, ?_⟩
      · rw [moved]
      · rw [moved]
    · refine .inr ⟨full, fun n => ?_, fun k => ?_⟩
      · rw [unchanged]
        rfl
      · rw [unchanged]
        rfl

end Founding

/-! ## `thread_create` -/

/-- `thread_create` founded a group in a slot, gave its node back, and gave the slot up or
attached it to the group of its creator. -/
structure Creates (s : System) (p np : Lwp) (t : System) : Prop where
  unused : (s.proc np).state = .unused
  /-- The other slots, but for the memory of the master. -/
  others : ∀ q, q ≠ np → ∃ sz stack, t.proc q = { s.proc q with sz, stack }
  slot : (t.proc np).state = .unused ∨ ∃ m, (s.proc p).master = some m ∧ 2 ≤ (t.proc np).tid ∧
    (t.proc np).pid = (s.proc p).pid ∧ (t.proc np).master = some m ∧ (t.proc np).state = .runnable ∧
    (m ≠ np → (s.proc m).SameClass (t.proc np))
  /-- A node was emptied: the one that was filled, or any other if none was. -/
  node : ∃ n, (t.node n).prior = (s.node n).prior ∧ (t.node n).state = .empty ∧ (t.node n).pid = 0 ∧
    (∀ n', n' ≠ n → t.node n' = s.node n') ∧
    ((s.node n).state = .empty ∨ ∀ i, (s.node (0, i)).state ≠ .empty)
  /-- The counters do not shrink. -/
  count : ∀ k, (s.mTable k).count ≤ (t.mTable k).count
  sTable : t.sTable = s.sTable
  nextpid : t.nextpid = s.nextpid + 1

section Creating

variable {s t u v w : System} {p q np master : Lwp}

/-- The base of a stack is taken from the master, whose memory alone changes. -/
theorem takeBase_some {base : Nat} (taken : s.takeBase master = (base, t)) :
    (∀ q, ∃ sz stack, t.proc q = { s.proc q with sz, stack }) ∧ t.mTable = s.mTable ∧ t.sTable = s.sTable ∧
      t.nextpid = s.nextpid := by
  have slot : ∀ sz stack, ∀ q, ∃ sz' stack', (s.setProc master { s.proc master with sz, stack }).proc q =
      { s.proc q with sz := sz', stack := stack' } := by
    intro sz stack q
    by_cases here : q = master
    · rw [here, System.setProc_self]
      exact ⟨_, _, rfl⟩
    · rw [System.setProc_other _ _ here]
      exact ⟨_, _, rfl⟩
  unfold System.takeBase at taken
  split at taken
  · cases taken
    exact ⟨slot _ _, rfl, rfl, rfl⟩
  · cases taken
    exact ⟨slot _ _, rfl, rfl, rfl⟩

/-- `thread_create`. -/
theorem threadCreate_creates (fresh : ∀ q, (s.proc q).pid < s.nextpid) {tid : Nat} {outcome : StackOutcome}
    (started : (s.proc p).state.started = true) (least : 2 ≤ tid)
    (created : s.threadCreate p tid outcome = some t) : ∃ np, Creates s p np t := by
  obtain ⟨np, v, w, master, base, free, returned, points, taken, rfl⟩ := threadCreate_some created
  have unused := freeSlot_unused free
  obtain ⟨founds, _⟩ := allocproc_founds fresh np
  obtain ⟨slots, mTable, sTable, nextpid⟩ := takeBase_some taken
  have apart : p ≠ np := by
    rintro rfl
    rw [unused] at started
    contradiction
  obtain ⟨n, points', rfl⟩ : ∃ n, (((s.takeSlot np).initSlot np).proc np).pmlfqNode = some n ∧
      v = ((s.takeSlot np).initSlot np).setNode n { ((s.takeSlot np).initSlot np).node n with
        pid := 0, state := .empty, eticks := 0 } := by
    unfold System.returnNode at returned
    split at returned
    · contradiction
    · rename_i n node
      exact ⟨n, node, (Option.some.inj returned).symm⟩
  have others : ∀ q, q ≠ np → ∃ sz stack, w.proc q = { s.proc q with sz, stack } := by
    intro q other
    obtain ⟨sz, stack, slot⟩ := slots q
    rw [show (((s.takeSlot np).initSlot np).setNode n _).proc q = s.proc q from founds.others q other] at slot
    exact ⟨sz, stack, slot⟩
  have finished : (w.finishThread p master np tid base outcome).mTable = w.mTable ∧
      (w.finishThread p master np tid base outcome).sTable = w.sTable ∧
      (w.finishThread p master np tid base outcome).nextpid = w.nextpid := by
    cases outcome <;> exact ⟨rfl, rfl, rfl⟩
  have points : (s.proc p).master = some master := by
    rw [show (((s.takeSlot np).initSlot np).setNode n _).proc p = s.proc p from founds.others p apart] at points
    exact points
  refine ⟨np, unused, ?_, ?_, ⟨n, ?_⟩, ?_, ?_, ?_⟩
  · intro q other
    change ∃ sz stack, (w.finishThread p master np tid base outcome).proc q = _
    cases outcome with
    | noMemory =>
      unfold System.finishThread
      rw [System.setProc_other _ _ other]
      exact others q other
    | noCopy =>
      unfold System.finishThread
      simp only
      rw [System.setProc_other _ _ other]
      by_cases here : q = master
      · rw [here, System.setProc_self]
        obtain ⟨sz, stack, slot⟩ := others master (fun same => other (here.trans same))
        rw [slot]
        exact ⟨_, _, rfl⟩
      · rw [System.setProc_other _ _ here]
        exact others q other
    | mapped =>
      unfold System.finishThread System.attach
      change ∃ sz stack, (w.setProc np _).proc q = _
      rw [System.setProc_other _ _ other]
      exact others q other
  · change ((w.finishThread p master np tid base outcome).proc np).state = .unused ∨ ∃ m, _ ∧
      2 ≤ ((w.finishThread p master np tid base outcome).proc np).tid ∧
      ((w.finishThread p master np tid base outcome).proc np).pid = _ ∧
      ((w.finishThread p master np tid base outcome).proc np).master = _ ∧
      ((w.finishThread p master np tid base outcome).proc np).state = _ ∧ (_ → Proc.SameClass _ ((w.finishThread p master np tid base outcome).proc np))
    cases outcome with
    | noMemory =>
      left
      unfold System.finishThread
      rw [System.setProc_self]
    | noCopy =>
      left
      unfold System.finishThread
      simp only
      rw [System.setProc_self]
    | mapped =>
      right
      have self : (w.finishThread p master np tid base .mapped).proc np = _ := System.setProc_self w np _
      rw [self]
      refine ⟨master, points, least, ?_, rfl, rfl, fun other => ?_⟩
      · obtain ⟨sz, stack, slot⟩ := others p apart
        change (w.proc p).pid = _
        rw [slot]
      · obtain ⟨sz, stack, slot⟩ := others master other
        refine ⟨?_, ?_, ?_⟩
        · change (w.proc master).schedstate = _
          rw [slot]
        · change (w.proc master).pstride = _
          rw [slot]
        · change (w.proc master).pmlfqNode = _
          rw [slot]
  · have node : ∀ n', ((w.finishThread p master np tid base outcome).setCall p .none).node n' =
        (((s.takeSlot np).initSlot np).setNode n { ((s.takeSlot np).initSlot np).node n with
          pid := 0, state := .empty, eticks := 0 }).node n' :=
      System.node_congr (finished.1.trans mTable)
    rw [node n, System.setNode_self]
    refine ⟨?_, rfl, rfl, ?_, ?_⟩
    · rcases founds.node with ⟨i, fills, _, place⟩ | ⟨_, nodes, _⟩
      · rw [points'] at place
        cases place
        change (((s.takeSlot np).initSlot np).node (0, i)).prior = _
        rw [fills.node]
      · change (((s.takeSlot np).initSlot np).node n).prior = _
        rw [nodes n]
    · intro n' other
      rw [node n', System.setNode_other _ _ other]
      rcases founds.node with ⟨i, fills, _, place⟩ | ⟨_, nodes, _⟩
      · rw [points'] at place
        cases place
        exact fills.others n' other
      · exact nodes n'
    · rcases founds.node with ⟨i, fills, _, place⟩ | ⟨full, _, _⟩
      · rw [points'] at place
        cases place
        exact .inl fills.free
      · exact .inr full
  · intro k
    change (s.mTable k).count ≤ ((w.finishThread p master np tid base outcome).mTable k).count
    rw [finished.1, mTable, System.setNode_count]
    rcases founds.node with ⟨i, fills, _, _⟩ | ⟨_, _, count⟩
    · rw [fills.count k]
      split
      · omega
      · omega
    · rw [count k]
  · exact (finished.2.1.trans sTable).trans founds.sTable
  · exact (finished.2.2.trans nextpid).trans founds.nextpid

end Creating

/-! ## `delete_thread` and `set_cpu_share` -/

/-- What `delete_thread` gives up. -/
inductive Drops (s : System) (p : Lwp) (t : System) : Prop where
  /-- Nothing, for an LWP that is no master or a master in no class. -/
  | none : ((s.proc p).tid = 1 → (s.proc p).schedstate = .used ∨ (s.proc p).schedstate = .empty) →
      t.mTable = s.mTable → t.sTable = s.sTable → Drops s p t
  /-- The node of a master. -/
  | node (n : NodeRef) : (s.proc p).tid = 1 → (s.proc p).schedstate = .mlfq → (s.proc p).pmlfqNode = some n →
      t.node n = { s.node n with state := .empty, pid := 0 } → (∀ n', n' ≠ n → t.node n' = s.node n') →
      (∀ k, (t.mTable k).count = (s.mTable k).count) → t.sTable = s.sTable → Drops s p t
  /-- The entry of a master. -/
  | entry (e : Entry) : (s.proc p).tid = 1 → (s.proc p).schedstate = .stride → (s.proc p).pstride = some e →
      t.mTable = s.mTable →
      (e ≠ 0 → (t.sTable e).state = .empty ∧ ∀ e', e' ≠ e → (t.sTable e').state = (s.sTable e').state ∧
        (t.sTable e').pid = (s.sTable e').pid ∧ (t.sTable e').pass = (s.sTable e').pass) → Drops s p t

/-- `set_cpu_share` moved the group of a pid to an entry. -/
structure Shares (s : System) (pid : Nat) (minPass : Int) (e : Entry) (t : System) : Prop where
  /-- The entry was empty and is not the first one. -/
  free : e ≠ 0 ∧ (s.sTable e).state = .empty
  entry : (t.sTable e).state = .used ∧ (t.sTable e).pid = pid ∧ (t.sTable e).pass = minPass
  /-- The other entries. -/
  others : ∀ e', e' ≠ e → (t.sTable e').state = (s.sTable e').state ∧
    (t.sTable e').pid = (s.sTable e').pid ∧ (t.sTable e').pass = (s.sTable e').pass
  /-- The slots of the pid are charged to the entry. -/
  proc : ∀ q, t.proc q = if (s.proc q).pid = pid then
    { s.proc q with schedstate := .stride, pstride := some e } else s.proc q
  mTable : t.mTable = s.mTable
  nextpid : t.nextpid = s.nextpid

section Sharing

variable {s t u : System} {p : Lwp}

/-- `delete_thread`. -/
theorem deleteThread_drops (deleted : s.deleteThread p = some t) : Drops s p t := by
  obtain ⟨master, u, _, rfl, ⟨whole, dropped⟩ | ⟨thread, rfl⟩⟩ := System.deleteThread_some deleted
  · obtain ⟨v, d, given, _, rfl⟩ := System.dropMaster_some dropped
    unfold System.dropClass at given
    split at given
    · rename_i queued
      split at given
      · contradiction
      · rename_i n node
        cases given
        exact .node n whole queued node (System.setNode_self _ _ _) (fun n' other => System.setNode_other _ _ other)
          (System.setNode_count _ _ _) rfl
    · rename_i shared
      split at given
      · contradiction
      · rename_i e entry
        simp only at given
        split at given
        · contradiction
        · cases given
          refine .entry e whole shared entry rfl fun other => ⟨?_, fun e' away => ?_⟩
          · change Stride.state (Function.update (_ : Entry → Stride) e _ e) = _
            rw [Function.update_self]
          · change Stride.state (Function.update (_ : Entry → Stride) e _ e') = _ ∧ Stride.pid (Function.update (_ : Entry → Stride) e _ e') = _ ∧
              Stride.pass (Function.update (_ : Entry → Stride) e _ e') = _
            rw [Function.update_of_ne away]
            by_cases first : e' = 0
            · rw [first, Function.update_self]
              exact ⟨rfl, rfl, rfl⟩
            · rw [Function.update_of_ne first]
              exact ⟨rfl, rfl, rfl⟩
    · rename_i notQueued notShared
      cases given
      refine .none (fun _ => ?_) rfl rfl
      cases state : (s.proc p).schedstate with
      | used => exact .inl rfl
      | empty => exact .inr rfl
      | mlfq => exact absurd state notQueued
      | stride => exact absurd state notShared
  · exact .none (fun whole => absurd whole thread) rfl rfl

/-- The locked part of `set_cpu_share`. -/
theorem shareUpdate_shares {master : Lwp} {inquire minPass : Int}
    (updated : s.shareUpdate master inquire minPass = some t) :
    ∃ u e, ((∃ n, Empties s (s.proc master).pid n u) ∨ u = s ∧ ∀ n, (s.node n).pid ≠ (s.proc master).pid) ∧
      Shares u (s.proc master).pid minPass e t := by
  have popped : (∃ n, Empties s (s.proc master).pid n ((s.popMlfq (s.proc master).pid).getD s)) ∨
      (s.popMlfq (s.proc master).pid).getD s = s ∧ ∀ n, (s.node n).pid ≠ (s.proc master).pid := by
    cases result : s.popMlfq (s.proc master).pid with
    | none => exact .inr ⟨rfl, popMlfq_none result⟩
    | some u => exact .inl (popMlfq_empties result)
  unfold System.shareUpdate at updated
  simp only at updated
  split at updated
  · contradiction
  · rename_i e found
    have free := firstSlot_some found
    rw [Bool.and_eq_true, decide_eq_true_eq, beq_iff_eq] at free
    refine ⟨_, e, popped, ?_⟩
    split at updated
    · contradiction
    · rename_i v assigned
      cases updated
      unfold System.assign at assigned
      simp only at assigned
      split at assigned
      · contradiction
      · cases assigned
        refine ⟨free, ?_, fun e' away => ?_, fun q => rfl, rfl, rfl⟩
        · change Stride.state (Function.update (_ : Entry → Stride) 0 _ e) = _ ∧ Stride.pid (Function.update (_ : Entry → Stride) 0 _ e) = _ ∧ Stride.pass (Function.update (_ : Entry → Stride) 0 _ e) = _
          rw [Function.update_of_ne free.1, Function.update_self]
          exact ⟨rfl, rfl, rfl⟩
        · change Stride.state (Function.update (_ : Entry → Stride) 0 _ e') = _ ∧ Stride.pid (Function.update (_ : Entry → Stride) 0 _ e') = _ ∧
            Stride.pass (Function.update (_ : Entry → Stride) 0 _ e') = _
          by_cases first : e' = 0
          · rw [first, Function.update_self, Function.update_of_ne free.1.symm]
            exact ⟨rfl, rfl, rfl⟩
          · rw [Function.update_of_ne first, Function.update_of_ne away]
            exact ⟨rfl, rfl, rfl⟩

end Sharing

/-! ## Steps -/

/-- The slot is a member of the same group in the same class. -/
structure Proc.SameMember (q r : Proc) : Prop extends Proc.SameClass q r where
  pid : r.pid = q.pid
  tid : r.tid = q.tid
  /-- The slot was taken. -/
  taken : q.state ≠ .unused

/-- Slots were given up at most; the others are in their groups and classes. -/
structure Retains (s t : System) : Prop where
  /-- The slots that are taken. -/
  slots : ∀ q, (t.proc q).state ≠ .unused → (s.proc q).SameMember (t.proc q)
  node : ∀ n, t.node n = s.node n
  count : ∀ k, (t.mTable k).count = (s.mTable k).count
  sTable : t.sTable = s.sTable
  nextpid : s.nextpid ≤ t.nextpid

/-- What a step changes of the scheduler's tables. -/
inductive TableStep (s : System) : Event → System → Prop where
  /-- Nothing. -/
  | kept {t : System} (event : Event) : Retains s t → TableStep s event t
  /-- Zombies are deleted. -/
  | reaps {t : System} (u : System) (event : Event) : event.reaping = true → Reaps s u → Retains u t →
      TableStep s event t
  /-- `fork` or `exec` founds a group. -/
  | founds {t : System} (p : Lwp) (u v : System) (event : Event) : Calm s u → Founds u p v →
      (∀ q, (v.proc q).state ≠ .unused → 0 < (v.proc q).pid) → Retains v t →
      ((∃ q, event = .fork q true) ∧ (v.proc p).pstride = some 0 ∧ (s.proc p).state = .unused ∨
        event = .exec p ∧ (s.proc p).state = .running ∧ (s.proc p).tid ≠ 1) →
      TableStep s event t
  /-- `thread_create` adds an LWP or gives up. -/
  | creates {t : System} (p np : Lwp) (outcome : StackOutcome) : (s.proc p).state.started = true →
      Creates s p np t → TableStep s (.threadCreate p outcome) t
  /-- `set_cpu_share` moves a group. -/
  | shares {t : System} (p master : Lwp) (inquire minPass : Int) (u : System) :
      (s.proc p).state.started = true → s.call p = .setCpuShare master inquire minPass →
      s.shareUpdate master inquire minPass = some u → Retains u t → TableStep s (.shareUpdate p) t
  /-- A tick is charged and may move pids. -/
  | ticks {t : System} (p : Lwp) (u : System) : s.addPassStride p = some u → Charges s u → Requeues u t →
      TableStep s (.tick p) t

section Steps

variable {s t u : System} {p q np : Lwp}

/-- A slot that was taken and changed neither group nor class. -/
theorem Proc.SameMember.of_same {q r : Proc} (group : q.SameGroup r) (sched : q.SameClass r) (taken : r.state ≠ .unused) :
    q.SameMember r :=
  ⟨sched, group.pid, group.tid, fun unused => taken ((group.state_iff rfl).mpr unused)⟩

/-- The slot is the same. -/
theorem Proc.SameMember.of_eq {q r : Proc} (same : r = q) (taken : r.state ≠ .unused) : q.SameMember r := by
  rw [same] at taken ⊢
  exact ⟨.refl q, rfl, rfl, taken⟩

/-- Two changes of a slot. -/
theorem Proc.SameMember.trans {q r v : Proc} (first : q.SameMember r) (second : r.SameMember v) : q.SameMember v :=
  ⟨⟨second.schedstate.trans first.schedstate, second.pstride.trans first.pstride,
    second.pmlfqNode.trans first.pmlfqNode⟩, second.pid.trans first.pid, second.tid.trans first.tid, first.taken⟩

/-- A calm change keeps groups and classes. -/
theorem Retains.of_calm (calm : Calm s t) : Retains s t where
  slots q taken := .of_same (calm.groups.proc q) (calm.classes.proc q) taken
  node := calm.classes.node
  count := calm.classes.count
  sTable := calm.classes.sTable
  nextpid := Nat.le_of_eq calm.groups.nextpid.symm

/-- Two changes. -/
theorem Retains.trans (first : Retains s t) (second : Retains t u) : Retains s u where
  slots q taken := (first.slots q (second.slots q taken).taken).trans (second.slots q taken)
  node n := (second.node n).trans (first.node n)
  count k := (second.count k).trans (first.count k)
  sTable := second.sTable.trans first.sTable
  nextpid := Nat.le_trans first.nextpid second.nextpid

/-- One slot was given up or is still a member. -/
theorem Retains.of_slot (slot : (t.proc p).state = .unused ∨ (s.proc p).SameMember (t.proc p))
    (others : ∀ q, q ≠ p → t.proc q = s.proc q) (mTable : t.mTable = s.mTable) (sTable : t.sTable = s.sTable)
    (nextpid : s.nextpid ≤ t.nextpid) : Retains s t := by
  refine ⟨fun q taken => ?_, System.node_congr mTable, fun k => by rw [mTable], sTable, nextpid⟩
  by_cases here : q = p
  · rw [here] at taken ⊢
    exact slot.resolve_left taken
  · exact .of_eq (others q here) taken

/-- Only directories and calls differ. -/
theorem Retains.of_tables (proc : t.proc = s.proc) (mTable : t.mTable = s.mTable) (sTable : t.sTable = s.sTable)
    (nextpid : s.nextpid ≤ t.nextpid) : Retains s t :=
  ⟨fun q taken => .of_eq (congrFun proc q) taken, System.node_congr mTable, fun k => by rw [mTable], sTable, nextpid⟩

/-- A started LWP becomes a zombie. -/
theorem Retains.zombie (started : (s.proc p).state.started = true) : Retains s (s.zombie p) := by
  refine .of_slot (p := p) (.inr ?_) (fun q other => System.setProc_other _ _ other) rfl rfl (Nat.le_refl _)
  have self : (s.zombie p).proc p = { s.proc p with state := .zombie } := System.setProc_self _ _ _
  rw [self]
  refine ⟨⟨rfl, rfl, rfl⟩, rfl, rfl, fun unused => ?_⟩
  rw [unused] at started
  contradiction

/-- A directory that was begun is given up. -/
theorem Retains.discard {begun : Option Nat} (discarded : s.discard p begun = some t) : Retains s t := by
  unfold System.discard at discarded
  split at discarded
  · cases discarded
    exact .of_tables rfl rfl rfl (Nat.le_refl _)
  · split at discarded
    · contradiction
    · cases discarded
      exact .of_tables rfl rfl rfl (Nat.le_refl _)

/-- The rest of `fork`. -/
theorem Retains.forkCopy {result : CopyResult} (embryo : (s.proc np).state = .embryo)
    (copied : s.forkCopy p np result = some t) : Retains s t := by
  rcases forkCopy_some copied with ⟨_, u, rfl, discarded, rfl⟩ | ⟨_, rfl, _, rfl⟩
  · refine (Retains.discard discarded).trans ?_
    refine .of_slot (p := np) (.inl ?_) (fun q other => System.setProc_other _ _ other) rfl rfl (Nat.le_refl _)
    exact congrArg Proc.state (System.setProc_self u np _)
  · refine .of_slot (p := np) (.inr ?_) (fun q other => System.setProc_other _ _ other) rfl rfl (Nat.le_refl _)
    change (s.proc np).SameMember ((System.setProc { s with dirs := _ } np _).proc np)
    rw [System.setProc_self]
    refine ⟨⟨rfl, rfl, rfl⟩, rfl, rfl, ?_⟩
    rw [embryo]
    exact RunState.noConfusion

/-- The commit of `exec`. -/
theorem Retains.execCommit {isMaster : Bool} {pgdir sz : Nat} (started : (s.proc p).state.started = true)
    (committed : s.execCommit p isMaster pgdir sz = some t) : Retains s t := by
  have moved : Retains s ({ s with dirs := Function.update s.dirs pgdir true }.setProc p
      { s.proc p with pgdir := some pgdir, sz }) := by
    refine .of_slot (p := p) (.inr ?_) (fun q other => System.setProc_other _ _ other) rfl rfl (Nat.le_refl _)
    rw [System.setProc_self]
    refine ⟨⟨rfl, rfl, rfl⟩, rfl, rfl, fun unused => ?_⟩
    rw [unused] at started
    contradiction
  unfold System.execCommit at committed
  split at committed
  · contradiction
  · simp only at committed
    split at committed
    · cases committed
      exact moved.trans (.of_tables rfl rfl rfl (Nat.le_refl _))
    · contradiction
    · cases committed
      exact moved.trans (.of_tables rfl rfl rfl (Nat.le_refl _))

/-- After a group was founded every taken slot has a pid. -/
theorem Founds.positive (founds : Founds s p t) (ranked : Ranked s) (q : Lwp) (taken : (t.proc q).state ≠ .unused) :
    0 < (t.proc q).pid := by
  by_cases here : q = p
  · rw [here, founds.pid]
    exact Nat.lt_of_le_of_lt (Nat.zero_le _) (ranked.fresh p)
  · rw [founds.others q here] at taken ⊢
    exact ranked.positive q taken

/-- `fork` up to the return of `allocproc`. -/
theorem TableStep.fork (ranked : Ranked s) (p : Lwp) (kalloc : Bool) :
    TableStep s (.fork p kalloc) (s.fork p kalloc) := by
  rcases fork_cases s p kalloc with same | ⟨np, _, _, same⟩ | ⟨np, free, rfl, same⟩
  · rw [same]
    exact .kept _ (.of_tables rfl rfl rfl (Nat.le_refl _))
  · rw [same]
    refine .kept _ (.of_slot (p := np) (.inl ?_) (fun q other => ?_) rfl rfl (Nat.le_succ _))
    · exact congrArg Proc.state (System.setProc_self (s.takeSlot np) np _)
    · rw [System.setProc_other _ _ other]
      exact System.setProc_other _ _ other
  · rw [same]
    obtain ⟨founds, charged⟩ := allocproc_founds ranked.fresh np
    exact .founds np s _ _ (.refl s) founds (founds.positive ranked) (.of_tables rfl rfl rfl (Nat.le_refl _))
      (.inl ⟨⟨p, rfl⟩, charged, freeSlot_unused free⟩)

/-- Every step changes the tables in one of these ways. -/
theorem step_tables {event : Event} (ranked : Ranked s) (effect : Effect s event t) : TableStep s event t := by
  cases effect with
  | calm _ calm => exact .kept _ (.of_calm calm)
  | fork p kalloc _ _ => exact .fork ranked p kalloc
  | forkCopy p np result _ call copied => exact .kept _ (.forkCopy (ranked.forking p np call) copied)
  | threadChoose p _ _ => exact .kept _ (.of_tables rfl rfl rfl (Nat.le_refl _))
  | threadCreate p tid outcome running call created =>
    have started := System.started_of_running running
    obtain ⟨np, creates⟩ := threadCreate_creates ranked.fresh started (ranked.creating p tid call) created
    exact .creates p np outcome started creates
  | threadExit p retval u running _ before after =>
    refine .kept _ ((Retains.of_calm before).trans (.trans (.zombie ?_) (.of_calm after)))
    rw [(before.groups.proc p).started]
    exact System.started_of_running running
  | reaps p _ _ reaping reaps => exact .reaps t _ reaping reaps (.of_tables rfl rfl rfl (Nat.le_refl _))
  | exit p _ u running which reaps _ after =>
    refine .reaps u _ ?_ reaps (.trans (.zombie ?_) (.of_calm after))
    · rcases which with ⟨rfl, _⟩ | ⟨rfl, _⟩
      · rfl
      · rfl
    · rw [(reaps.started (System.started_of_running running)).started]
      exact System.started_of_running running
  | detach p running call thread =>
    have started := System.started_of_running running
    have killed := Calm.killOthers s p
    have alive : ((s.killOthers p).proc p).state.started = true := by
      rw [(killed.groups.proc p).started]
      exact started
    have between := ranked.congr killed.groups
    have founds := leaveGroup_founds between.fresh alive
    exact .founds p _ _ _ killed founds (founds.positive between) (.of_tables rfl rfl rfl (Nat.le_refl _))
      (.inr ⟨rfl, running, thread⟩)
  | exec p _ _ _ => exact .kept _ (.of_tables rfl rfl rfl (Nat.le_refl _))
  | execFail p begun _ discarded => exact .kept _ ((Retains.discard discarded).trans (.of_tables rfl rfl rfl (Nat.le_refl _)))
  | execCommit p isMaster pgdir sz running _ committed =>
    exact .kept _ (.execCommit (System.started_of_running running) committed)
  | shareCheck p master inquire minPass _ _ _ _ => exact .kept _ (.of_tables rfl rfl rfl (Nat.le_refl _))
  | shareUpdate p master inquire minPass running call updated =>
    exact .shares p master inquire minPass _ (System.started_of_running running) call updated
      (.of_tables rfl rfl rfl (Nat.le_refl _))
  | tick p yields running ticked =>
    have positive : 0 < (s.proc p).pid := by
      refine ranked.positive p fun unused => ?_
      rw [unused] at running
      contradiction
    obtain ⟨u, charged, charges, requeues⟩ := addTick_requeues positive ticked
    exact .ticks p u charged charges requeues

end Steps

end Xv6
