import Xv6.Lib.Runs
import Xv6.Verif.Classes

/-!
# Queue counters

`push_mlfq` and `pop_mlfq` keep the counters of the queues. `thread_create` and `delete_thread`
empty nodes by themselves and leave the counters alone, so that a counter can only become too
large. In runs without the two the counters are exact.
-/

namespace Xv6

open Occupancy

/-- By how much the counter of a queue exceeds its used nodes. -/
def System.surplus (s : System) (k : Fin 3) : Int := (s.mTable k).count - s.usedIn k

section Surplus

variable {s t u : System} {p q : Lwp} {pid : Nat} {n : NodeRef}

/-- The nodes and the counters are the same. -/
theorem SameNodes.surplus (nodes : SameNodes s t) (count : ∀ k, (t.mTable k).count = (s.mTable k).count) (k : Fin 3) :
    t.surplus k = s.surplus k := by
  unfold System.surplus
  rw [count k, nodes.usedIn k]

/-- Slots were given up at most. -/
theorem Retains.surplus (retains : Retains s t) (k : Fin 3) : t.surplus k = s.surplus k :=
  (SameNodes.of_eq retains.node).surplus retains.count k

/-- The queues are the same. -/
theorem surplus_congr (same : t.mTable = s.mTable) (k : Fin 3) : t.surplus k = s.surplus k :=
  (SameNodes.of_eq (System.node_congr same)).surplus (fun k => by rw [same]) k

/-- A filled node is counted. -/
theorem NodeFills.surplus (fills : NodeFills s pid n t) (k : Fin 3) : t.surplus k = s.surplus k := by
  unfold System.surplus
  rw [fills.count k, fills.usedIn k]
  by_cases queue : k = n.1
  · rw [if_pos queue, if_pos queue]
    omega
  · rw [if_neg queue, if_neg queue]
    omega

/-- A popped node is no longer counted. -/
theorem Empties.surplus (empties : Empties s pid n t) (queues : Queues s) (positive : 0 < pid) (k : Fin 3) :
    t.surplus k = s.surplus k := by
  unfold System.surplus
  rw [empties.count k, queues.prior n, empties.usedIn (queues.empties empties positive).2.1 k]
  by_cases queue : k = n.1
  · rw [if_pos queue, if_pos queue]
    omega
  · rw [if_neg queue, if_neg queue]
    omega

/-- Moves between queues are counted. -/
theorem Requeues.surplus (requeues : Requeues s t) (queues : Queues s) (classed : Classed s)
    (positive : ∀ q, (s.proc q).state ≠ .unused → 0 < (s.proc q).pid) (k : Fin 3) : t.surplus k = s.surplus k := by
  induction requeues with
  | nil => rfl
  | @tick s t u ticked _ ih =>
    obtain ⟨queues', classed'⟩ := Queues.requeues ticked.requeues queues classed positive
    refine (ih queues' classed' ?_).trans (ticked.nodes.surplus ticked.count k)
    rw [ticked.proc]
    exact positive
  | @move s t u pid prior known popped rest ih =>
    have moved : Requeues s (t.pushMlfq pid prior) := .move pid prior known popped (.nil _)
    obtain ⟨queues', classed'⟩ := Queues.requeues moved queues classed positive
    obtain ⟨n, empties⟩ := popMlfq_empties popped
    have left := empties.surplus queues (queues.positive_of_known known) k
    refine (ih queues' classed' fun q taken => ?_).trans (.trans ?_ left)
    · obtain ⟨_, _, slot⟩ := moved.slot q
      rw [slot] at taken ⊢
      exact positive q taken
    · rcases pushMlfq_fills t pid prior with ⟨i, fills⟩ | ⟨_, same⟩
      · exact fills.toNodeFills.surplus k
      · rw [same]

/-- A step that neither deletes a zombie nor creates an LWP changes no surplus. -/
theorem TableStep.surplus {event : Event} (tables : TableStep s event t) (queues : Queues s) (classed : Classed s)
    (grouped : Grouped s) (keeps : event.reaping = false) (creates : ∀ p outcome, event ≠ .threadCreate p outcome)
    (k : Fin 3) : t.surplus k = s.surplus k := by
  cases tables with
  | kept _ retains => exact retains.surplus k
  | reaps u _ reaping _ _ =>
    rw [keeps] at reaping
    contradiction
  | founds p u v _ calm founds _ retains _ =>
    refine (retains.surplus k).trans (.trans ?_ ((Retains.of_calm calm).surplus k))
    rcases founds.node with ⟨i, fills, _⟩ | ⟨_, nodes, count⟩
    · exact fills.surplus k
    · exact (SameNodes.of_eq nodes).surplus count k
  | creates p np outcome _ _ => exact absurd rfl (creates p outcome)
  | shares p master inquire minPass u started call updated retains =>
    refine (retains.surplus k).trans ?_
    obtain ⟨v, e, popped, shares⟩ := shareUpdate_shares updated
    refine (surplus_congr shares.mTable k).trans ?_
    rcases popped with ⟨n, empties⟩ | ⟨rfl, _⟩
    · exact empties.surplus queues (grouped.sharing_positive started call) k
    · rfl
  | ticks p u _ charges requeues =>
    have nodes : SameNodes s u := .of_eq (System.node_congr charges.mTable)
    refine (requeues.surplus ?_ ?_ ?_ k).trans (surplus_congr charges.mTable k)
    · exact queues.congr nodes (Nat.le_of_eq charges.nextpid.symm)
    · exact classed.congr grouped.positive (fun q taken => .of_eq (congrFun charges.proc q) taken) nodes charges.entry
    · rw [charges.proc]
      exact grouped.positive

/-- A node that is emptied without being counted leaves a surplus. -/
theorem surplus_le (nodes : ∀ n, (t.node n).state = .used → (s.node n).state = .used)
    (count : ∀ k, (s.mTable k).count ≤ (t.mTable k).count) (k : Fin 3) : s.surplus k ≤ t.surplus k := by
  have fewer : t.usedIn k ≤ s.usedIn k := count_mono fun i used => nodes (k, i) used
  have larger := count k
  unfold System.surplus
  omega

/-- Deleting zombies leaves a surplus at most. -/
theorem Reaps.surplus (reaps : Reaps s t) (k : Fin 3) : s.surplus k ≤ t.surplus k := by
  induction reaps with
  | calm calm => exact Int.le_of_eq ((Retains.of_calm calm).surplus k).symm
  | @reap s t u v q before zombie deleted _ ih =>
    refine Int.le_trans (Int.le_of_eq ((Retains.of_calm before).surplus k).symm) (Int.le_trans ?_ ih)
    cases deleteThread_drops deleted with
    | none _ nodes _ => exact Int.le_of_eq (surplus_congr nodes k).symm
    | entry _ _ _ _ nodes _ => exact Int.le_of_eq (surplus_congr nodes k).symm
    | node n _ _ _ node others count _ =>
      refine surplus_le (fun n' used => ?_) (fun k => Int.le_of_eq (count k).symm) k
      have away : n' ≠ n := by
        rintro rfl
        rw [node] at used
        contradiction
      rw [others n' away] at used
      exact used

/-- No step makes a surplus smaller. -/
theorem TableStep.surplus_le {event : Event} (tables : TableStep s event t) (queues : Queues s) (classed : Classed s)
    (grouped : Grouped s) (k : Fin 3) : s.surplus k ≤ t.surplus k := by
  have whole := tables
  cases tables with
  | reaps u _ _ reaps retains => exact Int.le_trans (reaps.surplus k) (Int.le_of_eq (retains.surplus k).symm)
  | creates p np outcome _ creates =>
    refine Xv6.surplus_le (fun n' used => ?_) creates.count k
    obtain ⟨n, _, state, _, others, _⟩ := creates.node
    have away : n' ≠ n := by
      rintro rfl
      rw [state] at used
      contradiction
    rw [others n' away] at used
    exact used
  | kept event retains => exact Int.le_of_eq (retains.surplus k).symm
  | founds p u v event calm founds positive retains which =>
    refine Int.le_of_eq (whole.surplus queues classed grouped ?_ ?_ k).symm
    · rcases which with ⟨⟨_, rfl⟩, _⟩ | ⟨rfl, _⟩
      · rfl
      · rfl
    · rcases which with ⟨⟨_, rfl⟩, _⟩ | ⟨rfl, _⟩
      · exact nofun
      · exact nofun
  | shares => exact Int.le_of_eq (whole.surplus queues classed grouped rfl nofun k).symm
  | ticks => exact Int.le_of_eq (whole.surplus queues classed grouped rfl nofun k).symm

/-- The counters are exact at the start. -/
theorem surplus_userinit (d : Nat) (k : Fin 3) : (System.userinit d).surplus k = 0 := by
  have empty : System.emptyTables.surplus k = 0 := by
    have none : System.emptyTables.usedIn k = 0 := count_zero.mpr fun i used => StrideState.noConfusion used
    unfold System.surplus
    rw [none]
    rfl
  obtain ⟨founds, _⟩ := allocproc_founds Grouped.emptyTables.fresh 0
  obtain ⟨_, _, mTable, _⟩ := userinit_slots d
  refine (surplus_congr mTable k).trans (.trans ?_ empty)
  rcases founds.node with ⟨i, fills, _⟩ | ⟨_, nodes, count⟩
  · exact fills.surplus k
  · exact (SameNodes.of_eq nodes).surplus count k

end Surplus

/-! ## Processes without threads -/

/-- The zombie that a pass of `wait` collects. -/
def System.zombieChild (s : System) (p : Lwp) : Option Lwp :=
  firstSlot fun q => decide ((s.proc q).parent = some p) && decide ((s.proc q).state = .zombie)

/-- A step of the loop of `wait`. -/
def WaitsAt (s : System) (p : Lwp) (event : Event) : Prop :=
  event = .wait p ∨ event = .resume p ∧ s.call p = .wait

/-- A step that is not the rest of `thread_create`, and no collection of a master that is in a queue. -/
def countedStep (s : System) (event : Event) (t : System) : Prop :=
  s.step event = some t ∧ (∀ p outcome, event ≠ .threadCreate p outcome) ∧
    ∀ p q, WaitsAt s p event → s.zombieChild p = some q → ¬((s.proc q).tid = 1 ∧ (s.proc q).schedstate = .mlfq)

/-- Every counter is the number of used nodes of its queue. -/
def Counted (s : System) : Prop := ∀ k, s.surplus k = 0

/-- Every slot that is taken is its own master, and no slot points to another. -/
structure Solo (s : System) : Prop where
  /-- Slots point to themselves. -/
  own : ∀ q m, (s.proc q).master = some m → m = q
  /-- Slots that are taken are masters. -/
  whole : ∀ q, (s.proc q).state ≠ .unused → (s.proc q).tid = 1 ∧ (s.proc q).master = some q

section Solo

variable {s t u : System} {p q np : Lwp}

/-- A change of nothing that groups depend on. -/
theorem Solo.congr (solo : Solo s) (same : SameGroups s t) : Solo t where
  own q m master := solo.own q m ((same.proc q).master.symm.trans master)
  whole q taken := by
    rw [(same.proc q).tid, (same.proc q).master]
    exact solo.whole q fun unused => taken (((same.proc q).state_iff rfl).mpr unused)

/-- One slot changes and stays its own master or is given up. -/
theorem Solo.setProc (solo : Solo s) {r : Proc} (own : ∀ m, r.master = some m → m = p)
    (whole : r.state ≠ .unused → r.tid = 1 ∧ r.master = some p) : Solo (s.setProc p r) where
  own q m := by
    by_cases here : q = p
    · rw [here, System.setProc_self]
      exact own m
    · rw [System.setProc_other _ _ here]
      exact solo.own q m
  whole q := by
    by_cases here : q = p
    · rw [here, System.setProc_self]
      exact whole
    · rw [System.setProc_other _ _ here]
      exact solo.whole q

/-- The locked part of `allocproc`. -/
theorem Solo.takeSlot (solo : Solo s) (np : Lwp) : Solo (s.takeSlot np) := by
  have later : Solo { s with nextpid := s.nextpid + 1 } := ⟨solo.own, solo.whole⟩
  exact later.setProc (fun m same => (Option.some.inj same).symm) (fun _ => ⟨rfl, rfl⟩)

/-- `fork` up to the return of `allocproc`. -/
theorem Solo.fork (solo : Solo s) (p : Lwp) (kalloc : Bool) : Solo (s.fork p kalloc) := by
  rcases fork_cases s p kalloc with same | ⟨np, _, _, same⟩ | ⟨np, _, _, same⟩
  · rw [same]
    exact solo
  · rw [same]
    exact (solo.takeSlot np).setProc ((solo.takeSlot np).own np) (absurd rfl)
  · rw [same]
    have ready := (solo.takeSlot np).congr (Sorted.initSlot (s.takeSlot np) np).groups
    exact ⟨ready.own, ready.whole⟩

/-- The rest of `fork`. -/
theorem Solo.forkCopy (solo : Solo s) {result : CopyResult} (embryo : (s.proc np).state = .embryo)
    (copied : s.forkCopy p np result = some t) : Solo t := by
  rcases forkCopy_some copied with ⟨_, u, rfl, discarded, rfl⟩ | ⟨d, rfl, _, rfl⟩
  · have kept := solo.congr (discard_groups discarded).1
    have given := kept.setProc (p := np) (r := { u.proc np with kstack := false, state := .unused }) (kept.own np) (absurd rfl)
    exact ⟨given.own, given.whole⟩
  · have whole := solo.whole np (by rw [embryo]; exact RunState.noConfusion)
    have given := solo.setProc (p := np) (r := { s.proc np with
      pgdir := some d, sz := (s.proc p).sz, parent := some p, state := .runnable }) (solo.own np) (fun _ => whole)
    exact ⟨given.own, given.whole⟩

/-- A started LWP becomes a zombie. -/
theorem Solo.zombie (solo : Solo s) (started : (s.proc p).state.started = true) : Solo (s.zombie p) := by
  refine solo.setProc (solo.own p) fun _ => solo.whole p fun unused => ?_
  rw [unused] at started
  contradiction

/-- Zombies are deleted. -/
theorem Solo.reaps (solo : Solo s) (reaps : Reaps s t) : Solo t := by
  induction reaps with
  | calm calm => exact solo.congr calm.groups
  | @reap s t u v q before _ deleted _ ih =>
    have between := solo.congr before.groups
    obtain ⟨unused, _, _, none, _⟩ := System.deleteThread_self deleted
    refine ih ⟨fun r m master => ?_, fun r taken => ?_⟩
    · by_cases here : r = q
      · rw [here, none] at master
        contradiction
      · obtain ⟨stack, slot⟩ := System.deleteThread_other deleted here
        rw [slot] at master
        exact between.own r m master
    · have here : r ≠ q := by
        rintro rfl
        exact taken unused
      obtain ⟨stack, slot⟩ := System.deleteThread_other deleted here
      rw [slot] at taken ⊢
      exact between.whole r taken

/-- Without `thread_create` every slot stays its own master. -/
theorem Solo.step (solo : Solo s) (grouped : Grouped s) {event : Event} (effect : Effect s event t)
    (alone : ∀ p outcome, event ≠ .threadCreate p outcome) : Solo t := by
  have whole : ∀ {p : Lwp}, (s.proc p).state = .running → (s.proc p).tid = 1 := by
    intro p running
    refine (solo.whole p ?_).1
    rw [running]
    exact RunState.noConfusion
  cases effect with
  | calm _ calm => exact solo.congr calm.groups
  | fork p kalloc _ _ => exact solo.fork p kalloc
  | forkCopy p np result _ call copied => exact solo.forkCopy (grouped.forking p np call) copied
  | threadChoose p _ _ => exact ⟨solo.own, solo.whole⟩
  | threadCreate p tid outcome _ _ _ => exact absurd rfl (alone p outcome)
  | threadExit p retval u running _ before after =>
    refine ((solo.congr before.groups).zombie ?_).congr after.groups
    rw [(before.groups.proc p).started]
    exact System.started_of_running running
  | reaps p _ _ _ reaps => exact solo.reaps reaps
  | exit p _ u running _ reaps _ after =>
    refine ((solo.reaps reaps).zombie ?_).congr after.groups
    rw [(reaps.started (System.started_of_running running)).started]
    exact System.started_of_running running
  | detach p running _ thread => exact absurd (whole running) thread
  | exec p _ _ _ => exact ⟨solo.own, solo.whole⟩
  | execFail p begun _ discarded =>
    have kept := solo.congr (discard_groups discarded).1
    exact ⟨kept.own, kept.whole⟩
  | execCommit p isMaster pgdir sz _ _ committed => exact solo.congr (execCommit_groups committed)
  | shareCheck p master inquire minPass _ _ _ _ => exact ⟨solo.own, solo.whole⟩
  | shareUpdate p master inquire minPass _ _ updated =>
    have kept := solo.congr (Sorted.shareUpdate updated).groups
    exact ⟨kept.own, kept.whole⟩
  | tick p yields _ ticked => exact solo.congr (Sorted.addTick ticked).groups

/-- The last pass of the loop of `exit` finds nobody else. -/
theorem Solo.endLwps (solo : Solo s) (whole : (s.proc p).master = some p) (slots : List Lwp) :
    slots.foldlM (System.endLwp p) (s, 0) = some (s, 0) := by
  induction slots with
  | nil => rfl
  | cons q rest ih =>
    have passed : System.endLwp p (s, 0) q = some (s, 0) := by
      simp only [System.endLwp]
      refine if_pos ?_
      by_cases here : q = p
      · exact .inr here
      · left
        rw [whole]
        exact fun master => here (solo.own q p master).symm
    rw [List.foldlM_cons, passed]
    exact ih

/-- `exit` of a process deletes nobody. -/
theorem Solo.exitPass (solo : Solo s) (started : (s.proc p).state.started = true)
    (passed : s.exitPass p = some t) : Retains s t := by
  have taken : (s.proc p).state ≠ .unused := by
    intro unused
    rw [unused] at started
    contradiction
  unfold System.exitPass at passed
  rw [solo.endLwps (solo.whole p taken).2] at passed
  simp only [ne_eq, not_true_eq_false, if_false, Option.some.injEq] at passed
  rw [← passed]
  exact (Retains.zombie started).trans ((Retains.of_calm (.wakeup1 _ _)).trans (.of_calm (.wakeup1 _ _)))

/-- `exit` of a process deletes nobody. -/
theorem Solo.exit (solo : Solo s) (started : (s.proc p).state.started = true)
    (exited : s.exit p = some t) : Retains s t := by
  have taken : (s.proc p).state ≠ .unused := by
    intro unused
    rw [unused] at started
    contradiction
  cases exit_goes exited with
  | master master _ _ _ exited =>
    have passed := Calm.passToInit s (s.orphan p master)
    refine (Retains.of_calm passed).trans ((solo.congr passed.groups).exitPass ?_ exited)
    rw [(passed.groups.proc p).started]
    exact started
  | thread _ _ _ thread _ => exact absurd (solo.whole p taken).1 thread

/-- `thread_join` of a process finds no zombie. -/
theorem Solo.joinPass (solo : Solo s) (grouped : Grouped s) {thread : Nat} {result : JoinResult}
    (started : (s.proc p).state.started = true) (passed : s.joinPass p thread = some (result, t)) : Retains s t := by
  cases joinPass_ends passed with
  | collected q pid _ zombie _ =>
    have whole := solo.whole q (by rw [zombie]; exact RunState.noConfusion)
    obtain ⟨m, master, tid, same, _⟩ := grouped.master p started
    have here := grouped.masters m q tid whole.1 (same.trans pid.symm)
    rw [solo.own p m master] at here
    rw [← here] at zombie
    exact absurd zombie (RunState.not_zombie started)
  | failed _ _ => exact .of_calm (.setCall rfl)
  | asleep _ _ _ _ _ _ => exact .of_calm ((Calm.sleep started _).trans (.setCall rfl))

end Solo

/-! ## Exact counters -/

section Counting

variable {s t u : System} {p q : Lwp}

/-- Slots were given up at most. -/
theorem Counted.retains (counted : Counted s) (retains : Retains s t) : Counted t :=
  fun k => (retains.surplus k).trans (counted k)

/-- A slot is deleted that is no master in a queue. -/
theorem Counted.drops (counted : Counted s) (drops : Drops s p t)
    (spared : ¬((s.proc p).tid = 1 ∧ (s.proc p).schedstate = .mlfq)) : Counted t := by
  cases drops with
  | none _ nodes _ => exact fun k => (surplus_congr nodes k).trans (counted k)
  | node _ whole queued _ _ _ _ _ => exact absurd ⟨whole, queued⟩ spared
  | entry _ _ _ _ nodes _ => exact fun k => (surplus_congr nodes k).trans (counted k)

/-- One pass of the loop of `wait` that collects no master that is in a queue. -/
theorem Counted.waitPass (counted : Counted s) {result : WaitResult} (started : (s.proc p).state.started = true)
    (spared : ∀ q, s.zombieChild p = some q → ¬((s.proc q).tid = 1 ∧ (s.proc q).schedstate = .mlfq))
    (passed : s.waitPass p = some (result, t)) : Counted t := by
  cases waitPass_ends passed with
  | reaped q _ _ found deleted =>
    exact (counted.drops (deleteThread_drops deleted) (spared q found)).retains (.of_calm (.setCall rfl))
  | failed => exact counted.retains (.of_calm (.setCall rfl))
  | asleep =>
    have woken := Calm.wakeup1 s ((s.proc p).parent.map .proc)
    refine counted.retains (.of_calm ((woken.trans (.sleep ?_ _)).trans (.setCall rfl)))
    rw [(woken.groups.proc p).started]
    exact started

/-- A step that may delete zombies. -/
theorem Counted.reaping (counted : Counted s) (solo : Solo s) (grouped : Grouped s) {event : Event}
    (reaping : event.reaping = true) (taken : countedStep s event t) : Counted t := by
  obtain ⟨taken, _, spared⟩ := taken
  cases step_branch taken with
  | noJoin p thread => exact counted
  | joins p _ thread _ running _ passed =>
    exact counted.retains (solo.joinPass grouped (System.started_of_running running) passed)
  | waits p _ _ running which passed =>
    exact counted.waitPass (System.started_of_running running) (fun q => spared p q which) passed
  | exit p running _ result => exact counted.retains (solo.exit (System.started_of_running running) result)
  | resumeExit p running _ result => exact counted.retains (solo.exitPass (System.started_of_running running) result)
  | _ => contradiction

/-- Every such step keeps the counters exact. -/
theorem Counted.step (counted : Counted s) (solo : Solo s) (grouped : Grouped s) (queues : Queues s)
    (classed : Classed s) {event : Event} (taken : countedStep s event t) : Counted t := by
  cases reaping : event.reaping with
  | true => exact counted.reaping solo grouped reaping taken
  | false =>
    intro k
    have tables := step_tables grouped.ranked (step_effect taken.1)
    exact (tables.surplus queues classed grouped reaping taken.2.1 k).trans (counted k)

/-! ## The first process -/

/-- The first process is its own master. -/
theorem Solo.userinit (d : Nat) : Solo (System.userinit d) := by
  have grouped := Grouped.userinit d
  obtain ⟨others, slot, _, _⟩ := userinit_slots d
  obtain ⟨founds, _⟩ := allocproc_founds Grouped.emptyTables.fresh 0
  have started : ((System.userinit d).proc 0).state.started = true := by
    rw [slot]
    rfl
  have whole : ((System.userinit d).proc 0).tid = 1 := by
    rw [slot]
    exact founds.tid
  refine ⟨fun q m master => ?_, fun q taken => ?_⟩
  · by_cases here : q = 0
    · rw [here, grouped.own started whole] at master
      rw [here]
      exact (Option.some.inj master).symm
    · unfold System.userinit at master
      rw [System.setProc_other _ _ here, allocproc_first] at master
      change (((System.emptyTables.takeSlot 0).initSlot 0).proc q).master = some m at master
      rw [founds.others q here] at master
      contradiction
  · have here : q = 0 := by
      by_contra other
      exact taken (others q other)
    rw [here]
    exact ⟨whole, grouped.own started whole⟩

end Counting

/-- In runs without `thread_create` in which `wait` collects no master that is in a queue, every
counter is the number of used nodes of its queue. -/
theorem counters_exact {d : Nat} {events : List Event} {t : System}
    (run : Run countedStep (System.userinit d) events t) (k : Fin 3) :
    (t.mTable k).count = t.usedIn k := by
  obtain ⟨_, _, _, _, counted⟩ := run.invariant
    (fun s => Grouped s ∧ Queues s ∧ Classed s ∧ Solo s ∧ Counted s)
    (fun s event t ⟨grouped, queues, classed, solo, counted⟩ taken => by
      have effect := step_effect taken.1
      obtain ⟨queues', classed'⟩ := classed.step queues grouped.ranked (grouped.moves _) (step_tables grouped.ranked effect)
      refine ⟨grouped.step effect ?_, queues', classed', solo.step grouped effect taken.2.1,
        counted.step solo grouped queues classed taken⟩
      intro p _ _ _ q other started master
      exact other (solo.own q p master).symm)
    ⟨Grouped.userinit d, Queues.userinit d, Classed.userinit d, Solo.userinit d, surplus_userinit d⟩
  exact Int.sub_eq_zero.mp (counted k)

/-- The first process forks: two nodes are used and counted. -/
theorem counters_exact_fork :
    ∃ t, Run countedStep (System.userinit 0) [.run 0, .fork 0 true, .forkCopy 0 (.copied 1)] t ∧
      t.usedIn 0 = 2 ∧ (t.mTable 0).count = t.usedIn 0 := by
  have run : ∃ t, Run countedStep (System.userinit 0) [.run 0, .fork 0 true, .forkCopy 0 (.copied 1)] t ∧
      t.usedIn 0 = 2 := by
    refine ⟨_, .cons ⟨rfl, nofun, ?_⟩ (.cons ⟨rfl, nofun, ?_⟩ (.cons ⟨rfl, nofun, ?_⟩ (.nil _))), ?_⟩
    · rintro p q (wait | ⟨resume, _⟩) <;> contradiction
    · rintro p q (wait | ⟨resume, _⟩) <;> contradiction
    · rintro p q (wait | ⟨resume, _⟩) <;> contradiction
    · decide +kernel
  obtain ⟨t, run, used⟩ := run
  exact ⟨t, run, used, counters_exact run 0⟩

/-- The first process forks a child, which exits, and collects it: one node of the first queue is
used and two are counted. -/
theorem wait_leaves_counter :
    ∃ t, Run (fun s event t => s.step event = some t) (System.userinit 0)
        [.run 0, .fork 0 true, .forkCopy 0 (.copied 1), .run 1, .exit 1, .wait 0] t ∧
      t.usedIn 0 = 1 ∧ (t.mTable 0).count = 2 := by
  have outcome : ((Run.exec System.step [.run 0, .fork 0 true, .forkCopy 0 (.copied 1), .run 1, .exit 1, .wait 0]
      (System.userinit 0)).map fun t => (t.usedIn 0, (t.mTable 0).count)) = some (1, 2) := by
    decide +kernel
  obtain ⟨t, executed, summary⟩ := Option.map_eq_some_iff.mp outcome
  rw [Prod.mk.injEq] at summary
  exact ⟨t, Run.of_exec executed, summary⟩

end Xv6
