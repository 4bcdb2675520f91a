import Xv6.Verif.Kin

/-!
# Lineage

What holds of pids, tids, parents and system calls in every run, whatever the processes do: pids
are handed out once, a pid has one LWP with tid 1, which is its own master, the slot that `fork`
prepares belongs to one call, and the first process is never deleted.
-/

namespace Xv6

/-! ## Calls -/

/-- What a step does to the call that an LWP is inside of. -/
inductive CallStep (s : System) (p : Lwp) (t : System) : Event → Prop where
  /-- Nothing. -/
  | kept (event : Event) : t.call p = s.call p → CallStep s p t event
  /-- The call ends. -/
  | left (event : Event) : t.call p = .none → CallStep s p t event
  /-- `wait` sleeps. -/
  | waits (event : Event) : t.call p = .wait → CallStep s p t event
  /-- `fork` has taken a slot. -/
  | forks (np : Lwp) : (s.proc p).state = .running → s.freeSlot = some np → (t.proc np).state = .embryo →
      (t.proc np).pid = s.nextpid → t.call p = .fork np → CallStep s p t (.fork p true)
  /-- `thread_create` has chosen `next_tid`. -/
  | chooses : (s.proc p).state = .running → t.call p = .threadCreate (s.nextTid p) →
      CallStep s p t (.threadChoose p)
  /-- `thread_join` sleeps. -/
  | joins (thread : Nat) : (s.proc p).tid = 1 → t.call p = .threadJoin thread →
      CallStep s p t (.threadJoin p thread)
  /-- `exit` sleeps. -/
  | exits : (s.proc p).tid = 1 → p ≠ s.initproc → t.call p = .exit → CallStep s p t (.exit p)
  /-- `exec` loads the program. -/
  | execs (isMaster : Bool) : (s.proc p).state = .running → t.call p = .exec isMaster → CallStep s p t (.exec p)
  /-- `set_cpu_share` has passed its checks. -/
  | shares (master : Lwp) (inquire minPass : Int) : (s.proc p).state = .running →
      t.call p = .setCpuShare master inquire minPass → CallStep s p t (.shareCheck p inquire)

section Calls

variable {s t u : System} {p q r : Lwp}

/-- Entering a call changes no other. -/
theorem setCall_cases (s : System) (p r : Lwp) (call : Call) :
    (s.setCall p call).call r = s.call r ∨ r = p ∧ (s.setCall p call).call r = call := by
  by_cases here : r = p
  · rw [here, System.setCall_self]
    exact .inr ⟨rfl, rfl⟩
  · exact .inl (System.setCall_other s call here)

/-- Leaving a call after a step that kept the calls. -/
theorem CallStep.leave {event : Event} (same : u.call = s.call) : CallStep s r (u.setCall p .none) event := by
  rcases setCall_cases u p r .none with kept | ⟨_, left⟩
  · rw [same] at kept
    exact .kept _ kept
  · exact .left _ left

/-- The loops that pass children to init. -/
theorem passToInit_call (s : System) (child : Proc → Bool) : (s.passToInit child).call = s.call := by
  unfold System.passToInit
  simp only
  split
  · rfl
  · rfl

/-- The loop of `exit` keeps the calls. -/
theorem endLwps_call {slots : List Lwp} {kids kids' : Nat}
    (taken : slots.foldlM (System.endLwp p) (s, kids) = some (t, kids')) : t.call = s.call := by
  induction slots generalizing s kids with
  | nil =>
    cases taken
    rfl
  | cons r rest ih =>
    rw [List.foldlM_cons] at taken
    obtain ⟨⟨v, middle⟩, first, later⟩ := Option.bind_eq_some_iff.mp taken
    refine (ih later).trans ?_
    simp only [System.endLwp] at first
    split at first
    · cases first
      rfl
    · split at first
      · obtain ⟨v, deleted, result⟩ := Option.map_eq_some_iff.mp first
        cases result
        exact (System.deleteThread_rest deleted).2.2
      · split at first
        · cases first
          rfl
        · cases first
          rfl

/-- One pass of the loop of `exit`. -/
theorem exitPass_call (passed : s.exitPass p = some t) (r : Lwp) :
    t.call r = s.call r ∨ r = p ∧ t.call r = .exit := by
  unfold System.exitPass at passed
  split at passed
  · contradiction
  · rename_i u kids loop
    have same := congrFun (endLwps_call loop) r
    split at passed
    · cases passed
      rw [← same]
      exact setCall_cases (u.sleep p (.proc p)) p r .exit
    · cases passed
      exact .inl same

/-- One pass of the loop of `wait`. -/
theorem waitPass_call {event : Event} {result : WaitResult} (passed : s.waitPass p = some (result, t)) (r : Lwp) :
    CallStep s r t event := by
  cases waitPass_ends passed with
  | reaped q _ _ _ deleted => exact .leave (System.deleteThread_rest deleted).2.2
  | failed => exact .leave rfl
  | asleep =>
    rcases setCall_cases ((s.wakeup1 ((s.proc p).parent.map .proc)).sleep p (.proc p)) p r .wait with kept | ⟨_, waits⟩
    · exact .kept _ kept
    · exact .waits _ waits

/-- One pass of the loop of `thread_join`. -/
theorem joinPass_call {thread : Nat} {result : JoinResult} (passed : s.joinPass p thread = some (result, t)) (r : Lwp) :
    t.call r = s.call r ∨ t.call r = .none ∨ r = p ∧ t.call r = .threadJoin thread := by
  have leave : ∀ {u : System}, u.call = s.call → (u.setCall p .none).call r = s.call r ∨
      (u.setCall p .none).call r = .none ∨ r = p ∧ (u.setCall p .none).call r = .threadJoin thread := by
    intro u same
    rcases setCall_cases u p r .none with kept | ⟨_, left⟩
    · exact .inl (kept.trans (congrFun same r))
    · exact .inr (.inl left)
  cases joinPass_ends passed with
  | collected q _ _ _ deleted => exact leave (System.deleteThread_rest deleted).2.2
  | failed _ _ => exact leave rfl
  | asleep master _ _ _ _ _ => exact (setCall_cases (s.sleep p (.proc master)) p r (.threadJoin thread)).imp_right .inr

/-- `pick_lwp` keeps the calls. -/
theorem pickLwp_call {pid : Nat} {picked : Option Lwp} (result : s.pickLwp pid = some (picked, t)) :
    t.call = s.call := by
  unfold System.pickLwp at result
  split at result
  · contradiction
  · simp only at result
    split at result
    · cases result
      rfl
    · split at result
      · cases result
        rfl
      · cases result
        rfl

/-- `pick_mlfq` keeps the calls. -/
theorem pickQueues_call {queues : List (Fin 3)} {picked : Option Lwp}
    (result : s.pickQueues queues = some (picked, t)) : t.call = s.call := by
  induction queues with
  | nil =>
    cases result
    rfl
  | cons prior rest ih =>
    unfold System.pickQueues at result
    split at result
    · exact ih result
    · split at result
      · have same := pickLwp_call result
        exact same
      · exact ih result

/-- `pick_stride` keeps the calls. -/
theorem pickStride_call {picked : Option Lwp} (result : s.pickStride = some (picked, t)) : t.call = s.call := by
  unfold System.pickStride at result
  simp only at result
  split at result
  · split at result
    · contradiction
    · rename_i found
      cases result
      exact pickQueues_call found
    · rename_i missed
      exact (pickLwp_call result).trans (pickQueues_call missed)
  · exact pickLwp_call result

/-- `fork` up to the return of `allocproc`. -/
theorem fork_call (running : (s.proc p).state = .running) (kalloc : Bool) (r : Lwp) :
    CallStep s r (s.fork p kalloc) (.fork p kalloc) := by
  rcases fork_cases s p kalloc with same | ⟨np, _, _, same⟩ | ⟨np, free, rfl, same⟩
  · rw [same]
    exact .kept _ rfl
  · rw [same]
    exact .kept _ rfl
  · rw [same]
    have sorted := Sorted.initSlot (s.takeSlot np) np
    rcases setCall_cases ((s.takeSlot np).initSlot np) p r (.fork np) with kept | ⟨here, forks⟩
    · exact .kept _ (kept.trans (congrFun sorted.call r))
    · rw [here] at forks ⊢
      refine .forks np running free ?_ ?_ forks
      · exact ((sorted.groups.proc np).state_iff rfl).mpr (takeSlot_embryo s np)
      · refine (sorted.groups.proc np).pid.trans ?_
        rw [takeSlot_self]

/-- What every step does to every call. -/
theorem step_call {event : Event} (taken : s.step event = some t) (r : Lwp) : CallStep s r t event := by
  cases step_branch taken with
  | fork p kalloc running _ => exact fork_call running kalloc r
  | forkCopy p np copied _ _ result =>
    rcases forkCopy_some result with ⟨_, u, rfl, discarded, rfl⟩ | ⟨pgdir, rfl, _, rfl⟩
    · exact .leave (discard_groups discarded).2.1
    · rcases setCall_cases (System.setCall ({ s with dirs := Function.update s.dirs pgdir true }.setProc np _) np .none)
        p r .none with kept | ⟨_, left⟩
      · rcases setCall_cases ({ s with dirs := Function.update s.dirs pgdir true }.setProc np _) np r .none
          with same | ⟨_, left⟩
        · exact .kept _ (kept.trans same)
        · exact .left _ (kept.trans left)
      · exact .left _ left
  | threadChoose p running _ =>
    rcases setCall_cases s p r (.threadCreate (s.nextTid p)) with kept | ⟨here, chooses⟩
    · exact .kept _ kept
    · rw [here] at chooses ⊢
      exact .chooses running chooses
  | threadCreate p tid outcome _ _ result =>
    obtain ⟨np, v, w, master, base, _, returned, _, based, rfl⟩ := threadCreate_some result
    have same : w.call = s.call :=
      (((Sorted.initSlot _ np).trans (.returnNode returned)).trans (.takeBase based)).call
    cases outcome with
    | noMemory => exact .leave same
    | noCopy => exact .leave same
    | mapped =>
      rcases setCall_cases (w.finishThread p master np _ base .mapped) p r .none with kept | ⟨_, left⟩
      · rcases setCall_cases (w.attach p master np _ base) np r .none with still | ⟨_, left⟩
        · exact .kept _ (kept.trans (still.trans (congrFun same r)))
        · exact .left _ (kept.trans left)
      · exact .left _ left
  | threadExit p retval _ _ => exact .kept _ (congrFun (passToInit_call _ _) r)
  | noJoin p thread => exact .kept _ rfl
  | joins p _ thread _ _ which passed =>
    rcases joinPass_call passed r with kept | left | ⟨here, joins⟩
    · exact .kept _ kept
    · exact .left _ left
    · rw [here] at joins ⊢
      rcases which with ⟨rfl, whole⟩ | ⟨rfl, call⟩
      · exact .joins thread whole joins
      · exact .kept _ (joins.trans call.symm)
  | waits p _ _ _ _ passed => exact waitPass_call passed r
  | exit p _ _ result =>
    cases exit_goes result with
    | master master other _ whole exited =>
      rcases exitPass_call exited r with kept | ⟨here, exits⟩
      · exact .kept _ (kept.trans (congrFun (passToInit_call _ _) r))
      · rw [here] at exits ⊢
        exact .exits whole other exits
    | thread _ _ _ _ result =>
      rw [result]
      exact .kept _ (congrFun (passToInit_call _ _) r)
  | resumeExit p _ call result =>
    rcases exitPass_call result r with kept | ⟨here, exits⟩
    · exact .kept _ kept
    · rw [here] at exits ⊢
      exact .kept _ (exits.trans call.symm)
  | detach p running _ _ =>
    have same : (s.execDeleteThread p).call = s.call :=
      (Sorted.pushMlfq ((s.killOthers p).leaveGroup p) _ 0).call
    rcases setCall_cases (s.execDeleteThread p) p r (.exec false) with kept | ⟨here, execs⟩
    · exact .kept _ (kept.trans (congrFun same r))
    · rw [here] at execs ⊢
      exact .execs false running execs
  | exec p running _ _ =>
    rcases setCall_cases s p r (.exec true) with kept | ⟨here, execs⟩
    · exact .kept _ kept
    · rw [here] at execs ⊢
      exact .execs true running execs
  | execFail p begun _ discarded => exact .leave (discard_groups discarded).2.1
  | execCommit p isMaster pgdir sz _ _ result =>
    unfold System.execCommit at result
    split at result
    · contradiction
    · simp only at result
      split at result
      · cases result
        exact .leave rfl
      · contradiction
      · cases result
        exact .leave rfl
  | kill p pid =>
    unfold System.kill
    split
    · exact .kept _ rfl
    · exact .kept _ rfl
  | refused p inquire => exact .kept _ rfl
  | shareCheck p master inquire minPass running _ _ _ =>
    rcases setCall_cases s p r (.setCpuShare master inquire minPass) with kept | ⟨here, shares⟩
    · exact .kept _ kept
    · rw [here] at shares ⊢
      exact .shares master inquire minPass running shares
  | shareUpdate p master inquire minPass _ _ updated => exact .leave (Sorted.shareUpdate updated).call
  | growproc p master sz => exact .kept _ rfl
  | sleep p chan _ => exact .kept _ rfl
  | wakeup chan => exact .kept _ rfl
  | tick p yields _ ticked => exact .kept _ (congrFun (Sorted.addTick ticked).call r)
  | yield p _ => exact .kept _ rfl
  | yieldThread p next pid _ picked => exact .kept _ (congrFun (pickLwp_call picked) r)
  | run p _ => exact .kept _ rfl
  | dispatch next picked => exact .kept _ (congrFun (pickStride_call picked) r)

end Calls

/-! ## The invariant -/

/-- What holds of kin in every run. -/
structure Lineage (s : System) : Prop where
  /-- Pids were handed out. -/
  fresh : ∀ q, (s.proc q).pid < s.nextpid
  /-- A taken slot has a pid. -/
  positive : ∀ q, (s.proc q).state ≠ .unused → 0 < (s.proc q).pid
  /-- A pid has one LWP with tid 1. -/
  masters : ∀ p q, (s.proc p).state ≠ .unused → (s.proc q).state ≠ .unused → (s.proc p).tid = 1 →
    (s.proc q).tid = 1 → (s.proc p).pid = (s.proc q).pid → p = q
  /-- It is its own master. -/
  own : ∀ q, (s.proc q).state ≠ .unused → (s.proc q).tid = 1 → (s.proc q).master = some q
  /-- The slot that `fork` prepares is an embryo with another pid. -/
  forking : ∀ p np, s.call p = .fork np → (s.proc p).state.started = true ∧ (s.proc np).state = .embryo ∧
    (s.proc np).pid ≠ (s.proc p).pid
  /-- Calls of `fork` prepare different slots. -/
  forkers : ∀ p q np, s.call p = .fork np → s.call q = .fork np → p = q
  /-- `next_tid` is not the tid of a master. -/
  creating : ∀ p tid, s.call p = .threadCreate tid → 2 ≤ tid
  /-- An LWP that waits in `thread_join` is a master. -/
  joining : ∀ p thread, (s.proc p).state.started = true → s.call p = .threadJoin thread → (s.proc p).tid = 1
  /-- An LWP that waits in `exit` is a master other than the first process. -/
  ending : ∀ p, (s.proc p).state.started = true → s.call p = .exit → (s.proc p).tid = 1 ∧ p ≠ s.initproc
  /-- A slot that is unused or an embryo has no parent but itself or the first process. -/
  stale : ∀ q, (s.proc q).state = .unused ∨ (s.proc q).state = .embryo →
    (s.proc q).parent = none ∨ (s.proc q).parent = some q ∨ (s.proc q).parent = some s.initproc
  /-- The first process has not been deleted and is its own parent. -/
  root : ((s.proc s.initproc).state.started = true ∨ (s.proc s.initproc).state = .zombie) ∧
    (s.proc s.initproc).tid = 1 ∧ (s.proc s.initproc).parent = some s.initproc

section Keeping

variable {s t u : System} {p q r : Lwp}

/-- A slot that is given up at the end of `fork` or of `thread_create`. -/
theorem forkCopy_rest {np : Lwp} {result : CopyResult} (copied : s.forkCopy p np result = some t) :
    t.nextpid = s.nextpid ∧ t.initproc = s.initproc := by
  rcases forkCopy_some copied with ⟨_, u, rfl, discarded, rfl⟩ | ⟨_, rfl, _, rfl⟩
  · exact ⟨(discard_groups discarded).1.nextpid, (discard_groups discarded).1.initproc⟩
  · exact ⟨rfl, rfl⟩

/-- Reaping hands out no pid. -/
theorem Reaps.rest (reaps : Reaps s t) : t.nextpid = s.nextpid ∧ t.initproc = s.initproc := by
  induction reaps with
  | calm calm => exact ⟨calm.groups.nextpid, calm.groups.initproc⟩
  | reap q before _ deleted _ ih =>
    obtain ⟨nextpid, initproc, _⟩ := System.deleteThread_rest deleted
    exact ⟨ih.1.trans (nextpid.trans before.groups.nextpid), ih.2.trans (initproc.trans before.groups.initproc)⟩

/-- `nextpid` does not go back and the first process stays. -/
theorem step_rest {event : Event} (effect : Effect s event t) : s.nextpid ≤ t.nextpid ∧ t.initproc = s.initproc := by
  have same : ∀ {v : System}, SameGroups s v → s.nextpid ≤ v.nextpid ∧ v.initproc = s.initproc :=
    fun groups => ⟨Nat.le_of_eq groups.nextpid.symm, groups.initproc⟩
  cases effect with
  | calm _ calm => exact same calm.groups
  | fork p kalloc _ _ =>
    rcases fork_cases s p kalloc with same | ⟨np, _, _, same⟩ | ⟨np, _, _, same⟩
    · rw [same]
      exact ⟨Nat.le_refl _, rfl⟩
    · rw [same]
      exact ⟨Nat.le_succ _, rfl⟩
    · rw [same]
      have sorted := (Sorted.initSlot (s.takeSlot np) np).groups
      exact ⟨Nat.le_trans (Nat.le_succ _) (Nat.le_of_eq sorted.nextpid.symm), sorted.initproc⟩
  | forkCopy p np result _ _ copied =>
    obtain ⟨nextpid, initproc⟩ := forkCopy_rest copied
    exact ⟨Nat.le_of_eq nextpid.symm, initproc⟩
  | threadChoose p _ _ => exact ⟨Nat.le_refl _, rfl⟩
  | threadCreate p tid outcome _ _ created =>
    obtain ⟨np, v, w, master, base, _, returned, _, based, rfl⟩ := threadCreate_some created
    have sorted := (((Sorted.initSlot (s.takeSlot np) np).trans (.returnNode returned)).trans (.takeBase based)).groups
    cases outcome <;> exact ⟨Nat.le_trans (Nat.le_succ _) (Nat.le_of_eq sorted.nextpid.symm), sorted.initproc⟩
  | threadExit p retval u _ _ before after =>
    exact ⟨Nat.le_of_eq (after.groups.nextpid.trans before.groups.nextpid).symm,
      after.groups.initproc.trans before.groups.initproc⟩
  | reaps p _ _ _ reaps => exact ⟨Nat.le_of_eq reaps.rest.1.symm, reaps.rest.2⟩
  | exit p _ u _ _ reaps _ after =>
    exact ⟨Nat.le_of_eq (after.groups.nextpid.trans reaps.rest.1).symm, after.groups.initproc.trans reaps.rest.2⟩
  | detach p _ _ _ =>
    have sorted := (Sorted.pushMlfq ((s.killOthers p).leaveGroup p) (((s.killOthers p).leaveGroup p).proc p).pid 0).groups
    exact ⟨Nat.le_trans (Nat.le_succ _) (Nat.le_of_eq sorted.nextpid.symm), sorted.initproc⟩
  | exec p _ _ _ => exact ⟨Nat.le_refl _, rfl⟩
  | execFail p begun _ discarded => exact same ((discard_groups discarded).1.trans (.leave _ _))
  | execCommit p isMaster pgdir sz _ _ committed => exact same (execCommit_groups committed)
  | shareCheck p master inquire minPass _ _ _ _ => exact ⟨Nat.le_refl _, rfl⟩
  | shareUpdate p master inquire minPass _ _ updated => exact same ((Sorted.shareUpdate updated).groups.trans (.leave _ _))
  | tick p yields _ ticked => exact same (Sorted.addTick ticked).groups

/-- How a slot that is taken after a step got its pid and its tid. -/
inductive Placing (s : System) (q : Lwp) (t : System) (event : Event) : Prop where
  /-- It had them. -/
  | kept : (s.proc q).state ≠ .unused → (t.proc q).pid = (s.proc q).pid → (t.proc q).tid = (s.proc q).tid →
      (t.proc q).master = (s.proc q).master → Placing s q t event
  /-- `fork` or `exec` made it the master of a new group. -/
  | founds : (t.proc q).pid = s.nextpid → t.nextpid = s.nextpid + 1 → (t.proc q).tid = 1 →
      (t.proc q).master = some q → (s.freeSlot = some q ∧ (∃ p, event = .fork p true) ∨ event = .exec q) →
      Placing s q t event
  /-- `thread_create` made it an LWP of the group of its creator. -/
  | joins (p : Lwp) (tid : Nat) : event = .threadCreate p .mapped → (s.proc p).state = .running →
      s.call p = .threadCreate tid → s.freeSlot = some q → (t.proc q).state = .runnable →
      (t.proc q).pid = (s.proc p).pid → (t.proc q).tid = tid → 2 ≤ tid → (t.proc q).parent = some p →
      Placing s q t event

/-- A process whose state is known is taken. -/
theorem taken_of_state {state : RunState} (known : (s.proc p).state = state) (taken : state ≠ .unused) :
    (s.proc p).state ≠ .unused := by
  rw [known]
  exact taken

/-- Every taken slot has its pid and its tid in one of these ways. -/
theorem SlotStep.placing (lineage : Lineage s) {event : Event} (slot : SlotStep s q t event)
    (taken : (t.proc q).state ≠ .unused) : Placing s q t event := by
  cases slot with
  | stays _ group _ _ =>
    exact .kept (fun unused => taken ((group.state_iff rfl).mpr unused)) group.pid group.tid group.master
  | deleted _ _ _ cleared => exact absurd cleared.state taken
  | threadExit retval running _ _ _ pid tid master _ =>
    exact .kept (taken_of_state running RunState.noConfusion) pid tid master
  | ends _ _ running _ pid tid master _ => exact .kept (taken_of_state running RunState.noConfusion) pid tid master
  | founded p free _ pid nextpid tid master _ => exact .founds pid nextpid tid master (.inl ⟨free, p, rfl⟩)
  | released _ _ unused _ _ _ => exact absurd unused taken
  | abandoned p _ _ _ unused _ _ _ => exact absurd unused taken
  | started p pgdir _ call _ _ _ pid tid master _ =>
    exact .kept (taken_of_state (lineage.forking p q call).2.1 RunState.noConfusion) pid tid master
  | published p tid running call free _ state pid same parent =>
    exact .joins p tid rfl running call free state pid same (lineage.creating p tid call) parent
  | detached _ _ _ _ pid nextpid tid master _ => exact .founds pid nextpid tid master (.inr rfl)

/-- An LWP inside a call other than `exit` stays where it is. -/
theorem SlotStep.inside (lineage : Lineage s) {event : Event} (slot : SlotStep s p t event)
    (started : (s.proc p).state.started = true) (busy : s.call p ≠ .none) (other : s.call p ≠ .exit) :
    (s.proc p).SameGroup (t.proc p) := by
  have vacant : s.freeSlot ≠ some p := by
    intro free
    rw [freeSlot_unused free] at started
    contradiction
  have born : ∀ q, s.call q ≠ .fork p := by
    intro q call
    rw [(lineage.forking q p call).2.1] at started
    contradiction
  cases slot with
  | stays _ group _ _ => exact group
  | deleted _ _ zombie _ => exact absurd zombie (RunState.not_zombie started)
  | threadExit _ _ call _ _ _ _ _ _ => exact absurd call busy
  | ends _ which _ _ _ _ _ _ =>
    rcases which with ⟨_, call⟩ | ⟨_, call⟩
    · exact absurd call busy
    · exact absurd call other
  | founded _ free _ _ _ _ _ _ => exact absurd free vacant
  | released _ free _ _ _ _ => exact absurd free vacant
  | abandoned q _ call _ _ _ _ _ => exact absurd call (born q)
  | started q _ _ call _ _ _ _ _ _ _ => exact absurd call (born q)
  | published _ _ _ _ free _ _ _ _ _ => exact absurd free vacant
  | detached _ call _ _ _ _ _ _ _ => exact absurd call busy

/-- An LWP that is started inside a call was there before the step. -/
theorem SlotStep.was_inside {event : Event} (slot : SlotStep s p t event)
    (started : (t.proc p).state.started = true) (before : s.call p ≠ .none) (after : t.call p ≠ .none) :
    (s.proc p).SameGroup (t.proc p) := by
  have stopped : ∀ {state : RunState}, (t.proc p).state = state → state.started = false →
      (s.proc p).SameGroup (t.proc p) := by
    intro state known still
    rw [known, still] at started
    contradiction
  cases slot with
  | stays _ group _ _ => exact group
  | deleted _ _ _ cleared => exact stopped cleared.state rfl
  | threadExit _ _ _ zombie _ _ _ _ _ => exact stopped zombie rfl
  | ends _ _ _ zombie _ _ _ _ => exact stopped zombie rfl
  | founded _ _ embryo _ _ _ _ _ => exact stopped embryo rfl
  | released _ _ unused _ _ _ => exact stopped unused rfl
  | abandoned _ _ _ _ unused _ _ _ => exact stopped unused rfl
  | started _ _ _ _ _ left _ _ _ _ _ => exact absurd left after
  | published _ _ _ _ _ left _ _ _ _ => exact absurd left after
  | detached _ call _ _ _ _ _ _ _ => exact absurd call before

/-- The slot that a call of `fork` prepares stays an embryo while the call goes on. -/
theorem SlotStep.prepared (lineage : Lineage s) {event : Event} {np : Lwp} (slot : SlotStep s np t event)
    (call : s.call p = .fork np) (still : t.call p = .fork np) : (s.proc np).SameGroup (t.proc np) := by
  have embryo := (lineage.forking p np call).2.1
  have running : (s.proc np).state ≠ .running := by
    rw [embryo]
    exact RunState.noConfusion
  have vacant : s.freeSlot ≠ some np := by
    intro free
    rw [freeSlot_unused free] at embryo
    contradiction
  have forker : ∀ q, s.call q = .fork np → t.call q ≠ .none := by
    intro q other left
    rw [lineage.forkers q p np other call, still] at left
    contradiction
  cases slot with
  | stays _ group _ _ => exact group
  | deleted _ _ zombie _ =>
    rw [embryo] at zombie
    contradiction
  | threadExit _ runs _ _ _ _ _ _ _ => exact absurd runs running
  | ends _ _ runs _ _ _ _ _ => exact absurd runs running
  | founded _ free _ _ _ _ _ _ => exact absurd free vacant
  | released _ free _ _ _ _ => exact absurd free vacant
  | abandoned q _ other left _ _ _ _ => exact absurd left (forker q other)
  | started q _ _ other left _ _ _ _ _ _ => exact absurd left (forker q other)
  | published _ _ _ _ free _ _ _ _ _ => exact absurd free vacant
  | detached runs _ _ _ _ _ _ _ _ => exact absurd runs running

end Keeping

/-! ## One step -/

section OneStep

variable {s t : System} {p q : Lwp} {event : Event}

/-- Pids were handed out. -/
theorem Lineage.fresh_step (lineage : Lineage s) (slots : ∀ q, SlotStep s q t event) (later : s.nextpid ≤ t.nextpid)
    (q : Lwp) : (t.proc q).pid < t.nextpid := by
  have old : ∀ p, (t.proc q).pid = (s.proc p).pid → (t.proc q).pid < t.nextpid := by
    intro p same
    rw [same]
    exact Nat.lt_of_lt_of_le (lineage.fresh p) later
  have new : (t.proc q).pid = s.nextpid → t.nextpid = s.nextpid + 1 → (t.proc q).pid < t.nextpid := by
    intro pid next
    rw [pid, next]
    exact Nat.lt_succ_self _
  cases slots q with
  | stays _ group _ _ => exact old q group.pid
  | deleted _ _ _ cleared =>
    rw [cleared.pid]
    exact Nat.lt_of_le_of_lt (Nat.zero_le _) (Nat.lt_of_lt_of_le (lineage.fresh q) later)
  | threadExit _ _ _ _ _ pid _ _ _ => exact old q pid
  | ends _ _ _ _ pid _ _ _ => exact old q pid
  | founded _ _ _ pid next _ _ _ => exact new pid next
  | released _ _ _ pid next _ => exact new pid next
  | abandoned _ _ _ _ _ pid _ _ => exact old q pid
  | started _ _ _ _ _ _ _ pid _ _ _ => exact old q pid
  | published p _ _ _ _ _ _ pid _ _ => exact old p pid
  | detached _ _ _ _ pid next _ _ _ => exact new pid next

/-- A taken slot has a pid. -/
theorem Lineage.positive_step (lineage : Lineage s) (slots : ∀ q, SlotStep s q t event) (q : Lwp)
    (taken : (t.proc q).state ≠ .unused) : 0 < (t.proc q).pid := by
  cases (slots q).placing lineage taken with
  | kept before pid _ _ =>
    rw [pid]
    exact lineage.positive q before
  | founds pid _ _ _ _ =>
    rw [pid]
    exact Nat.lt_of_le_of_lt (Nat.zero_le _) (lineage.fresh q)
  | joins p _ _ running _ _ _ pid _ _ _ =>
    rw [pid]
    exact lineage.positive p (taken_of_state running RunState.noConfusion)

/-- A pid has one LWP with tid 1. -/
theorem Lineage.masters_step (lineage : Lineage s) (slots : ∀ q, SlotStep s q t event) (p q : Lwp)
    (first : (t.proc p).state ≠ .unused) (second : (t.proc q).state ≠ .unused) (one : (t.proc p).tid = 1)
    (one' : (t.proc q).tid = 1) (same : (t.proc p).pid = (t.proc q).pid) : p = q := by
  have thread : ∀ {n m : Nat}, n = m → 2 ≤ m → n = 1 → p = q := by
    intro n m equal least is
    omega
  cases (slots p).placing lineage first with
  | kept before pid tid _ =>
    cases (slots q).placing lineage second with
    | kept before' pid' tid' _ =>
      rw [pid, pid'] at same
      rw [tid] at one
      rw [tid'] at one'
      exact lineage.masters p q before before' one one' same
    | founds pid' _ _ _ _ =>
      rw [pid, pid'] at same
      exact absurd same (Nat.ne_of_lt (lineage.fresh p))
    | joins _ _ _ _ _ _ _ _ tid' least _ => exact thread tid' least one'
  | founds pid _ _ _ which =>
    cases (slots q).placing lineage second with
    | kept _ pid' _ _ =>
      rw [pid, pid'] at same
      exact absurd same.symm (Nat.ne_of_lt (lineage.fresh q))
    | founds _ _ _ _ which' =>
      rcases which with ⟨free, _, rfl⟩ | rfl
      · rcases which' with ⟨free', _⟩ | other
        · exact Option.some.inj (free.symm.trans free')
        · contradiction
      · rcases which' with ⟨_, _, other⟩ | other
        · contradiction
        · cases other
          rfl
    | joins _ _ _ _ _ _ _ _ tid' least _ => exact thread tid' least one'
  | joins _ _ _ _ _ _ _ _ tid least _ => exact thread tid least one

/-- The LWP with tid 1 is its own master. -/
theorem Lineage.own_step (lineage : Lineage s) (slots : ∀ q, SlotStep s q t event) (q : Lwp)
    (taken : (t.proc q).state ≠ .unused) (one : (t.proc q).tid = 1) : (t.proc q).master = some q := by
  cases (slots q).placing lineage taken with
  | kept before _ tid master =>
    rw [tid] at one
    exact master.trans (lineage.own q before one)
  | founds _ _ _ master _ => exact master
  | joins _ _ _ _ _ _ _ _ tid least _ => omega

/-- The slot that `fork` prepares is an embryo with another pid. -/
theorem Lineage.forking_step (lineage : Lineage s) (slots : ∀ q, SlotStep s q t event)
    (calls : ∀ p, CallStep s p t event) (p np : Lwp) (call : t.call p = .fork np) :
    (t.proc p).state.started = true ∧ (t.proc np).state = .embryo ∧ (t.proc np).pid ≠ (t.proc p).pid := by
  cases calls p with
  | kept _ same =>
    have before := same.symm.trans call
    obtain ⟨started, embryo, apart⟩ := lineage.forking p np before
    have forker := (slots p).inside lineage started (by rw [before]; exact Call.noConfusion)
      (by rw [before]; exact Call.noConfusion)
    have child := (slots np).prepared lineage before call
    refine ⟨forker.started.trans started, (child.state_iff rfl).mpr embryo, ?_⟩
    rw [child.pid, forker.pid]
    exact apart
  | forks np' running free embryo pid call' =>
    rw [call] at call'
    cases call'
    have group : (s.proc p).SameGroup (t.proc p) := by
      have unfree : s.freeSlot ≠ some p := by
        intro free
        rw [freeSlot_unused free] at running
        contradiction
      cases slots p with
      | stays _ group _ _ => exact group
      | deleted _ _ zombie _ =>
        rw [running] at zombie
        contradiction
      | ends _ which _ _ _ _ _ _ => rcases which with ⟨other, _⟩ | ⟨other, _⟩ <;> contradiction
      | founded _ free _ _ _ _ _ _ => exact absurd free unfree
      | released _ free _ _ _ _ => exact absurd free unfree
    refine ⟨group.started.trans (System.started_of_running running), embryo, ?_⟩
    rw [pid, group.pid]
    exact Nat.ne_of_gt (lineage.fresh p)
  | _ =>
    simp_all only [reduceCtorEq]

/-- Calls of `fork` prepare different slots. -/
theorem Lineage.forkers_step (lineage : Lineage s) (calls : ∀ p, CallStep s p t event) (p q np : Lwp)
    (first : t.call p = .fork np) (second : t.call q = .fork np) : p = q := by
  have before : ∀ r, t.call r = .fork np → s.call r = .fork np ∨ s.freeSlot = some np ∧ event = .fork r true := by
    intro r call
    cases calls r with
    | kept _ same => exact .inl (same.symm.trans call)
    | forks np' _ free _ _ call' =>
      rw [call] at call'
      cases call'
      exact .inr ⟨free, rfl⟩
    | _ => simp_all only [reduceCtorEq]
  have apart : ∀ r, s.call r = .fork np → s.freeSlot ≠ some np := by
    intro r call free
    have embryo := (lineage.forking r np call).2.1
    rw [freeSlot_unused free] at embryo
    contradiction
  rcases before p first with call | ⟨free, which⟩
  · rcases before q second with call' | ⟨free, _⟩
    · exact lineage.forkers p q np call call'
    · exact absurd free (apart p call)
  · rcases before q second with call' | ⟨_, which'⟩
    · exact absurd free (apart q call')
    · rw [which] at which'
      cases which'
      rfl

/-- `next_tid` is not the tid of a master. -/
theorem Lineage.creating_step (lineage : Lineage s) (calls : ∀ p, CallStep s p t event) (p : Lwp) (tid : Nat)
    (call : t.call p = .threadCreate tid) : 2 ≤ tid := by
  cases calls p with
  | kept _ same => exact lineage.creating p tid (same.symm.trans call)
  | chooses _ call' =>
    rw [call] at call'
    cases call'
    exact nextTid_least s p
  | _ => simp_all only [reduceCtorEq]

/-- An LWP that is started and whose tid was 1 still has it, unless it has just been started. -/
theorem SlotStep.whole (slot : SlotStep s q t event) (started : (t.proc q).state.started = true)
    (busy : t.call q ≠ .none) (whole : (s.proc q).tid = 1) : (t.proc q).tid = 1 := by
  have stopped : ∀ {state : RunState}, (t.proc q).state = state → state.started = false → (t.proc q).tid = 1 := by
    intro state known still
    rw [known, still] at started
    contradiction
  cases slot with
  | stays _ group _ _ => exact group.tid.trans whole
  | deleted _ _ _ cleared => exact stopped cleared.state rfl
  | threadExit _ _ _ zombie _ _ _ _ _ => exact stopped zombie rfl
  | ends _ _ _ zombie _ _ _ _ => exact stopped zombie rfl
  | founded _ _ embryo _ _ _ _ _ => exact stopped embryo rfl
  | released _ _ unused _ _ _ => exact stopped unused rfl
  | abandoned _ _ _ _ unused _ _ _ => exact stopped unused rfl
  | started _ _ _ _ _ left _ _ _ _ _ => exact absurd left busy
  | published _ _ _ _ _ left _ _ _ _ => exact absurd left busy
  | detached _ _ thread _ _ _ _ _ _ => exact absurd whole thread

/-- An LWP that waits in `thread_join` is a master. -/
theorem Lineage.joining_step (lineage : Lineage s) (slots : ∀ q, SlotStep s q t event)
    (calls : ∀ p, CallStep s p t event) (p : Lwp) (thread : Nat) (started : (t.proc p).state.started = true)
    (call : t.call p = .threadJoin thread) : (t.proc p).tid = 1 := by
  have busy : t.call p ≠ .none := by
    rw [call]
    exact Call.noConfusion
  cases calls p with
  | kept _ same =>
    have before := same.symm.trans call
    have group := (slots p).was_inside started (by rw [before]; exact Call.noConfusion) busy
    rw [group.started] at started
    exact group.tid.trans (lineage.joining p thread started before)
  | joins _ whole _ => exact (slots p).whole started busy whole
  | _ => simp_all only [reduceCtorEq]

/-- An LWP that waits in `exit` is a master other than the first process. -/
theorem Lineage.ending_step (lineage : Lineage s) (slots : ∀ q, SlotStep s q t event)
    (calls : ∀ p, CallStep s p t event) (init : t.initproc = s.initproc) (p : Lwp)
    (started : (t.proc p).state.started = true) (call : t.call p = .exit) :
    (t.proc p).tid = 1 ∧ p ≠ t.initproc := by
  have busy : t.call p ≠ .none := by
    rw [call]
    exact Call.noConfusion
  rw [init]
  cases calls p with
  | kept _ same =>
    have before := same.symm.trans call
    have group := (slots p).was_inside started (by rw [before]; exact Call.noConfusion) busy
    rw [group.started] at started
    obtain ⟨whole, other⟩ := lineage.ending p started before
    exact ⟨group.tid.trans whole, other⟩
  | exits whole other _ => exact ⟨(slots p).whole started busy whole, other⟩
  | _ => simp_all only [reduceCtorEq]

/-- A slot that is unused or an embryo has no parent but itself or the first process. -/
theorem Lineage.stale_step (lineage : Lineage s) (slots : ∀ q, SlotStep s q t event) (init : t.initproc = s.initproc)
    (q : Lwp) (idle : (t.proc q).state = .unused ∨ (t.proc q).state = .embryo) :
    (t.proc q).parent = none ∨ (t.proc q).parent = some q ∨ (t.proc q).parent = some t.initproc := by
  rw [init]
  have before : ((s.proc q).state = .unused ∨ (s.proc q).state = .embryo) → (t.proc q).parent = (s.proc q).parent →
      (t.proc q).parent = none ∨ (t.proc q).parent = some q ∨ (t.proc q).parent = some s.initproc := by
    intro idle same
    rw [same]
    exact lineage.stale q idle
  have busy : ∀ {state : RunState}, (t.proc q).state = state → state ≠ .unused → state ≠ .embryo →
      (t.proc q).parent = none ∨ (t.proc q).parent = some q ∨ (t.proc q).parent = some s.initproc := by
    intro state known unused embryo
    rw [known] at idle
    rcases idle with same | same
    · exact absurd same unused
    · exact absurd same embryo
  cases slots q with
  | stays _ group _ parent =>
    rcases parent with same | ⟨_, passed⟩
    · rw [group.state_iff rfl, group.state_iff rfl] at idle
      exact before idle same
    · exact .inr (.inr passed)
  | deleted _ _ _ cleared => exact .inl cleared.parent
  | threadExit _ _ _ zombie _ _ _ _ _ => exact busy zombie RunState.noConfusion RunState.noConfusion
  | ends _ _ _ zombie _ _ _ _ => exact busy zombie RunState.noConfusion RunState.noConfusion
  | founded _ _ _ _ _ _ _ parent => exact .inr (.inl parent)
  | released _ _ _ _ _ parent => exact .inr (.inl parent)
  | abandoned p _ call _ _ _ _ parent => exact before (.inr (lineage.forking p q call).2.1) parent
  | started _ _ _ _ _ _ runnable _ _ _ _ => exact busy runnable RunState.noConfusion RunState.noConfusion
  | published _ _ _ _ _ _ runnable _ _ _ => exact busy runnable RunState.noConfusion RunState.noConfusion
  | detached _ _ _ started _ _ _ _ _ =>
    rcases idle with same | same <;> rw [same] at started <;> contradiction

/-- The first process is never collected. -/
theorem Lineage.root_stays (lineage : Lineage s) (collects : Collects s s.initproc t event) :
    (s.proc s.initproc).state ≠ .zombie := by
  obtain ⟨alive, whole, parent⟩ := lineage.root
  intro zombie
  have taken : (s.proc s.initproc).state ≠ .unused := taken_of_state zombie RunState.noConfusion
  have other : ∀ p, (s.proc p).state = .running → p ≠ s.initproc := by
    rintro p running rfl
    rw [running] at zombie
    contradiction
  cases collects with
  | waited p _ _ running found _ =>
    have wanted := firstSlot_some found
    rw [Bool.and_eq_true, decide_eq_true_eq, parent] at wanted
    exact other p running (Option.some.inj wanted.1).symm
  | joined p thread _ which running pid _ _ =>
    have one : (s.proc p).tid = 1 := by
      rcases which with ⟨_, one⟩ | ⟨_, call⟩
      · exact one
      · exact lineage.joining p thread (System.started_of_running running) call
    exact other p running (lineage.masters p s.initproc (taken_of_state running RunState.noConfusion) taken one whole pid.symm)
  | ended p _ which running apart master =>
    have one : (s.proc p).tid = 1 := by
      rcases which with ⟨_, one⟩ | ⟨_, call⟩
      · exact one
      · exact (lineage.ending p (System.started_of_running running) call).1
    rw [lineage.own s.initproc taken whole, lineage.own p (taken_of_state running RunState.noConfusion) one] at master
    exact apart (Option.some.inj master)

/-- The first process has not been deleted and is its own parent. -/
theorem Lineage.root_step (lineage : Lineage s) (slots : ∀ q, SlotStep s q t event) (init : t.initproc = s.initproc) :
    ((t.proc t.initproc).state.started = true ∨ (t.proc t.initproc).state = .zombie) ∧
      (t.proc t.initproc).tid = 1 ∧ (t.proc t.initproc).parent = some t.initproc := by
  rw [init]
  obtain ⟨alive, whole, parent⟩ := lineage.root
  have idle : ∀ {state : RunState}, (s.proc s.initproc).state = state → state.started = false → state ≠ .zombie → False := by
    intro state known stopped other
    rw [known] at alive
    rcases alive with started | zombie
    · rw [stopped] at started
      contradiction
    · exact other zombie
  have vacant : s.freeSlot ≠ some s.initproc := fun free => idle (freeSlot_unused free) rfl RunState.noConfusion
  have born : ∀ p, s.call p ≠ .fork s.initproc :=
    fun p call => idle (lineage.forking p _ call).2.1 rfl RunState.noConfusion
  cases slots s.initproc with
  | stays _ group _ passed =>
    refine ⟨?_, group.tid.trans whole, ?_⟩
    · rw [group.started, group.state_iff rfl]
      exact alive
    · rcases passed with same | ⟨_, init⟩
      · exact same.trans parent
      · exact init
  | deleted _ collects zombie _ => exact absurd zombie (lineage.root_stays collects)
  | threadExit _ _ _ zombie _ _ tid _ passed =>
    refine ⟨.inr zombie, tid.trans whole, ?_⟩
    rcases passed with same | init
    · exact same.trans parent
    · exact init
  | ends _ _ _ zombie _ tid _ passed =>
    refine ⟨.inr zombie, tid.trans whole, ?_⟩
    rcases passed with same | ⟨_, init⟩
    · exact same.trans parent
    · exact init
  | founded _ free _ _ _ _ _ _ => exact absurd free vacant
  | released _ free _ _ _ _ => exact absurd free vacant
  | abandoned p _ call _ _ _ _ _ => exact absurd call (born p)
  | started p _ _ call _ _ _ _ _ _ _ => exact absurd call (born p)
  | published _ _ _ _ free _ _ _ _ _ => exact absurd free vacant
  | detached _ _ thread _ _ _ _ _ _ => exact absurd whole thread

/-- Every step keeps the lineage. -/
theorem Lineage.step (lineage : Lineage s) (taken : s.step event = some t) : Lineage t := by
  have slots := step_slot lineage.positive taken
  have calls := step_call taken
  obtain ⟨later, init⟩ := step_rest (step_effect taken)
  exact ⟨lineage.fresh_step slots later, lineage.positive_step slots, lineage.masters_step slots,
    lineage.own_step slots, lineage.forking_step slots calls, lineage.forkers_step calls, lineage.creating_step calls,
    lineage.joining_step slots calls, lineage.ending_step slots calls init, lineage.stale_step slots init,
    lineage.root_step slots init⟩

end OneStep

/-- The other slots at the start. -/
theorem userinit_other (d : Nat) {q : Lwp} (other : q ≠ 0) : (System.userinit d).proc q = System.zeroProc := by
  obtain ⟨founds, _⟩ := allocproc_founds Grouped.emptyTables.fresh 0
  unfold System.userinit
  rw [allocproc_first, System.setProc_other _ _ other]
  exact founds.others q other

/-- The first process at the start. -/
theorem userinit_first (d : Nat) : ((System.userinit d).proc 0).state = .runnable ∧
    ((System.userinit d).proc 0).tid = 1 ∧ ((System.userinit d).proc 0).parent = some 0 := by
  have steady := Steady.initSlot (System.emptyTables.takeSlot 0) 0 0
  rw [takeSlot_self] at steady
  obtain ⟨_, slot, _, _⟩ := userinit_slots d
  rw [slot]
  exact ⟨rfl, steady.tid, steady.parent⟩

/-- Nobody is inside a call at the start. -/
theorem userinit_call (d : Nat) (p : Lwp) : (System.userinit d).call p = .none := by
  unfold System.userinit
  rw [allocproc_first]
  exact congrFun (Sorted.initSlot (System.emptyTables.takeSlot 0) 0).call p

/-- The first process is the one in the first slot. -/
theorem userinit_initproc (d : Nat) : (System.userinit d).initproc = 0 := by
  unfold System.userinit
  rw [allocproc_first]
  exact (Sorted.initSlot (System.emptyTables.takeSlot 0) 0).groups.initproc

/-- The first process alone. -/
theorem Lineage.userinit (d : Nat) : Lineage (System.userinit d) := by
  have grouped := Grouped.userinit d
  obtain ⟨runnable, whole, parent⟩ := userinit_first d
  have only := userinit_only d
  have busy : ∀ p call, (System.userinit d).call p = call → call = .none :=
    fun p call same => same.symm.trans (userinit_call d p)
  refine ⟨grouped.fresh, grouped.positive, fun p q first second _ _ _ => (only p first).trans (only q second).symm, ?_,
    ?_, ?_, grouped.creating, ?_, ?_, ?_, ?_⟩
  · intro q taken one
    refine grouped.own ?_ one
    rw [only q taken, runnable]
    rfl
  · intro p np call
    exact Call.noConfusion (busy p _ call)
  · intro p q np call
    exact Call.noConfusion (busy p _ call)
  · intro p thread _ call
    exact Call.noConfusion (busy p _ call)
  · intro p _ call
    exact Call.noConfusion (busy p _ call)
  · intro q idle
    have other : q ≠ 0 := by
      rintro rfl
      rw [runnable] at idle
      rcases idle with same | same <;> contradiction
    rw [userinit_other d other]
    exact .inl rfl
  · rw [userinit_initproc, runnable]
    exact ⟨.inl rfl, whole, parent⟩

end Xv6
