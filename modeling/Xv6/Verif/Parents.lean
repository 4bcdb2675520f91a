import Xv6.Verif.Children
import Xv6.Verif.Followers

/-!
# Parents

The parent of a process that `fork` made is the LWP that forked it, the parent of an LWP is the
LWP that created it, and either is still there, or the parent is init. This holds in the runs in
which an LWP that is no master does not call `exit` while it is the parent of somebody: `exit` of
such an LWP looks for the children of its master.
-/

namespace Xv6

/-- A step in which no LWP but a master calls `exit` while it is a parent, and init does not call
`thread_exit`. -/
def parentStep (s : System) (event : Event) (t : System) : Prop :=
  s.step event = some t ∧ (∀ retval, event ≠ .threadExit s.initproc retval) ∧
    ∀ p, event = .exit p → (s.proc p).tid ≠ 1 → ∀ q, (s.proc q).state ≠ .unused → (s.proc q).parent ≠ some p

/-- A step after which a fact holds. -/
def parentStepTo (holds : System → Prop) (s : System) (event : Event) (t : System) : Prop :=
  parentStep s event t ∧ holds t

/-- `p` has created the LWP in slot `q` with `thread_create`, and neither has ended since. -/
def Created (start : System) (p q : Lwp) (events : List Event) (s : System) : Prop :=
  ∃ before after u v, events = before ++ .threadCreate p .mapped :: after ∧ Run parentStep start before u ∧
    u.freeSlot = some q ∧ parentStep u (.threadCreate p .mapped) v ∧
    Run (parentStepTo fun t => (t.proc p).state.started = true ∧ (t.proc q).state ≠ .unused ∧
      (t.proc q).tid = (v.proc q).tid) v after s

/-- What the parent of an LWP that is no master is. -/
def Threaded (start : System) (events : List Event) (s : System) : Prop :=
  ∀ q p, (s.proc q).state ≠ .unused → (s.proc q).tid ≠ 1 → (s.proc q).parent = some p → p = s.initproc ∨
    q ≠ p ∧ (s.proc p).state.started = true ∧ Created start p q events s

/-- A master that waits in `exit` is the parent of no LWP of another pid. -/
def Kinless (s : System) : Prop :=
  ∀ p q, (s.proc p).state.started = true → s.call p = .exit → (s.proc q).state ≠ .unused →
    (s.proc q).tid ≠ 1 → (s.proc q).parent = some p → (s.proc q).pid = (s.proc p).pid

/-- The slot that `fork` prepares is a master. -/
def Prepared (s : System) : Prop := ∀ p np, s.call p = .fork np → (s.proc np).tid = 1

/-- A taken slot has a parent. -/
def Fathered (s : System) : Prop := ∀ q, (s.proc q).state ≠ .unused → (s.proc q).parent ≠ none

section Parents

variable {start s t u : System} {p q r : Lwp} {event : Event} {events : List Event}

/-- The condition covers that of processes. -/
theorem childStep_of_parentStep (taken : parentStep s event t) : childStep s event t :=
  ⟨taken.1, fun p same thread q busy _ => taken.2.2 p same thread q busy⟩

/-- Every step leaves the slots that `fork` prepares masters. -/
theorem Prepared.step (prepared : Prepared s) (lineage : Lineage s) (taken : s.step event = some t) : Prepared t := by
  have slots := step_slot lineage.positive taken
  intro p np call
  cases step_call taken p with
  | kept _ same =>
    have before := same.symm.trans call
    rw [((slots np).prepared lineage before call).tid]
    exact prepared p np before
  | forks np' _ free embryo _ call' =>
    rw [call] at call'
    cases call'
    have unused := freeSlot_unused free
    have other : ∀ {state : RunState}, (t.proc np).state = state → state ≠ .embryo → (t.proc np).tid = 1 :=
      fun known apart => absurd (known.symm.trans embryo) apart
    cases slots np with
    | stays _ group _ _ =>
      rw [group.state_iff rfl, unused] at embryo
      contradiction
    | deleted _ _ _ cleared => exact other cleared.state nofun
    | ends _ _ _ zombie _ _ _ _ => exact other zombie nofun
    | founded _ _ _ _ _ whole _ _ => exact whole
    | released _ _ unused _ _ _ => exact other unused nofun
  | _ => simp_all only [reduceCtorEq]

/-- Init stays started. -/
theorem root_started (lineage : Lineage s) (taken : parentStep s event t)
    (started : (s.proc s.initproc).state.started = true) : (t.proc t.initproc).state.started = true := by
  rw [(step_rest (step_effect taken.1)).2]
  have vacant : s.freeSlot ≠ some s.initproc := by
    intro free
    rw [freeSlot_unused free] at started
    contradiction
  have born : ∀ r, s.call r ≠ .fork s.initproc := by
    intro r call
    rw [(lineage.forking r _ call).2.1] at started
    contradiction
  cases step_slot lineage.positive taken.1 s.initproc with
  | stays _ group _ _ => exact group.started.trans started
  | deleted _ _ zombie _ => exact absurd zombie (RunState.not_zombie started)
  | threadExit retval _ _ _ _ _ _ _ _ => exact absurd rfl (taken.2.1 retval)
  | ends _ which _ _ _ _ _ _ =>
    rcases which with ⟨rfl, _⟩ | ⟨_, call⟩
    · obtain ⟨_, _, exited⟩ := System.inside_some taken.1
      cases exit_goes exited with
      | master _ other _ _ _ => exact absurd rfl other
      | thread _ other _ _ _ => exact absurd rfl other
    · exact absurd rfl (lineage.ending _ started call).2
  | founded _ free _ _ _ _ _ _ => exact absurd free vacant
  | released _ free _ _ _ _ => exact absurd free vacant
  | abandoned r _ call _ _ _ _ _ => exact absurd call (born r)
  | started r _ _ call _ _ _ _ _ _ _ => exact absurd call (born r)
  | published _ _ _ _ free _ _ _ _ _ => exact absurd free vacant
  | detached _ _ _ alive _ _ _ _ _ => exact alive

/-- Every step leaves the slots that are taken with a parent. -/
theorem Fathered.step (fathered : Fathered s) (lineage : Lineage s) (taken : s.step event = some t) : Fathered t := by
  intro q busy
  have given : ∀ {p : Lwp}, (t.proc q).parent = some p → (t.proc q).parent ≠ none := by
    intro p same
    rw [same]
    exact Option.some_ne_none p
  have kept : (s.proc q).state ≠ .unused → (t.proc q).parent = (s.proc q).parent → (t.proc q).parent ≠ none := by
    intro before same
    rw [same]
    exact fathered q before
  cases step_slot lineage.positive taken q with
  | stays _ group _ parent =>
    rcases parent with same | ⟨_, init⟩
    · exact kept (fun unused => busy ((group.state_iff rfl).mpr unused)) same
    · exact given init
  | deleted _ _ _ cleared => exact absurd cleared.state busy
  | threadExit _ running _ _ _ _ _ _ parent =>
    rcases parent with same | init
    · exact kept (taken_of_state running nofun) same
    · exact given init
  | ends _ _ running _ _ _ _ parent =>
    rcases parent with same | ⟨_, init⟩
    · exact kept (taken_of_state running nofun) same
    · exact given init
  | founded _ _ _ _ _ _ _ parent => exact given parent
  | released _ _ unused _ _ _ => exact absurd unused busy
  | abandoned _ _ _ _ unused _ _ _ => exact absurd unused busy
  | started _ _ _ _ _ _ _ _ _ _ parent => exact given parent
  | published _ _ _ _ _ _ _ _ _ parent => exact given parent
  | detached _ _ _ _ _ _ _ _ parent => exact given parent

/-- A master that ends has no other LWP left. -/
theorem ends_alone (taken : s.step event = some t) (ends : event = .exit p ∨ event = .resume p)
    (running : (s.proc p).state = .running) (zombie : (t.proc p).state = .zombie) (whole : (s.proc p).tid = 1)
    (own : (s.proc p).master = some p) (other : q ≠ p) (member : (s.proc q).master = some p) :
    (t.proc q).state = .unused := by
  have started := System.started_of_running running
  cases step_effect taken with
  | calm _ calm =>
    have still := (calm.groups.proc p).started
    rw [started, zombie] at still
    contradiction
  | reaps _ _ _ _ reaps =>
    have still := (reaps.started started).started
    rw [started, zombie] at still
    contradiction
  | exit p' _ u _ which reaps gone after =>
    have here : p' = p := by
      rcases ends with rfl | rfl
      · rcases which with ⟨same, _⟩ | ⟨same, _⟩
        · cases same
          rfl
        · cases same
      · rcases which with ⟨same, _⟩ | ⟨same, _⟩
        · cases same
        · cases same
          rfl
    rw [here] at gone after
    have self := reaps.started started
    have left : (u.proc q).state = .unused := by
      rcases reaps.proc q with same | ⟨_, unused⟩
      · exact gone (self.tid.trans whole) q other (by rw [same.master, self.master, member, own])
      · exact unused
    refine ((after.groups.proc q).state_iff rfl).mpr ?_
    change ((u.setProc p { u.proc p with state := .zombie }).proc q).state = .unused
    rw [System.setProc_other _ _ other]
    exact left
  | _ => rcases ends with same | same <;> cases same

/-- The parent of an LWP stays started, or the LWP is passed to init. -/
theorem creator_stays (lineage : Lineage s) (follows : Follows s) (kinless : Kinless s) (taken : parentStep s event t)
    (started : (s.proc p).state.started = true) (here : (s.proc q).state ≠ .unused) (thread : (s.proc q).tid ≠ 1)
    (child : (s.proc q).parent = some p) (other : q ≠ p) (still : (t.proc q).state ≠ .unused) :
    (t.proc p).state.started = true ∨ (t.proc q).parent = some s.initproc := by
  have vacant : s.freeSlot ≠ some p := by
    intro free
    rw [freeSlot_unused free] at started
    contradiction
  have born : ∀ r, s.call r ≠ .fork p := by
    intro r call
    rw [(lineage.forking r p call).2.1] at started
    contradiction
  have busy : (s.proc p).state ≠ .unused := fun unused => by rw [unused] at started; contradiction
  have alone : (event = .exit p ∨ event = .resume p) → (s.proc p).state = .running → (t.proc p).state = .zombie →
      (s.proc p).tid = 1 → (s.proc q).pid = (s.proc p).pid → False := by
    intro which running zombie whole same
    have own := lineage.own p busy whole
    have member := follows p q ⟨whole, busy⟩ here same
    exact still (ends_alone taken.1 which running zombie whole own other member)
  cases step_slot lineage.positive taken.1 p with
  | stays _ group _ _ => exact .inl (group.started.trans started)
  | deleted _ _ zombie _ => exact absurd zombie (RunState.not_zombie started)
  | threadExit retval _ _ _ _ _ _ _ _ => exact .inr (threadExit_passes taken.1 child)
  | ends _ which running zombie _ _ _ _ =>
    rcases which with ⟨same, _⟩ | ⟨same, call⟩
    · by_cases whole : (s.proc p).tid = 1
      · by_cases member : (s.proc q).pid = (s.proc p).pid
        · exact (alone (.inl same) running zombie whole member).elim
        · rw [same] at taken
          exact .inr ((exit_passes taken.1 (lineage.own p busy whole) child member).resolve_left still)
      · exact absurd child (taken.2.2 p same whole q here)
    · have whole := (lineage.ending p started call).1
      exact (alone (.inr same) running zombie whole (kinless p q started call here thread child)).elim
  | founded _ free _ _ _ _ _ _ => exact absurd free vacant
  | released _ free _ _ _ _ => exact absurd free vacant
  | abandoned r _ call _ _ _ _ _ => exact absurd call (born r)
  | started r _ _ call _ _ _ _ _ _ _ => exact absurd call (born r)
  | published _ _ _ _ free _ _ _ _ _ => exact absurd free vacant
  | detached _ _ _ alive _ _ _ _ _ => exact .inl alive

/-- One more step after an LWP was created. -/
theorem Created.snoc (created : Created start p q events s) (taken : parentStep s event t)
    (started : (t.proc p).state.started = true) (still : (t.proc q).state ≠ .unused)
    (tid : (t.proc q).tid = (s.proc q).tid) : Created start p q (events ++ [event]) t := by
  obtain ⟨before, after, u, v, rfl, first, free, step, rest⟩ := created
  have same : (s.proc q).tid = (v.proc q).tid :=
    rest.invariant (fun s => (s.proc q).tid = (v.proc q).tid) (fun _ _ _ _ taken => taken.2.2.2) rfl
  refine ⟨before, after ++ [event], u, v, ?_, first, free, step, rest.snoc ⟨taken, started, still, tid.trans same⟩⟩
  rw [List.append_assoc, List.cons_append]

/-- How an LWP that is no master got its parent. -/
theorem SlotStep.thread (prepared : Prepared s) (slot : SlotStep s q t event) (busy : (t.proc q).state ≠ .unused)
    (thread : (t.proc q).tid ≠ 1) :
    ((s.proc q).state ≠ .unused ∧ (t.proc q).pid = (s.proc q).pid ∧ (t.proc q).tid = (s.proc q).tid ∧
      ((t.proc q).parent = (s.proc q).parent ∨ (t.proc q).parent = some s.initproc)) ∨
    ∃ p tid, event = .threadCreate p .mapped ∧ (s.proc p).state = .running ∧ s.call p = .threadCreate tid ∧
      s.freeSlot = some q ∧ (t.proc q).pid = (s.proc p).pid ∧ (t.proc q).parent = some p := by
  cases slot with
  | stays _ group _ parent =>
    exact .inl ⟨fun unused => busy ((group.state_iff rfl).mpr unused), group.pid, group.tid,
      parent.imp_right fun init => init.2⟩
  | deleted _ _ _ cleared => exact absurd cleared.state busy
  | threadExit _ running _ _ _ pid tid _ parent => exact .inl ⟨taken_of_state running nofun, pid, tid, parent⟩
  | ends _ _ running _ pid tid _ parent =>
    exact .inl ⟨taken_of_state running nofun, pid, tid, parent.imp_right fun init => init.2⟩
  | founded _ _ _ _ _ whole _ _ => exact absurd whole thread
  | released _ _ unused _ _ _ => exact absurd unused busy
  | abandoned _ _ _ _ unused _ _ _ => exact absurd unused busy
  | started p _ _ call _ _ _ _ tid _ _ => exact absurd (tid.trans (prepared p q call)) thread
  | published p tid running call free _ _ pid _ parent => exact .inr ⟨p, tid, rfl, running, call, free, pid, parent⟩
  | detached _ _ _ _ _ _ whole _ _ => exact absurd whole thread

/-- Every such step keeps what the parents of LWPs are. -/
theorem Threaded.step (threaded : Threaded start events s) (lineage : Lineage s) (follows : Follows s)
    (kinless : Kinless s) (prepared : Prepared s) (run : Run parentStep start events s) (taken : parentStep s event t) :
    Threaded start (events ++ [event]) t := by
  have slots := step_slot lineage.positive taken.1
  intro q p busy thread parent
  rw [(step_rest (step_effect taken.1)).2]
  rcases (slots q).thread prepared busy thread with ⟨here, _, tid, given⟩ | ⟨r, tid, rfl, running, call, free, pid, given⟩
  · rcases given with same | given
    · rw [same] at parent
      have before : (s.proc q).tid ≠ 1 := fun whole => thread (tid.trans whole)
      rcases threaded q p here before parent with root | ⟨other, started, created⟩
      · exact .inl root
      · rcases creator_stays lineage follows kinless taken started here before parent other busy with alive | passed
        · exact .inr ⟨other, alive, created.snoc taken alive busy tid⟩
        · exact .inl (Option.some.inj (parent.symm.trans (same.symm.trans passed)))
    · exact .inl (Option.some.inj (parent.symm.trans given))
  · cases Option.some.inj (given.symm.trans parent)
    have apart : q ≠ p := by
      rintro rfl
      rw [freeSlot_unused free] at running
      contradiction
    have group := (slots p).inside lineage (System.started_of_running running) (by rw [call]; exact Call.noConfusion)
      (by rw [call]; exact Call.noConfusion)
    exact .inr ⟨apart, group.started.trans (System.started_of_running running),
      ⟨events, [], s, t, rfl, run, free, taken, .nil t⟩⟩

/-- Every such step keeps the masters in `exit` without LWPs of another pid. -/
theorem Kinless.step (kinless : Kinless s) (lineage : Lineage s) (prepared : Prepared s) (taken : s.step event = some t) :
    Kinless t := by
  have slots := step_slot lineage.positive taken
  have calls := step_call taken
  have init := (step_rest (step_effect taken)).2
  intro p q started call busy thread parent
  have other : p ≠ s.initproc := by
    have ending := (lineage.ending_step slots calls init p started call).2
    rw [init] at ending
    exact ending
  have inside : t.call p ≠ .none := by
    rw [call]
    exact Call.noConfusion
  rcases (slots q).thread prepared busy thread with ⟨here, pid, tid, given⟩ | ⟨r, tid, rfl, running, creating, free, pid, given⟩
  · rw [pid]
    have before : (s.proc q).tid ≠ 1 := fun whole => thread (tid.trans whole)
    rcases given with same | given
    · rw [same] at parent
      cases calls p with
      | kept _ still =>
        have exiting := still.symm.trans call
        have group := (slots p).was_inside started (by rw [exiting]; exact Call.noConfusion) inside
        rw [group.pid]
        rw [group.started] at started
        exact kinless p q started exiting here before parent
      | exits whole _ _ =>
        obtain ⟨running, _, _⟩ := System.inside_some taken
        have own := lineage.own p (taken_of_state running nofun) whole
        have kept : (t.proc p).pid = (s.proc p).pid := by
          cases (slots p).placing lineage (fun unused => by rw [unused] at started; contradiction) with
          | kept _ pid _ _ => exact pid
          | founds _ _ _ _ which =>
            rcases which with ⟨free, _, same⟩ | same
            · cases same
            · cases same
          | joins _ _ same _ _ _ _ _ _ _ _ => cases same
        rw [kept]
        by_contra apart
        have passed := (exit_passes taken own parent apart).resolve_left busy
        rw [same, parent] at passed
        exact other (Option.some.inj passed)
      | _ => simp_all only [reduceCtorEq]
    · exact absurd (Option.some.inj (parent.symm.trans given)) other
  · cases Option.some.inj (given.symm.trans parent)
    rw [pid]
    exact ((slots p).inside lineage (System.started_of_running running) (by rw [creating]; exact Call.noConfusion)
      (by rw [creating]; exact Call.noConfusion)).pid.symm

/-- Who deletes a zombie: its parent, or, if it is no master, the master of its group. -/
theorem reaped_by (lineage : Lineage s) (taken : s.step event = some t) (zombie : (s.proc q).state = .zombie)
    (gone : (t.proc q).state = .unused) : ∃ r, (s.proc r).state = .running ∧ (WaitsAt s r event ∧ (s.proc q).parent = some r ∨
      (s.proc q).tid ≠ 1 ∧ Leads s r ∧ ((s.proc q).pid = (s.proc r).pid ∨ (s.proc q).master = some r)) := by
  have idle : ∀ {state : RunState}, (s.proc q).state = state → state ≠ .zombie → False :=
    fun known other => other (known.symm.trans zombie)
  have busy := taken_of_state zombie nofun
  cases step_slot lineage.positive taken q with
  | stays _ group _ _ => exact absurd ((group.state_iff rfl).mp gone) busy
  | deleted _ collects _ _ =>
    cases collects with
    | waited r _ waits running found _ =>
      have wanted := firstSlot_some found
      rw [Bool.and_eq_true, decide_eq_true_eq] at wanted
      exact ⟨r, running, .inl ⟨waits, wanted.1⟩⟩
    | joined r thread _ which running pid _ _ =>
      have one : (s.proc r).tid = 1 := by
        rcases which with ⟨_, one⟩ | ⟨_, call⟩
        · exact one
        · exact lineage.joining r thread (System.started_of_running running) call
      have here := taken_of_state running nofun
      refine ⟨r, running, .inr ⟨fun whole => ?_, ⟨one, here⟩, .inl pid⟩⟩
      cases lineage.masters q r busy here whole one pid
      exact idle running nofun
    | ended r _ which running apart master =>
      have one : (s.proc r).tid = 1 := by
        rcases which with ⟨_, one⟩ | ⟨_, call⟩
        · exact one
        · exact (lineage.ending r (System.started_of_running running) call).1
      have here := taken_of_state running nofun
      rw [lineage.own r here one] at master
      refine ⟨r, running, .inr ⟨fun whole => ?_, ⟨one, here⟩, .inr master⟩⟩
      rw [lineage.own q busy whole] at master
      exact apart (Option.some.inj master)
  | threadExit _ running _ _ _ _ _ _ _ => exact (idle running nofun).elim
  | ends _ _ running _ _ _ _ _ => exact (idle running nofun).elim
  | founded _ free _ _ _ _ _ _ => exact (idle (freeSlot_unused free) nofun).elim
  | released _ free _ _ _ _ => exact (idle (freeSlot_unused free) nofun).elim
  | abandoned r _ call _ _ _ _ _ => exact (idle (lineage.forking r q call).2.1 nofun).elim
  | started r _ _ call _ _ _ _ _ _ _ => exact (idle (lineage.forking r q call).2.1 nofun).elim
  | published _ _ _ _ free _ _ _ _ _ => exact (idle (freeSlot_unused free) nofun).elim
  | detached running _ _ _ _ _ _ _ _ => exact (idle running nofun).elim

end Parents

/-- In runs in which no LWP but a master calls `exit` while it is a parent and init does not call
`thread_exit`: every taken slot other than init's, unless `fork` is still preparing it, has a
parent that has not ended, and that is the LWP that has forked or created it, or init. So a zombie
has a parent whose `wait` finds a zombie, and a process is deleted by its parent only. -/
theorem parents_stay {d : Nat} {events : List Event} {s : System} {q : Lwp}
    (run : Run parentStep (System.userinit d) events s) (busy : (s.proc q).state ≠ .unused) (other : q ≠ s.initproc) :
    (∃ p, (s.proc q).parent = some p ∧ (s.proc p).state ≠ .unused ∧ ((s.proc q).state = .embryo ∧ p = q ∨
      (s.proc p).state.started = true ∧ (p = s.initproc ∨ Forked (System.userinit d) p q events s ∨
        Created (System.userinit d) p q events s))) ∧
    ((s.proc q).state = .zombie →
      (∃ p, (s.proc q).parent = some p ∧ (s.proc p).state.started = true ∧ s.zombieChild p ≠ none) ∧
      ∀ event t, s.step event = some t → (t.proc q).state = .unused → ∃ r, (s.proc r).state = .running ∧
        (WaitsAt s r event ∧ (s.proc q).parent = some r ∨
          (s.proc q).tid ≠ 1 ∧ Leads s r ∧ ((s.proc q).pid = (s.proc r).pid ∨ (s.proc q).master = some r))) := by
  have only := userinit_only d
  obtain ⟨runnable, whole, self⟩ := userinit_first d
  have calls : ∀ {p call}, (System.userinit d).call p = call → call = .none :=
    fun same => same.symm.trans (userinit_call d _)
  obtain ⟨lineage, _, parented, _, fathered, _, threaded, _, alive⟩ := run.history
    (fun events s => Lineage s ∧ Follows s ∧ Parented (System.userinit d) events s ∧ Childless s ∧ Fathered s ∧
      Prepared s ∧ Threaded (System.userinit d) events s ∧ Kinless s ∧ (s.proc s.initproc).state.started = true)
    (by
      refine ⟨.userinit d, .userinit d, fun q p taken _ child => ?_, fun p q _ call => ?_, fun q taken => ?_,
        fun p np call => ?_, fun q p taken thread _ => ?_, fun p q _ call => ?_, ?_⟩
      · rw [only q taken] at child ⊢
        exact .inl ⟨Option.some.inj (self.symm.trans child), .inr (userinit_initproc d).symm⟩
      · exact Call.noConfusion (calls call)
      · rw [only q taken, self]
        exact Option.some_ne_none 0
      · exact Call.noConfusion (calls call)
      · rw [only q taken] at thread
        exact absurd whole thread
      · exact Call.noConfusion (calls call)
      · rw [userinit_initproc, runnable]
        rfl)
    (fun before s event t run ⟨lineage, follows, parented, childless, fathered, prepared, threaded, kinless, alive⟩ taken =>
      have calm := run.mono fun _ _ _ => childStep_of_parentStep
      have child := childStep_of_parentStep taken
      ⟨lineage.step taken.1, follows.step lineage taken.1, parented.step lineage childless calm child,
        childless.step parented lineage child, fathered.step lineage taken.1, prepared.step lineage taken.1,
        threaded.step lineage follows kinless prepared run taken, kinless.step lineage prepared taken.1,
        root_started lineage taken alive⟩)
  have known : ∃ p, (s.proc q).parent = some p ∧ ((s.proc q).state = .embryo ∧ p = q ∨
      (s.proc p).state.started = true ∧ (p = s.initproc ∨ Forked (System.userinit d) p q events s ∨
        Created (System.userinit d) p q events s)) := by
    obtain ⟨p, parent⟩ := Option.ne_none_iff_exists'.mp (fathered q busy)
    refine ⟨p, parent, ?_⟩
    by_cases master : (s.proc q).tid = 1
    · rcases parented q p busy master parent with ⟨same, young | root⟩ | ⟨forked, started, _⟩ | ⟨root, _⟩
      · exact .inl ⟨young, same.symm⟩
      · exact absurd root other
      · exact .inr ⟨started, .inr (.inl forked)⟩
      · exact .inr ⟨root ▸ alive, .inl root⟩
    · rcases threaded q p busy master parent with root | ⟨_, started, created⟩
      · exact .inr ⟨root ▸ alive, .inl root⟩
      · exact .inr ⟨started, .inr (.inr created)⟩
  obtain ⟨p, parent, which⟩ := known
  refine ⟨⟨p, parent, ?_, which⟩, fun zombie => ⟨⟨p, parent, ?_, ?_⟩, fun event t taken gone => reaped_by lineage taken zombie gone⟩⟩
  · rcases which with ⟨_, rfl⟩ | ⟨started, _⟩
    · exact busy
    · intro unused
      rw [unused] at started
      contradiction
  · rcases which with ⟨young, _⟩ | ⟨started, _⟩
    · rw [zombie] at young
      contradiction
    · exact started
  · intro nobody
    refine absurd (List.find?_eq_none.mp nobody q (List.mem_finRange q)) (not_not_intro ?_)
    rw [decide_eq_true parent, decide_eq_true zombie]
    rfl

/-- A step other than `exit` and `thread_exit` meets the condition. -/
theorem parentStep_of_step {s t : System} {event : Event} (other : event.passing = false)
    (taken : s.step event = some t) : parentStep s event t := by
  refine ⟨taken, fun retval same => ?_, fun p same => ?_⟩
  · rw [same] at other
    contradiction
  · rw [same] at other
    contradiction

/-- A child of the first process forks, and its child exits. -/
theorem parents_stay_grandchild :
    ∃ s, Run parentStep (System.userinit 0) [.run 0, .fork 0 true, .forkCopy 0 (.copied 1), .run 1, .fork 1 true,
        .forkCopy 1 (.copied 2), .run 2, .exit 2] s ∧
      ∃ p, (s.proc 2).parent = some p ∧ (s.proc p).state.started = true ∧ s.zombieChild p ≠ none := by
  have run : ∃ s, Run parentStep (System.userinit 0) [.run 0, .fork 0 true, .forkCopy 0 (.copied 1), .run 1, .fork 1 true,
      .forkCopy 1 (.copied 2), .run 2, .exit 2] s ∧ (s.proc 2).state = .zombie ∧ s.initproc = 0 := by
    refine ⟨_, .cons (parentStep_of_step rfl rfl) (.cons (parentStep_of_step rfl rfl)
      (.cons (parentStep_of_step rfl rfl) (.cons (parentStep_of_step rfl rfl) (.cons (parentStep_of_step rfl rfl)
      (.cons (parentStep_of_step rfl rfl) (.cons (parentStep_of_step rfl rfl) (.cons ⟨rfl, nofun, ?_⟩ (.nil _)))))))),
      ?_, ?_⟩
    · intro p same thread
      cases same
      exact absurd rfl thread
    · decide +kernel
    · rfl
  obtain ⟨s, run, zombie, init⟩ := run
  have stays := parents_stay (q := 2) run (taken_of_state zombie nofun) (by rw [init]; decide)
  exact ⟨s, run, (stays.2 zombie).1⟩

/-- An LWP forks and exits, its master collects it, and the first process forks: the child of the
LWP has the new process for a parent. -/
theorem parent_reused :
    (∃ u, Run (fun s event t => s.step event = some t) (System.userinit 0) [.run 0, .fork 0 true,
        .forkCopy 0 (.copied 1), .run 1, .threadChoose 1, .threadCreate 1 .mapped, .run 2, .fork 2 true] u ∧
      u.call 2 = .fork 3 ∧ (u.proc 2).pid = (u.proc 1).pid ∧ (u.proc 2).tid = 2) ∧
    (∃ s, Run (fun s event t => s.step event = some t) (System.userinit 0) [.run 0, .fork 0 true,
        .forkCopy 0 (.copied 1), .run 1, .threadChoose 1, .threadCreate 1 .mapped, .run 2, .fork 2 true,
        .forkCopy 2 (.copied 2), .exit 2, .threadJoin 1 2] s ∧
      (s.proc 3).state = .runnable ∧ (s.proc 3).parent = some 2 ∧ (s.proc 2).state = .unused) ∧
    ∃ s, Run (fun s event t => s.step event = some t) (System.userinit 0) [.run 0, .fork 0 true,
        .forkCopy 0 (.copied 1), .run 1, .threadChoose 1, .threadCreate 1 .mapped, .run 2, .fork 2 true,
        .forkCopy 2 (.copied 2), .exit 2, .threadJoin 1 2, .fork 0 true, .forkCopy 0 (.copied 3)] s ∧
      (s.proc 3).parent = some 2 ∧ (s.proc 2).state = .runnable ∧ (s.proc 2).parent = some 0 ∧
      (s.proc 2).pid ≠ (s.proc 1).pid := by
  have forks : ((Run.exec System.step [.run 0, .fork 0 true, .forkCopy 0 (.copied 1), .run 1, .threadChoose 1,
      .threadCreate 1 .mapped, .run 2, .fork 2 true] (System.userinit 0)).map fun u =>
        (u.call 2, decide ((u.proc 2).pid = (u.proc 1).pid), (u.proc 2).tid)) = some (.fork 3, true, 2) := by
    decide +kernel
  have dangles : ((Run.exec System.step [.run 0, .fork 0 true, .forkCopy 0 (.copied 1), .run 1, .threadChoose 1,
      .threadCreate 1 .mapped, .run 2, .fork 2 true, .forkCopy 2 (.copied 2), .exit 2, .threadJoin 1 2]
      (System.userinit 0)).map fun s => ((s.proc 3).state, (s.proc 3).parent, (s.proc 2).state)) =
        some (.runnable, some 2, .unused) := by
    decide +kernel
  have reused : ((Run.exec System.step [.run 0, .fork 0 true, .forkCopy 0 (.copied 1), .run 1, .threadChoose 1,
      .threadCreate 1 .mapped, .run 2, .fork 2 true, .forkCopy 2 (.copied 2), .exit 2, .threadJoin 1 2, .fork 0 true,
      .forkCopy 0 (.copied 3)] (System.userinit 0)).map fun s =>
        ((s.proc 3).parent, (s.proc 2).state, (s.proc 2).parent, decide ((s.proc 2).pid = (s.proc 1).pid))) =
          some (some 2, .runnable, some 0, false) := by
    decide +kernel
  obtain ⟨u, executed, first⟩ := Option.map_eq_some_iff.mp forks
  obtain ⟨s, executed', second⟩ := Option.map_eq_some_iff.mp dangles
  obtain ⟨t, executed'', third⟩ := Option.map_eq_some_iff.mp reused
  rw [Prod.mk.injEq, Prod.mk.injEq, decide_eq_true_eq] at first
  rw [Prod.mk.injEq, Prod.mk.injEq] at second
  rw [Prod.mk.injEq, Prod.mk.injEq, Prod.mk.injEq, decide_eq_false_iff_not] at third
  exact ⟨⟨u, Run.of_exec executed, first⟩, ⟨s, Run.of_exec executed', second⟩, t, Run.of_exec executed'', third⟩

end Xv6
