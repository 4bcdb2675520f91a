import Xv6.Verif.Lineage

/-!
# Children

The parent of a process is the LWP that forked it, as long as that one lives; `exit` in the group
of the parent, `thread_exit` of the parent or of the process itself pass the process to init, and
`exec` passes the LWP that leaves its group to init. So a `wait` that collects a process collects
one that its caller forked or, in init, one that was passed on. This holds in the runs in which an
LWP that is no master does not call `exit` while it has forked processes, which would leave them
with it.
-/

namespace Xv6

/-! ## Steps and histories -/

/-- A step in which no LWP but a master calls `exit` while it is the parent of a process. -/
def childStep (s : System) (event : Event) (t : System) : Prop :=
  s.step event = some t ∧ ∀ p, event = .exit p → (s.proc p).tid ≠ 1 →
    ∀ q, (s.proc q).state ≠ .unused → (s.proc q).tid = 1 → (s.proc q).parent ≠ some p

/-- A step after which a fact holds. -/
def childStepTo (holds : System → Prop) (s : System) (event : Event) (t : System) : Prop :=
  childStep s event t ∧ holds t

/-- `p` has forked the process in slot `q`, and neither has ended since. -/
def Forked (start : System) (p q : Lwp) (events : List Event) (s : System) : Prop :=
  ∃ before pgdir after u v, events = before ++ .forkCopy p (.copied pgdir) :: after ∧
    Run childStep start before u ∧ u.call p = .fork q ∧ childStep u (.forkCopy p (.copied pgdir)) v ∧
    Run (childStepTo fun t => (t.proc p).state.started = true ∧ (t.proc q).state ≠ .unused ∧
      (t.proc q).pid = (v.proc q).pid) v after s

/-- The steps that pass the process in slot `q` to init. -/
inductive PassedBy (s : System) (q : Lwp) : Event → Prop where
  /-- `exit` in the group of its parent. -/
  | exit (p : Lwp) : (s.proc q).parent = (s.proc p).master → (s.proc q).parent ≠ some s.initproc →
      PassedBy s q (.exit p)
  /-- `thread_exit` of its parent. -/
  | threadExit (p : Lwp) (retval : Nat) : (s.proc q).parent = some p → p ≠ s.initproc →
      PassedBy s q (.threadExit p retval)
  /-- Its own `thread_exit`. -/
  | itself (retval : Nat) : (s.proc q).parent ≠ some s.initproc → PassedBy s q (.threadExit q retval)
  /-- `exec`, which moves it out of its group. -/
  | exec : (s.proc q).tid ≠ 1 → PassedBy s q (.exec q)

/-- The process in slot `q` was passed to init and has not been deleted since. -/
def PassedOn (start : System) (q : Lwp) (events : List Event) (s : System) : Prop :=
  ∃ before event after u v, events = before ++ event :: after ∧ Run childStep start before u ∧
    childStep u event v ∧ PassedBy u q event ∧ (v.proc q).parent = some u.initproc ∧
    Run (childStepTo fun t => (t.proc q).state ≠ .unused) v after s

/-- What the parent of a process is. -/
def Parented (start : System) (events : List Event) (s : System) : Prop :=
  ∀ q p, (s.proc q).state ≠ .unused → (s.proc q).tid = 1 → (s.proc q).parent = some p →
    q = p ∧ ((s.proc q).state = .embryo ∨ q = s.initproc) ∨
    Forked start p q events s ∧ (s.proc p).state.started = true ∧ (s.proc q).pid ≠ (s.proc p).pid ∨
    p = s.initproc ∧ ((s.proc p).state.started = true → PassedOn start q events s)

/-- A master that waits in `exit` has no processes. -/
def Childless (s : System) : Prop :=
  ∀ p q, (s.proc p).state.started = true → s.call p = .exit → (s.proc q).state ≠ .unused →
    (s.proc q).tid = 1 → (s.proc q).parent ≠ some p

/-! ## Parents in one step -/

/-- How a process that is taken after a step got its parent. -/
inductive Kinship (s : System) (q : Lwp) (t : System) (event : Event) : Prop where
  /-- It had it, or was passed to init. -/
  | kept : (s.proc q).state ≠ .unused → (t.proc q).pid = (s.proc q).pid → (t.proc q).tid = (s.proc q).tid →
      ((s.proc q).state = .embryo → (t.proc q).state = .embryo) →
      ((t.proc q).parent = (s.proc q).parent ∨ PassedBy s q event ∧ (t.proc q).parent = some s.initproc) →
      Kinship s q t event
  /-- It is being forked. -/
  | founded : (t.proc q).state = .embryo → (t.proc q).parent = some q → (∃ p, event = .fork p true) →
      Kinship s q t event
  /-- It was forked. -/
  | forked (p : Lwp) (pgdir : Nat) : event = .forkCopy p (.copied pgdir) → (s.proc p).state = .running →
      s.call p = .fork q → t.call p = .none → (t.proc q).pid = (s.proc q).pid → (t.proc q).parent = some p →
      Kinship s q t event
  /-- It left its group. -/
  | left : PassedBy s q event → (t.proc q).parent = some s.initproc → Kinship s q t event

section Steps

variable {start s t u : System} {p q r : Lwp} {event : Event} {events : List Event}

/-- Replacing a slot by one with the same parent. -/
theorem setProc_parent (s : System) (p : Lwp) (r : Proc) (same : r.parent = (s.proc p).parent) (q : Lwp) :
    ((s.setProc p r).proc q).parent = (s.proc q).parent := by
  by_cases here : q = p
  · rw [here, System.setProc_self]
    exact same
  · rw [System.setProc_other _ _ here]

/-- The parents after `thread_exit`. -/
theorem threadExit_parent {retval : Nat} (taken : s.step (.threadExit p retval) = some t) (q : Lwp) :
    (t.proc q).parent = if (s.proc q).parent = some p ∨ (s.proc q).master = some p then some s.initproc
      else (s.proc q).parent := by
  obtain ⟨_, _, result⟩ := System.inside_some taken
  cases result
  let u := s.setProc p { s.proc p with retVal := retval }
  let v := u.wakeup1 ((u.proc p).master.map .proc)
  let orphan := fun q : Proc => decide (q.parent = some p) || decide (q.master = some p)
  have saved : (u.proc q).parent = (s.proc q).parent ∧ (u.proc q).master = (s.proc q).master := by
    by_cases here : q = p
    · rw [here, show u.proc p = { s.proc p with retVal := retval } from System.setProc_self _ _ _]
      exact ⟨rfl, rfl⟩
    · rw [show u.proc q = s.proc q from System.setProc_other _ _ here]
      exact ⟨rfl, rfl⟩
  have woken := Steady.wakeup1 u ((u.proc p).master.map .proc) q
  have passed := (passToInit_slot v orphan q).2.2
  rw [show (v.proc q).parent = (s.proc q).parent from woken.parent.trans saved.1] at passed
  have ended : ((s.threadExit p retval).proc q).parent = ((v.passToInit orphan).proc q).parent :=
    setProc_parent (v.passToInit orphan) p { (v.passToInit orphan).proc p with state := .zombie } rfl q
  refine ended.trans (passed.trans (if_congr ?_ rfl rfl))
  show (decide ((v.proc q).parent = some p) || decide ((v.proc q).master = some p)) = true ↔ _
  rw [woken.parent.trans saved.1, woken.master.trans saved.2, Bool.or_eq_true, decide_eq_true_eq, decide_eq_true_eq]

/-- `thread_exit` passes every child to init. -/
theorem threadExit_passes {retval : Nat} (taken : s.step (.threadExit p retval) = some t)
    (child : (s.proc q).parent = some p) : (t.proc q).parent = some s.initproc :=
  (threadExit_parent taken q).trans (if_pos (.inl child))

/-- The parents after `exit`, of the slots that it leaves. -/
theorem exit_parent (taken : s.step (.exit p) = some t) (still : (t.proc q).state ≠ .unused) :
    (t.proc q).parent = if (s.proc q).pid ≠ (s.proc p).pid ∧ (s.proc q).parent = (s.proc p).master then some s.initproc
      else (s.proc q).parent := by
  obtain ⟨running, _, exited⟩ := System.inside_some taken
  have chosen : ∀ {master}, s.orphan p master (s.proc q) = true ↔
      (s.proc q).pid ≠ (s.proc p).pid ∧ (s.proc q).parent = some master := by
    intro master
    rw [← decide_eq_true_eq (p := _ ≠ _), ← decide_eq_true_eq (p := _ = some master)]
    exact Bool.and_eq_true _ _ ▸ Iff.rfl
  cases exit_goes exited with
  | master master _ led _ exited =>
    rw [led]
    obtain ⟨_, _, passed⟩ := passToInit_slot s (s.orphan p master) q
    have started : ((s.passToInit (s.orphan p master)).proc p).state.started = true := by
      rw [(passToInit_slot s (s.orphan p master) p).1.started]
      exact System.started_of_running running
    rw [if_congr chosen rfl rfl] at passed
    rcases exitPass_slot started exited q with (steady | ⟨_, cleared, _⟩) | ⟨here, v, steadyP, steady⟩
    · exact steady.parent.trans passed
    · exact absurd cleared.state still
    · rw [here] at passed steady ⊢
      exact steady.parent.trans (steadyP.parent.trans passed)
  | thread master _ led _ result =>
    rw [led, result]
    have warned : Steady s (s.warn master) := (Steady.setKilled s master).trans (.wakeup1 _ _)
    obtain ⟨_, _, passed⟩ := passToInit_slot (s.warn master) (s.orphan p master) q
    have same : s.orphan p master ((s.warn master).proc q) = s.orphan p master (s.proc q) := by
      unfold System.orphan
      rw [(warned q).pid, (warned q).parent]
    rw [same, (warned q).parent, if_congr chosen rfl rfl] at passed
    rcases endExit_slot ((s.warn master).passToInit (s.orphan p master)) p q with ⟨_, steady⟩ | ⟨here, steady⟩
    · exact steady.parent.trans passed
    · have own : (((s.warn master).passToInit (s.orphan p master)).proc p).parent =
          (((s.warn master).passToInit (s.orphan p master)).proc q).parent := by rw [here]
      exact steady.parent.trans (own.trans passed)

/-- `exit` of a master passes every child of another pid to init. -/
theorem exit_passes (taken : s.step (.exit p) = some t) (own : (s.proc p).master = some p)
    (child : (s.proc q).parent = some p) (other : (s.proc q).pid ≠ (s.proc p).pid) :
    (t.proc q).state = .unused ∨ (t.proc q).parent = some s.initproc := by
  by_cases gone : (t.proc q).state = .unused
  · exact .inl gone
  · exact .inr ((exit_parent taken gone).trans (if_pos ⟨other, child.trans own.symm⟩))

/-- Why `exit` or `thread_exit` gives a process another parent. -/
theorem passed_by (lineage : Lineage s) (taken : s.step event = some t) (passing : event.passing = true)
    (here : (s.proc q).state ≠ .unused) (whole : (s.proc q).tid = 1) (still : (t.proc q).state ≠ .unused)
    (given : (t.proc q).parent = some s.initproc) (moved : (t.proc q).parent ≠ (s.proc q).parent) : PassedBy s q event := by
  have foreign : (s.proc q).parent ≠ some s.initproc := fun same => moved (given.trans same.symm)
  cases event with
  | threadExit p retval =>
    have parent := threadExit_parent taken q
    split at parent
    · rename_i which
      rcases which with child | member
      · exact .threadExit p retval child fun same => foreign (child.trans (congrArg some same))
      · cases Option.some.inj (member.symm.trans (lineage.own q here whole))
        exact .itself retval foreign
    · exact absurd parent moved
  | exit p =>
    have parent := exit_parent taken still
    split at parent
    · rename_i which
      exact .exit p which.2 foreign
    · exact absurd parent moved
  | _ => contradiction

/-- Every process has its parent in one of these ways. -/
theorem step_kinship (lineage : Lineage s) (step : s.step event = some t) (taken : (t.proc q).state ≠ .unused)
    (whole : (t.proc q).tid = 1) : Kinship s q t event := by
  have exits : (s.proc q).state = .running → (s.proc q).state ≠ .unused ∧
      ((s.proc q).state = .embryo → (t.proc q).state = .embryo) := by
    intro running
    rw [running]
    exact ⟨RunState.noConfusion, RunState.noConfusion⟩
  have kept : (s.proc q).state ≠ .unused → (t.proc q).tid = (s.proc q).tid →
      ((t.proc q).parent = (s.proc q).parent ∨ event.passing = true ∧ (t.proc q).parent = some s.initproc) →
      ((t.proc q).parent = (s.proc q).parent ∨ PassedBy s q event ∧ (t.proc q).parent = some s.initproc) := by
    intro here tid parent
    by_cases same : (t.proc q).parent = (s.proc q).parent
    · exact .inl same
    · obtain ⟨passing, given⟩ := parent.resolve_left same
      exact .inr ⟨passed_by lineage step passing here (tid.symm.trans whole) taken given same, given⟩
  cases step_slot lineage.positive step q with
  | stays _ group _ parent =>
    have here : (s.proc q).state ≠ .unused := fun unused => taken ((group.state_iff rfl).mpr unused)
    exact .kept here group.pid group.tid (fun embryo => (group.state_iff rfl).mpr embryo) (kept here group.tid parent)
  | deleted _ _ _ cleared => exact absurd cleared.state taken
  | threadExit _ running _ _ _ pid tid _ parent =>
    exact .kept (exits running).1 pid tid (exits running).2
      (kept (exits running).1 tid (parent.imp_right fun init => ⟨rfl, init⟩))
  | ends _ _ running _ pid tid _ parent =>
    exact .kept (exits running).1 pid tid (exits running).2 (kept (exits running).1 tid parent)
  | founded p _ embryo _ _ _ _ parent => exact .founded embryo parent ⟨p, rfl⟩
  | released _ _ unused _ _ _ => exact absurd unused taken
  | abandoned _ _ _ _ unused _ _ _ => exact absurd unused taken
  | started p pgdir running call left _ _ pid _ _ parent => exact .forked p pgdir rfl running call left pid parent
  | published p tid _ call _ _ _ _ same _ =>
    have least := lineage.creating p tid call
    omega
  | detached _ _ thread _ _ _ _ _ parent => exact .left (.exec thread) parent

/-- The parent of a process stays started, or the process is passed to init. -/
theorem parent_stays (lineage : Lineage s) (childless : Childless s) (taken : childStep s event t)
    (started : (s.proc p).state.started = true) (here : (s.proc q).state ≠ .unused) (whole : (s.proc q).tid = 1)
    (child : (s.proc q).parent = some p) (apart : (s.proc q).pid ≠ (s.proc p).pid) (still : (t.proc q).state ≠ .unused) :
    (t.proc p).state.started = true ∧ ((t.proc p).pid = (s.proc p).pid ∨ (t.proc p).pid = s.nextpid) ∨
      (t.proc p).state = .zombie ∧ (t.proc q).parent = some s.initproc := by
  have vacant : s.freeSlot ≠ some p := by
    intro free
    rw [freeSlot_unused free] at started
    contradiction
  have born : ∀ r, s.call r ≠ .fork p := by
    intro r call
    rw [(lineage.forking r p call).2.1] at started
    contradiction
  have exits : ∀ {event : Event}, childStep s event t → event = .exit p → (t.proc q).parent = some s.initproc := by
    rintro event taken rfl
    by_cases master : (s.proc p).tid = 1
    · have own := lineage.own p (fun unused => by rw [unused] at started; contradiction) master
      exact (exit_passes taken.1 own child apart).resolve_left still
    · exact absurd child (taken.2 p rfl master q here whole)
  cases step_slot lineage.positive taken.1 p with
  | stays _ group _ _ => exact .inl ⟨group.started.trans started, .inl group.pid⟩
  | deleted _ _ zombie _ => exact absurd zombie (RunState.not_zombie started)
  | threadExit retval _ _ zombie _ _ _ _ _ => exact .inr ⟨zombie, threadExit_passes taken.1 child⟩
  | ends _ which _ zombie _ _ _ _ =>
    rcases which with ⟨same, _⟩ | ⟨_, call⟩
    · exact .inr ⟨zombie, exits taken same⟩
    · exact absurd child (childless p q started call here whole)
  | founded _ free _ _ _ _ _ _ => exact absurd free vacant
  | released _ free _ _ _ _ => exact absurd free vacant
  | abandoned r _ call _ _ _ _ _ => exact absurd call (born r)
  | started r _ _ call _ _ _ _ _ _ _ => exact absurd call (born r)
  | published _ _ _ _ free _ _ _ _ _ => exact absurd free vacant
  | detached _ _ _ alive pid _ _ _ _ => exact .inl ⟨alive, .inr pid⟩

/-- One more step after a fork. -/
theorem Forked.snoc (forked : Forked start p q events s) (taken : childStep s event t)
    (started : (t.proc p).state.started = true) (still : (t.proc q).state ≠ .unused)
    (pid : (t.proc q).pid = (s.proc q).pid) : Forked start p q (events ++ [event]) t := by
  obtain ⟨before, pgdir, after, u, v, rfl, first, call, copied, rest⟩ := forked
  have same : (s.proc q).pid = (v.proc q).pid :=
    rest.invariant (fun s => (s.proc q).pid = (v.proc q).pid) (fun _ _ _ _ taken => taken.2.2.2) rfl
  refine ⟨before, pgdir, after ++ [event], u, v, ?_, first, call, copied, rest.snoc ⟨taken, started, still, pid.trans same⟩⟩
  rw [List.append_assoc, List.cons_append]

/-- One more step after a process was passed to init. -/
theorem PassedOn.snoc (passed : PassedOn start q events s) (taken : childStep s event t)
    (still : (t.proc q).state ≠ .unused) : PassedOn start q (events ++ [event]) t := by
  obtain ⟨before, passing, after, u, v, rfl, first, step, which, parent, rest⟩ := passed
  refine ⟨before, passing, after ++ [event], u, v, ?_, first, step, which, parent, rest.snoc ⟨taken, still⟩⟩
  rw [List.append_assoc, List.cons_append]

/-- A step that passes a process to init. -/
theorem PassedOn.now (run : Run childStep start events s) (taken : childStep s event t)
    (which : PassedBy s q event) (parent : (t.proc q).parent = some s.initproc) : PassedOn start q (events ++ [event]) t :=
  ⟨events, event, [], s, t, rfl, run, taken, which, parent, .nil t⟩

/-- The first process is not started again. -/
theorem root_was_started (lineage : Lineage s) (taken : s.step event = some t)
    (alive : (t.proc s.initproc).state.started = true) : (s.proc s.initproc).state.started = true := by
  rcases lineage.root.1 with started | zombie
  · exact started
  · have busy : ∀ {state : RunState}, (s.proc s.initproc).state = state → state ≠ .zombie → False :=
      fun same other => other (same.symm.trans zombie)
    have stopped : (t.proc s.initproc).state = .unused → False := by
      intro unused
      rw [unused] at alive
      contradiction
    cases step_slot lineage.positive taken s.initproc with
    | stays _ group _ _ => exact group.started.symm.trans alive
    | deleted _ _ _ cleared => exact (stopped cleared.state).elim
    | threadExit _ running _ _ _ _ _ _ _ => exact (busy running nofun).elim
    | ends _ _ running _ _ _ _ _ => exact (busy running nofun).elim
    | founded _ free _ _ _ _ _ _ => exact (busy (freeSlot_unused free) nofun).elim
    | released _ free _ _ _ _ => exact (busy (freeSlot_unused free) nofun).elim
    | abandoned _ _ _ _ unused _ _ _ => exact (stopped unused).elim
    | started p _ _ call _ _ _ _ _ _ _ => exact (busy (lineage.forking p _ call).2.1 nofun).elim
    | published _ _ _ _ free _ _ _ _ _ => exact (busy (freeSlot_unused free) nofun).elim
    | detached running _ _ _ _ _ _ _ _ => exact (busy running nofun).elim

/-- Every such step keeps what the parents are. -/
theorem Parented.step (parented : Parented start events s) (lineage : Lineage s) (childless : Childless s)
    (run : Run childStep start events s) (taken : childStep s event t) : Parented start (events ++ [event]) t := by
  have slots := step_slot lineage.positive taken.1
  have init := (step_rest (step_effect taken.1)).2
  intro q p still whole parent
  rw [init]
  have passes : PassedBy s q event → (t.proc q).parent = some s.initproc →
      p = s.initproc ∧ ((t.proc p).state.started = true → PassedOn start q (events ++ [event]) t) :=
    fun which given => ⟨Option.some.inj (parent.symm.trans given), fun _ => .now run taken which given⟩
  cases step_kinship lineage taken.1 still whole with
  | kept here pid tid embryo given =>
    rcases given with same | ⟨which, given⟩
    · rw [same] at parent
      rw [tid] at whole
      rcases parented q p here whole parent with ⟨self, root⟩ | ⟨forked, started, apart⟩ | ⟨root, passed⟩
      · exact .inl ⟨self, root.imp_left embryo⟩
      · rcases parent_stays lineage childless taken started here whole parent apart still with
          ⟨alive, known⟩ | ⟨zombie, given⟩
        · refine .inr (.inl ⟨forked.snoc taken alive still pid, alive, ?_⟩)
          rw [pid]
          rcases known with old | new
          · rw [old]
            exact apart
          · rw [new]
            exact Nat.ne_of_lt (lineage.fresh q)
        · refine .inr (.inr ⟨Option.some.inj (parent.symm.trans (same.symm.trans given)), fun started => ?_⟩)
          exact absurd zombie (RunState.not_zombie started)
      · refine .inr (.inr ⟨root, fun alive => (passed ?_).snoc taken still⟩)
        rw [root] at alive ⊢
        exact root_was_started lineage taken.1 alive
    · exact .inr (.inr (passes which given))
  | founded embryo self _ => exact .inl ⟨Option.some.inj (self.symm.trans parent), .inl embryo⟩
  | forked r pgdir same running call _ pid given =>
    rw [given] at parent
    cases parent
    have started := System.started_of_running running
    have group := (slots p).inside lineage started (by rw [call]; exact Call.noConfusion)
      (by rw [call]; exact Call.noConfusion)
    rw [same] at taken ⊢
    refine .inr (.inl ⟨⟨events, pgdir, [], s, t, rfl, run, call, taken, .nil t⟩, group.started.trans started, ?_⟩)
    rw [pid, group.pid]
    exact (lineage.forking p q call).2.2
  | left which given => exact .inr (.inr (passes which given))

/-- Every such step keeps the masters in `exit` childless. -/
theorem Childless.step (childless : Childless s) (parented : Parented start events s) (lineage : Lineage s)
    (taken : childStep s event t) : Childless t := by
  have slots := step_slot lineage.positive taken.1
  have calls := step_call taken.1
  have init := (step_rest (step_effect taken.1)).2
  intro p q started call still whole parent
  have other : p ≠ s.initproc := by
    have ending := (lineage.ending_step slots calls init p started call).2
    rw [init] at ending
    exact ending
  have busy : t.call p ≠ .none := by
    rw [call]
    exact Call.noConfusion
  have stopped : ∀ r, s.call p = .fork r → False := by
    intro r forks
    cases calls p with
    | kept _ same =>
      rw [call, forks] at same
      contradiction
    | exits _ _ _ => 
      obtain ⟨_, idle, _⟩ := System.inside_some taken.1
      rw [forks] at idle
      contradiction
    | _ => simp_all only [reduceCtorEq]
  cases step_kinship lineage taken.1 still whole with
  | kept here pid tid embryo given =>
    rcases given with same | ⟨_, given⟩
    · rw [same] at parent
      rw [tid] at whole
      cases calls p with
      | kept _ before =>
        have exiting := before.symm.trans call
        have group := (slots p).was_inside started (by rw [exiting]; exact Call.noConfusion) busy
        rw [group.started] at started
        exact childless p q started exiting here whole parent
      | exits master _ _ =>
        obtain ⟨running, _, _⟩ := System.inside_some taken.1
        have own := lineage.own p (taken_of_state running RunState.noConfusion) master
        have apart : (s.proc q).pid ≠ (s.proc p).pid := by
          rcases parented q p here whole parent with ⟨rfl, young | root⟩ | ⟨_, _, apart⟩ | ⟨root, _⟩
          · rw [running] at young
            contradiction
          · exact absurd root other
          · exact apart
          · exact absurd root other
        have passed := (exit_passes taken.1 own parent apart).resolve_left still
        rw [same, parent] at passed
        exact other (Option.some.inj passed)
      | _ => simp_all only [reduceCtorEq]
    · exact other (Option.some.inj (parent.symm.trans given))
  | founded embryo self _ =>
    cases Option.some.inj (self.symm.trans parent)
    rw [embryo] at started
    contradiction
  | forked r pgdir _ _ forks _ _ given =>
    cases Option.some.inj (given.symm.trans parent)
    exact stopped q forks
  | left _ given => exact other (Option.some.inj (parent.symm.trans given))

/-- A pass of the loop of `wait` that collects deletes one zombie child. -/
theorem waitPass_reaped {c : Nat} (passed : s.waitPass p = some (.reaped q c, t)) :
    (s.proc q).parent = some p ∧ (s.proc q).state = .zombie ∧ c = (s.proc q).pid ∧ (t.proc q).state = .unused ∧
      ∀ r, r ≠ q → (s.proc r).Steady (t.proc r) := by
  cases waitPass_ends passed with
  | @reaped v _ child zombie _ deleted =>
    have steady : ∀ r, r ≠ q → (s.proc r).Steady (v.proc r) := fun r other => deleteThread_steady deleted other
    exact ⟨child, zombie, rfl, (System.deleteThread_self deleted).1, steady⟩

/-- Without children `wait` returns -1. -/
theorem waitPass_alone (alone : ∀ q, (s.proc q).parent ≠ some p) :
    s.waitPass p = some (.failed, s.setCall p .none) := by
  have nobody : ∀ {wanted : Lwp → Bool}, (∀ q, wanted q = true → (s.proc q).parent = some p) → firstSlot wanted = none := by
    intro wanted child
    exact List.find?_eq_none.mpr fun q _ mine => alone q (child q mine)
  unfold System.waitPass
  simp only
  rw [nobody fun q mine => (of_decide_eq_true (Bool.and_elim_left mine)), nobody fun q mine => of_decide_eq_true mine]
  rfl

end Steps

/-- In runs in which no LWP but a master calls `exit` while it is the parent of a process: a `wait`
that collects a process collects one that its caller has forked or, in init, one that was passed
on; its pid is not the caller's and no LWP of the caller's group is deleted. Any other caller than
init gets -1 at once when no process that it has forked and no LWP that it has created is left. -/
theorem wait_reaps_children {d : Nat} {events : List Event} {s : System} {p : Lwp}
    (run : Run childStep (System.userinit d) events s) (running : (s.proc p).state = .running) :
    (∀ q c t, s.waitPass p = some (.reaped q c, t) → (s.proc q).tid = 1 →
      c = (s.proc q).pid ∧ c ≠ (s.proc p).pid ∧
      (Forked (System.userinit d) p q events s ∨ p = s.initproc ∧ PassedOn (System.userinit d) q events s) ∧
      (t.proc q).state = .unused ∧
      ∀ r, (s.proc r).state ≠ .unused → (s.proc r).pid = (s.proc p).pid → (t.proc r).state ≠ .unused) ∧
    (p ≠ s.initproc → (∀ q, (s.proc q).state ≠ .unused → ¬Forked (System.userinit d) p q events s) →
      (∀ q, (s.proc q).state ≠ .unused → (s.proc q).tid ≠ 1 → (s.proc q).parent ≠ some p) →
      s.waitPass p = some (.failed, s.setCall p .none)) := by
  obtain ⟨lineage, parented, _⟩ := run.history
    (fun events s => Lineage s ∧ Parented (System.userinit d) events s ∧ Childless s)
    (by
      have only := userinit_only d
      obtain ⟨_, _, parent⟩ := userinit_first d
      refine ⟨.userinit d, fun q p taken _ child => ?_, fun p q _ call => ?_⟩
      · rw [only q taken] at child ⊢
        exact .inl ⟨Option.some.inj (parent.symm.trans child), .inr (userinit_initproc d).symm⟩
      · exact Call.noConfusion (call.symm.trans (userinit_call d p)))
    (fun before s event t run ⟨lineage, parented, childless⟩ taken =>
      ⟨lineage.step taken.1, parented.step lineage childless run taken, childless.step parented lineage taken⟩)
  refine ⟨fun q c t passed whole => ?_, fun other unforked uncreated => ?_⟩
  · obtain ⟨child, zombie, pid, cleared, others⟩ := waitPass_reaped passed
    have taken := taken_of_state zombie RunState.noConfusion
    have apart : q ≠ p := by
      rintro rfl
      rw [running] at zombie
      contradiction
    have strange : (s.proc q).pid ≠ (s.proc p).pid := by
      rcases parented q p taken whole child with ⟨same, _⟩ | ⟨_, _, strange⟩ | ⟨root, _⟩
      · exact absurd same apart
      · exact strange
      · intro same
        refine apart (lineage.masters q p taken (taken_of_state running RunState.noConfusion) whole ?_ same)
        rw [root]
        exact lineage.root.2.1
    refine ⟨pid, ?_, ?_, cleared, fun r here mine => ?_⟩
    · rw [pid]
      exact strange
    · rcases parented q p taken whole child with ⟨same, _⟩ | ⟨forked, _⟩ | passed
      · exact absurd same apart
      · exact .inl forked
      · exact .inr ⟨passed.1, passed.2 (System.started_of_running running)⟩
    · have distinct : r ≠ q := by
        rintro rfl
        exact strange mine
      exact fun unused => here (((others r distinct).state_iff rfl).mp unused)
  · refine waitPass_alone fun q child => ?_
    by_cases taken : (s.proc q).state = .unused
    · rcases lineage.stale q (.inl taken) with orphan | self | root
      · rw [child] at orphan
        contradiction
      · rw [child] at self
        cases self
        rw [running] at taken
        contradiction
      · rw [child] at root
        exact other (Option.some.inj root)
    · by_cases whole : (s.proc q).tid = 1
      · rcases parented q p taken whole child with ⟨rfl, young | root⟩ | ⟨forked, _⟩ | ⟨root, _⟩
        · rw [running] at young
          contradiction
        · exact other root
        · exact unforked q taken forked
        · exact other root
      · exact uncreated q taken whole child

/-- A step other than `exit` meets the condition. -/
theorem childStep_of_step {s t : System} {event : Event} (other : ∀ p, event ≠ .exit p)
    (taken : s.step event = some t) : childStep s event t :=
  ⟨taken, fun p same => absurd same (other p)⟩

/-- A child of the first process forks, its child exits, and it collects that one. -/
theorem wait_reaps_children_grandchild :
    ∃ s t, Run childStep (System.userinit 0) [.run 0, .fork 0 true, .forkCopy 0 (.copied 1), .run 1, .fork 1 true,
        .forkCopy 1 (.copied 2), .run 2, .exit 2] s ∧ s.waitPass 1 = some (.reaped 2 3, t) ∧
      3 ≠ (s.proc 1).pid ∧ (Forked (System.userinit 0) 1 2 [.run 0, .fork 0 true, .forkCopy 0 (.copied 1), .run 1,
        .fork 1 true, .forkCopy 1 (.copied 2), .run 2, .exit 2] s ∨ 1 = s.initproc ∧ PassedOn (System.userinit 0) 2
          [.run 0, .fork 0 true, .forkCopy 0 (.copied 1), .run 1, .fork 1 true, .forkCopy 1 (.copied 2), .run 2,
            .exit 2] s) := by
  have run : ∃ s, Run childStep (System.userinit 0) [.run 0, .fork 0 true, .forkCopy 0 (.copied 1), .run 1, .fork 1 true,
      .forkCopy 1 (.copied 2), .run 2, .exit 2] s ∧ (s.proc 1).state = .running ∧ (s.proc 2).tid = 1 ∧
      (s.waitPass 1).map Prod.fst = some (.reaped 2 3) := by
    refine ⟨_, .cons (childStep_of_step nofun rfl) (.cons (childStep_of_step nofun rfl)
      (.cons (childStep_of_step nofun rfl) (.cons (childStep_of_step nofun rfl) (.cons (childStep_of_step nofun rfl)
      (.cons (childStep_of_step nofun rfl) (.cons (childStep_of_step nofun rfl) (.cons ⟨rfl, ?_⟩ (.nil _)))))))), ?_, ?_, ?_⟩
    · intro p same thread
      cases same
      exact absurd rfl thread
    · rfl
    · rfl
    · decide +kernel
  obtain ⟨s, run, running, whole, outcome⟩ := run
  obtain ⟨⟨result, t⟩, passed, same⟩ := Option.map_eq_some_iff.mp outcome
  rw [show result = .reaped 2 3 from same] at passed
  obtain ⟨_, strange, forked, _⟩ := (wait_reaps_children run running).1 2 3 t passed whole
  exact ⟨s, t, run, passed, strange, forked⟩

/-- A child of the first process forks and exits; the first process collects it and then the
process that it had forked. -/
theorem init_reaps_orphan :
    (∃ u, Run (fun s event t => s.step event = some t) (System.userinit 0) [.run 0, .fork 0 true,
        .forkCopy 0 (.copied 1), .run 1, .fork 1 true] u ∧ u.call 1 = .fork 2 ∧ (u.proc 1).pid = 2 ∧
      (u.proc 0).pid = 1) ∧
    ∃ s t, Run (fun s event t => s.step event = some t) (System.userinit 0) [.run 0, .fork 0 true,
        .forkCopy 0 (.copied 1), .run 1, .fork 1 true, .forkCopy 1 (.copied 2), .exit 1, .run 2, .exit 2, .wait 0] s ∧
      s.waitPass 0 = some (.reaped 2 3, t) := by
  have forks : ((Run.exec System.step [.run 0, .fork 0 true, .forkCopy 0 (.copied 1), .run 1, .fork 1 true]
      (System.userinit 0)).map fun u => (u.call 1, (u.proc 1).pid, (u.proc 0).pid)) = some (.fork 2, 2, 1) := by
    decide +kernel
  have reaps : ((Run.exec System.step [.run 0, .fork 0 true, .forkCopy 0 (.copied 1), .run 1, .fork 1 true,
      .forkCopy 1 (.copied 2), .exit 1, .run 2, .exit 2, .wait 0] (System.userinit 0)).map fun s =>
        (s.waitPass 0).map Prod.fst) = some (some (.reaped 2 3)) := by
    decide +kernel
  obtain ⟨u, executed, summary⟩ := Option.map_eq_some_iff.mp forks
  obtain ⟨s, executed', outcome⟩ := Option.map_eq_some_iff.mp reaps
  obtain ⟨⟨result, t⟩, passed, same⟩ := Option.map_eq_some_iff.mp outcome
  rw [show result = .reaped 2 3 from same] at passed
  rw [Prod.mk.injEq, Prod.mk.injEq] at summary
  exact ⟨⟨u, Run.of_exec executed, summary⟩, s, t, Run.of_exec executed', passed⟩

end Xv6
