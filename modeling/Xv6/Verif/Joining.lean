import Xv6.Verif.Lineage

/-!
# Collecting LWPs

An LWP that `thread_create` starts with a `tid` stays in its slot until a `thread_join` of that
`tid` by the master of its group collects it, once, with the value that it passed to
`thread_exit`. This holds in the runs in which no two LWPs of a group are started with one `tid`
and `wait` finds no exited LWP before an exited process.
-/

namespace Xv6

/-! ## Steps and histories -/

/-- The event is a pass of the loop of `thread_join` by a master. -/
def JoinsAt (s : System) (m : Lwp) (thread : Nat) (event : Event) : Prop :=
  event = .threadJoin m thread ∧ (s.proc m).tid = 1 ∨ event = .resume m ∧ s.call m = .threadJoin thread

/-- LWPs end by `thread_exit`: `exit` is called by processes with a single LWP, `exec` by masters. -/
def ThreadsExit (s : System) (event : Event) : Prop :=
  (∀ p, (event = .exit p ∨ event = .resume p ∧ s.call p = .exit) → (s.proc p).tid = 1 ∧
    ∀ q, q ≠ p → (s.proc q).master = (s.proc p).master → (s.proc q).state = .unused) ∧
  ∀ p, event = .exec p → (s.proc p).tid = 1

/-- An LWP is started with a `tid` that no other LWP of its group has. -/
def FreshTid (s : System) (event : Event) : Prop :=
  ∀ p tid, event = .threadCreate p .mapped → s.call p = .threadCreate tid →
    ∀ q, (s.proc q).state ≠ .unused → (s.proc q).pid = (s.proc p).pid → (s.proc q).tid ≠ tid

/-- A step of LWPs that end by `thread_exit`, in which an LWP is started with a new `tid` only
and `wait` collects no LWP that `thread_create` has made. -/
def joinStep (s : System) (event : Event) (t : System) : Prop :=
  s.step event = some t ∧ ThreadsExit s event ∧ FreshTid s event ∧
    ∀ p q, WaitsAt s p event → s.zombieChild p = some q → (s.proc q).tid = 1

/-- A step after which a slot is still taken. -/
def joinStepOf (q : Lwp) (s : System) (event : Event) (t : System) : Prop :=
  joinStep s event t ∧ (t.proc q).state ≠ .unused

/-- The value that the event passes to `thread_exit` of an LWP. -/
def exitValue (q : Lwp) : Event → Option Nat
  | .threadExit p retval => if p = q then some retval else none
  | _ => none

/-- The values that the events pass to `thread_exit` of an LWP. -/
def exitValues (q : Lwp) (events : List Event) : List Nat := events.filterMap (exitValue q)

/-- `thread_create` of `p` has started an LWP. -/
structure Published (s : System) (p q : Lwp) (tid : Nat) (t : System) : Prop where
  unused : (s.proc q).state = .unused
  runnable : (t.proc q).state = .runnable
  /-- It is in the group of its creator. -/
  pid : (t.proc q).pid = (s.proc p).pid
  tid : (t.proc q).tid = tid

/-- The LWP that was started is there and is a zombie once it has called `thread_exit`, which
stored its value. -/
structure Remains (q : Lwp) (s : System) (events : List Event) (t : System) : Prop where
  /-- The slot has been taken ever since. -/
  run : Run (joinStepOf q) s events t
  pid : (t.proc q).pid = (s.proc q).pid
  tid : (t.proc q).tid = (s.proc q).tid
  /-- The LWP has not exited, or is a zombie with the value that it passed. -/
  value : (t.proc q).state.started = true ∧ exitValues q events = [] ∨
    (t.proc q).state = .zombie ∧ exitValues q events = [(t.proc q).retVal]

/-- A `thread_join` of its group has collected the LWP that was started, with the value that it
had passed to `thread_exit`. -/
def Collected (q : Lwp) (s : System) (events : List Event) (t : System) : Prop :=
  ∃ before event after u v m value, events = before ++ event :: after ∧ Remains q s before u ∧
    joinStep u event v ∧ JoinsAt u m (s.proc q).tid event ∧ (u.proc m).pid = (s.proc q).pid ∧
    exitValues q before = [value] ∧ u.joinPass m (s.proc q).tid = some (.collected q value, v) ∧
    Run joinStep v after t

/-- LWPs of one group have different tids. -/
def Distinct (s : System) : Prop :=
  ∀ q r, (s.proc q).state ≠ .unused → (s.proc r).state ≠ .unused → (s.proc q).pid = (s.proc r).pid →
    (s.proc q).tid = (s.proc r).tid → q = r

/-! ## Distinct tids -/

section Steps

variable {s t u : System} {p q r m : Lwp} {event : Event} {thread : Nat}

/-- Every such step keeps the tids distinct. -/
theorem Distinct.step (distinct : Distinct s) (lineage : Lineage s) (taken : joinStep s event t) : Distinct t := by
  have slots := step_slot lineage.positive taken.1
  -- a new pid or tid clashes with no slot that was there before
  have clash : ∀ q r, Placing s q t event → Placing s r t event → (t.proc q).pid = (t.proc r).pid →
      (t.proc q).tid = (t.proc r).tid → (s.proc q).state ≠ .unused → (t.proc q).pid = (s.proc q).pid →
      (t.proc q).tid = (s.proc q).tid → q = r := by
    intro q r _ second same same' here pid tid
    cases second with
    | kept there pid' tid' _ =>
      rw [pid, pid'] at same
      rw [tid, tid'] at same'
      exact distinct q r here there same same'
    | founds pid' _ _ _ _ =>
      rw [pid, pid'] at same
      exact absurd same (Nat.ne_of_lt (lineage.fresh q))
    | joins p n which _ call _ _ pid' tid' _ _ =>
      rw [pid, pid'] at same
      rw [tid, tid'] at same'
      exact absurd same' (taken.2.2.1 p n which call q here same)
  intro q r first second same same'
  have placed := (slots q).placing lineage first
  have placed' := (slots r).placing lineage second
  cases placed with
  | kept here pid tid master => exact clash q r (.kept here pid tid master) placed' same same' here pid tid
  | founds pid next whole master which =>
    cases placed' with
    | kept there pid' tid' master' =>
      exact (clash r q (.kept there pid' tid' master') (.founds pid next whole master which) same.symm same'.symm
        there pid' tid').symm
    | founds _ _ _ _ which' =>
      rcases which with ⟨free, _, rfl⟩ | rfl
      · rcases which' with ⟨free', _⟩ | other
        · exact Option.some.inj (free.symm.trans free')
        · contradiction
      · rcases which' with ⟨_, _, other⟩ | other
        · contradiction
        · cases other
          rfl
    | joins _ _ which' _ _ _ _ _ _ _ _ =>
      rcases which with ⟨_, _, rfl⟩ | rfl <;> contradiction
  | joins p n which running call free runnable pid tid least parent =>
    cases placed' with
    | kept there pid' tid' master' =>
      exact (clash r q (.kept there pid' tid' master') (.joins p n which running call free runnable pid tid least parent)
        same.symm same'.symm there pid' tid').symm
    | founds _ _ _ _ which' =>
      rw [which] at which'
      rcases which' with ⟨_, _, other⟩ | other <;> contradiction
    | joins _ _ _ _ _ free' _ _ _ _ _ => exact Option.some.inj (free.symm.trans free')

/-- `thread_exit` makes its LWP a zombie. -/
theorem threadExit_zombie {retval : Nat} (taken : s.step (.threadExit q retval) = some t) :
    (s.proc q).state = .running ∧ (t.proc q).state = .zombie := by
  obtain ⟨running, _, result⟩ := System.inside_some taken
  cases result
  exact ⟨running, congrArg Proc.state (System.setProc_self _ q _)⟩

/-- The values of one more event. -/
theorem exitValues_snoc (q : Lwp) (events : List Event) (event : Event) :
    exitValues q (events ++ [event]) = exitValues q events ++ (exitValue q event).toList := by
  unfold exitValues
  rw [List.filterMap_append]
  cases value : exitValue q event with
  | none => rw [List.filterMap_cons_none value, List.filterMap_nil, Option.toList_none]
  | some v => rw [List.filterMap_cons_some value, List.filterMap_nil, Option.toList_some]

/-- An event that is no `thread_exit` of the LWP passes no value of it. -/
theorem exitValue_none (other : ∀ retval, event ≠ .threadExit q retval) : exitValue q event = none := by
  cases event with
  | threadExit p retval =>
    refine if_neg fun same => ?_
    rw [same] at other
    exact other retval rfl
  | _ => rfl

/-- An LWP that `thread_create` has started stays, or the step collects it. -/
theorem Remains.step {events : List Event} (remains : Remains q s events t) (lineage : Lineage t)
    (thread : 2 ≤ (s.proc q).tid) (taken : joinStep t event u) :
    Remains q s (events ++ [event]) u ∨ ∃ m, JoinsAt t m (s.proc q).tid event ∧
      (t.proc m).pid = (s.proc q).pid ∧ exitValues q events = [(t.proc q).retVal] ∧
      t.joinPass m (s.proc q).tid = some (.collected q (t.proc q).retVal, u) := by
  have least : (t.proc q).tid ≠ 1 := by
    rw [remains.tid]
    omega
  have alive : (t.proc q).state.started = true ∨ (t.proc q).state = .zombie :=
    remains.value.imp And.left And.left
  have idle : ∀ {state : RunState}, (t.proc q).state = state → state.started = false → state ≠ .zombie → False := by
    intro state known stopped other
    rw [known] at alive
    rcases alive with started | zombie
    · rw [stopped] at started
      contradiction
    · exact other zombie
  have vacant : t.freeSlot ≠ some q := fun free => idle (freeSlot_unused free) rfl RunState.noConfusion
  have born : ∀ p, t.call p ≠ .fork q := fun p call => idle (lineage.forking p q call).2.1 rfl RunState.noConfusion
  -- the step keeps the slot taken and passes no value
  have stays : (t.proc q).SameGroup (u.proc q) → (u.proc q).retVal = (t.proc q).retVal →
      Remains q s (events ++ [event]) u := by
    intro group value
    have silent : exitValue q event = none := by
      refine exitValue_none fun retval same => ?_
      rw [same] at taken
      obtain ⟨running, zombie⟩ := threadExit_zombie taken.1
      rw [group.state_iff rfl, running] at zombie
      contradiction
    have still : (u.proc q).state ≠ .unused := by
      intro unused
      exact idle ((group.state_iff rfl).mp unused) rfl RunState.noConfusion
    refine ⟨remains.run.snoc ⟨taken, still⟩, group.pid.trans remains.pid, group.tid.trans remains.tid, ?_⟩
    rw [exitValues_snoc, silent, Option.toList_none, List.append_nil, group.started, group.state_iff rfl, value]
    exact remains.value
  cases step_slot lineage.positive taken.1 q with
  | stays _ group value _ => exact .inl (stays group value)
  | deleted _ collects zombie _ =>
    have passed : exitValues q events = [(t.proc q).retVal] := by
      rcases remains.value with ⟨started, _⟩ | ⟨_, values⟩
      · exact absurd zombie (RunState.not_zombie started)
      · exact values
    cases collects with
    | waited p _ waits _ found _ => exact absurd (taken.2.2.2 p q waits found) least
    | joined m tid _ joins _ pid same collected =>
      rw [← same, remains.tid] at joins collected
      exact .inr ⟨m, joins, pid.symm.trans remains.pid, passed, collected⟩
    | ended p _ which _ other master =>
      have gone := (taken.2.1.1 p (which.imp And.left id)).2 q other master
      rw [gone] at zombie
      contradiction
  | threadExit retval running _ zombie value pid tid _ _ =>
    have before : exitValues q events = [] := by
      rcases remains.value with ⟨_, values⟩ | ⟨stopped, _⟩
      · exact values
      · rw [running] at stopped
        contradiction
    have passed : exitValue q (.threadExit q retval) = some retval := if_pos rfl
    refine .inl ⟨remains.run.snoc ⟨taken, ?_⟩, pid.trans remains.pid, tid.trans remains.tid, .inr ⟨zombie, ?_⟩⟩
    · rw [zombie]
      exact RunState.noConfusion
    · rw [exitValues_snoc, before, passed, value]
      rfl
  | ends _ which _ _ _ _ _ _ => exact absurd (taken.2.1.1 q (which.imp And.left id)).1 least
  | founded _ free _ _ _ _ _ _ => exact absurd free vacant
  | released _ free _ _ _ _ => exact absurd free vacant
  | abandoned p _ call _ _ _ _ _ => exact absurd call (born p)
  | started p _ _ call _ _ _ _ _ _ _ => exact absurd call (born p)
  | published _ _ _ _ free _ _ _ _ _ => exact absurd free vacant
  | detached _ _ _ _ _ _ _ _ _ => exact absurd (taken.2.1.2 q rfl) least

/-- An LWP that `thread_create` has started stays until a `thread_join` collects it. -/
theorem Published.life {v : System} {tid : Nat} {events : List Event} (published : Published s p q tid v)
    (lineage : Lineage v) (thread : 2 ≤ tid) (run : Run joinStep v events t) :
    Remains q v events t ∨ Collected q v events t := by
  rw [← published.tid] at thread
  have started : (v.proc q).state.started = true := by
    rw [published.runnable]
    rfl
  refine (run.history (fun events t => Lineage t ∧ (Remains q v events t ∨ Collected q v events t))
    ⟨lineage, .inl ⟨.nil v, rfl, rfl, .inl ⟨started, rfl⟩⟩⟩ ?_).2
  rintro before t event u _ ⟨lineage, remains | collected⟩ taken
  · refine ⟨lineage.step taken.1, ?_⟩
    rcases remains.step lineage thread taken with still | ⟨m, joins, pid, values, passed⟩
    · exact .inl still
    · exact .inr ⟨before, event, [], t, u, m, _, rfl, remains, taken, joins, pid, values, passed, .nil u⟩
  · refine ⟨lineage.step taken.1, .inr ?_⟩
    obtain ⟨first, collects, rest, w, x, m, value, rfl, remains, step, joins, pid, values, passed, after⟩ := collected
    refine ⟨first, collects, rest ++ [event], w, x, m, value, ?_, remains, step, joins, pid, values, passed, after.snoc taken⟩
    rw [List.append_assoc, List.cons_append]

/-- What `thread_create` starts. -/
theorem publishes (taken : s.step (.threadCreate p .mapped) = some t) :
    ∃ q tid, s.call p = .threadCreate tid ∧ Published s p q tid t := by
  simp only [System.step] at taken
  split at taken
  · rename_i tid call
    obtain ⟨running, _, created⟩ := System.inside_some taken
    obtain ⟨np, v, w, master, base, free, returned, points, based, result⟩ := threadCreate_some created
    have steady : Steady (s.takeSlot np) w :=
      ((Steady.initSlot _ np).trans (.returnNode returned)).trans (.takeBase based)
    have apart : p ≠ np := by
      rintro rfl
      rw [freeSlot_unused free] at running
      contradiction
    have self := System.setProc_self w np { w.proc np with
      tid, pid := (w.proc p).pid, base, pgdir := (w.proc master).pgdir, sz := base + 2 * PGSIZE,
      parent := some p, master := some master, schedstate := (w.proc master).schedstate,
      pstride := (w.proc master).pstride, pmlfqNode := (w.proc master).pmlfqNode, state := .runnable }
    have pid := (steady p).pid
    rw [takeSlot_other s apart] at pid
    rw [result]
    exact ⟨np, tid, call, freeSlot_unused free, congrArg Proc.state self, (congrArg Proc.pid self).trans pid,
      congrArg Proc.tid self⟩
  · contradiction

/-- A pass of the loop of `thread_join` that collects. -/
theorem joinPass_collected {value : Nat} (passed : s.joinPass m thread = some (.collected q value, t)) :
    (s.proc q).state = .zombie ∧ (s.proc q).pid = (s.proc m).pid ∧ (s.proc q).tid = thread ∧
      (s.proc q).retVal = value ∧ (t.proc q).state = .unused := by
  cases joinPass_ends passed with
  | collected _ pid tid zombie deleted => exact ⟨zombie, pid, tid, rfl, (System.deleteThread_self deleted).1⟩

/-- A pass of the loop of `thread_join` that returns -1. -/
theorem joinPass_failed (passed : s.joinPass m thread = some (.failed, t)) :
    (s.proc m).killed = true ∨ ∀ q, ¬((s.proc q).pid = (s.proc m).pid ∧ (s.proc q).tid = thread) := by
  cases joinPass_ends passed with
  | failed _ killed =>
    by_cases alive : (s.proc m).killed = true
    · exact .inl alive
    · exact .inr fun q mine => alive (killed q mine.1 mine.2)

end Steps

/-- In runs of LWPs that end by `thread_exit` in which every LWP is started with a new `tid` and
`wait` collects processes only: LWPs of a group have different tids; an LWP that `thread_create`
has started is in its slot until one `thread_join` of its group collects it, with the value that
it passed to `thread_exit`; and a `thread_join` collects the one zombie with that `tid`, or returns
-1 when there is no such LWP or its caller was killed. -/
theorem thread_join_collects {d : Nat} {events : List Event} {s : System}
    (run : Run joinStep (System.userinit d) events s) :
    Distinct s ∧
    (∀ before p after, events = before ++ .threadCreate p .mapped :: after →
      ∃ u v q tid, Run joinStep (System.userinit d) before u ∧ joinStep u (.threadCreate p .mapped) v ∧
        u.call p = .threadCreate tid ∧ Published u p q tid v ∧ Run joinStep v after s ∧
        (Remains q v after s ∨ Collected q v after s)) ∧
    ∀ m thread t, (∀ q value, s.joinPass m thread = some (.collected q value, t) →
        (s.proc q).state = .zombie ∧ (s.proc q).pid = (s.proc m).pid ∧ (s.proc q).tid = thread ∧
          (s.proc q).retVal = value ∧ (t.proc q).state = .unused ∧
          ∀ r, (s.proc r).state ≠ .unused → (s.proc r).pid = (s.proc m).pid → (s.proc r).tid = thread → r = q) ∧
      (s.joinPass m thread = some (.failed, t) →
        (s.proc m).killed = true ∨ ∀ q, ¬((s.proc q).pid = (s.proc m).pid ∧ (s.proc q).tid = thread)) := by
  have known : ∀ {events : List Event} {s : System}, Run joinStep (System.userinit d) events s →
      Lineage s ∧ Distinct s := by
    intro events s run
    refine run.invariant (fun s => Lineage s ∧ Distinct s)
      (fun s event t ⟨lineage, distinct⟩ taken => ⟨lineage.step taken.1, distinct.step lineage taken⟩)
      ⟨.userinit d, fun q r first second _ _ => ?_⟩
    have only := userinit_only d
    exact (only q first).trans (only r second).symm
  have distinct := (known run).2
  refine ⟨distinct, ?_, fun m thread t => ⟨fun q value passed => ?_, joinPass_failed⟩⟩
  · rintro before p after rfl
    obtain ⟨u, first, second⟩ := run.split
    cases second with
    | cons taken rest =>
      rename_i v
      have lineage := (known first).1
      obtain ⟨q, tid, call, published⟩ := publishes taken.1
      exact ⟨u, v, q, tid, first, taken, call, published, rest,
        published.life (lineage.step taken.1) (lineage.creating p tid call) rest⟩
  · obtain ⟨zombie, pid, tid, value, cleared⟩ := joinPass_collected passed
    refine ⟨zombie, pid, tid, value, cleared, fun r taken pid' tid' => ?_⟩
    refine distinct r q taken ?_ (pid'.trans pid.symm) (tid'.trans tid.symm)
    rw [zombie]
    exact RunState.noConfusion

/-- The event starts no LWP, ends no process, collects for no `wait` and replaces no image. -/
def Event.routine : Event → Bool
  | .threadCreate _ _ => false
  | .exit _ => false
  | .resume _ => false
  | .wait _ => false
  | .exec _ => false
  | _ => true

/-- Such an event meets every condition on steps. -/
theorem joinStep_of_routine {s t : System} {event : Event} (routine : event.routine = true)
    (taken : s.step event = some t) : joinStep s event t := by
  refine ⟨taken, ⟨?_, ?_⟩, ?_, ?_⟩
  · rintro p (rfl | ⟨rfl, _⟩) <;> contradiction
  · rintro p rfl
    contradiction
  · rintro p tid rfl
    contradiction
  · rintro p q (rfl | ⟨rfl, _⟩) <;> contradiction

/-- The first process starts an LWP with tid 2, which passes 7 to `thread_exit`, and collects it. -/
theorem thread_join_collects_first :
    ∃ t, Run joinStep (System.userinit 0) ([.run 0, .threadChoose 0] ++
        .threadCreate 0 .mapped :: [.run 1, .threadExit 1 7, .threadJoin 0 2]) t ∧ Distinct t ∧
      ∃ v q, Remains q v [.run 1, .threadExit 1 7, .threadJoin 0 2] t ∨
        Collected q v [.run 1, .threadExit 1 7, .threadJoin 0 2] t := by
  have run : ∃ t, Run joinStep (System.userinit 0) ([.run 0, .threadChoose 0] ++
      .threadCreate 0 .mapped :: [.run 1, .threadExit 1 7, .threadJoin 0 2]) t := by
    refine ⟨_, .cons (joinStep_of_routine rfl rfl) (.cons (joinStep_of_routine rfl rfl) (.cons ⟨rfl, ⟨?_, nofun⟩, ?_, ?_⟩
      (.cons (joinStep_of_routine rfl rfl) (.cons (joinStep_of_routine rfl rfl)
        (.cons (joinStep_of_routine rfl rfl) (.nil _))))))⟩
    · rintro p (exit | ⟨resume, _⟩) <;> contradiction
    · rintro p tid same call
      cases same
      have chosen : tid = 2 := (Call.threadCreate.inj call).symm
      rw [chosen]
      decide +kernel
    · rintro p q (wait | ⟨resume, _⟩) <;> contradiction
  obtain ⟨t, run⟩ := run
  obtain ⟨distinct, lives, _⟩ := thread_join_collects run
  obtain ⟨_, v, q, _, _, _, _, _, _, life⟩ := lives _ 0 _ rfl
  exact ⟨t, run, distinct, v, q, life⟩

/-- Two LWPs of the first process choose `next_tid` before either starts its LWP: both LWPs get
tid 3. -/
theorem thread_creates_share_tid :
    ∃ t, Run (fun s event t => s.step event = some t) (System.userinit 0)
        [.run 0, .threadChoose 0, .threadCreate 0 .mapped, .run 1, .threadChoose 0, .threadChoose 1,
          .threadCreate 0 .mapped, .threadCreate 1 .mapped] t ∧ ¬Distinct t := by
  have outcome : ((Run.exec System.step [.run 0, .threadChoose 0, .threadCreate 0 .mapped, .run 1, .threadChoose 0,
      .threadChoose 1, .threadCreate 0 .mapped, .threadCreate 1 .mapped] (System.userinit 0)).map fun t =>
        ((t.proc 2).state, (t.proc 3).state, (t.proc 2).pid, (t.proc 3).pid, (t.proc 2).tid, (t.proc 3).tid)) =
      some (.runnable, .runnable, 1, 1, 3, 3) := by
    decide +kernel
  obtain ⟨t, executed, summary⟩ := Option.map_eq_some_iff.mp outcome
  simp only [Prod.mk.injEq] at summary
  obtain ⟨first, second, pid, pid', tid, tid'⟩ := summary
  refine ⟨t, Run.of_exec executed, fun distinct => ?_⟩
  have same := distinct 2 3 (by rw [first]; exact RunState.noConfusion) (by rw [second]; exact RunState.noConfusion)
    (pid.trans pid'.symm) (tid.trans tid'.symm)
  exact absurd same (by decide)

end Xv6
