import Xv6.Process

/-!
# What steps leave alone

Three frames of the process table: who belongs to which group, which class of the scheduler each
process is in, and which page directories are used. Most steps only change who runs, who sleeps
and what a process knows of its relatives; they are calm. The steps that are not are taken
apart here into the functions that matter to each frame.
-/

namespace Xv6

/-- The call keeps nothing of the groups between its steps. -/
def Call.plain : Call → Bool
  | .none => true
  | .exit => true
  | .wait => true
  | .threadJoin _ => true
  | _ => false

/-- The slot belongs to the same group and is as alive as before. -/
structure Proc.SameGroup (q r : Proc) : Prop where
  pid : r.pid = q.pid
  tid : r.tid = q.tid
  master : r.master = q.master
  /-- `state`, up to running, sleeping and waiting to run. -/
  state : r.state = q.state ∨ q.state.started = true ∧ r.state.started = true

/-- The slot is in the same class. -/
structure Proc.SameClass (q r : Proc) : Prop where
  schedstate : r.schedstate = q.schedstate
  pstride : r.pstride = q.pstride
  pmlfqNode : r.pmlfqNode = q.pmlfqNode

/-- The slot differs in nothing that groups, classes and directories depend on. -/
structure Proc.Alike (q r : Proc) : Prop extends Proc.SameGroup q r, Proc.SameClass q r where
  pgdir : r.pgdir = q.pgdir

/-- The groups are the same. -/
structure SameGroups (s t : System) : Prop where
  /-- Every slot is in its group. -/
  proc : ∀ p, (s.proc p).SameGroup (t.proc p)
  nextpid : t.nextpid = s.nextpid
  initproc : t.initproc = s.initproc
  /-- Whoever entered a call entered a plain one. -/
  call : ∀ p, t.call p = s.call p ∨ (t.call p).plain = true

/-- The scheduler's classes are the same. -/
structure SameClasses (s t : System) : Prop where
  /-- Every slot is in its class. -/
  proc : ∀ p, (s.proc p).SameClass (t.proc p)
  sTable : t.sTable = s.sTable
  /-- The nodes of `m_table`. -/
  node : ∀ n, t.node n = s.node n
  /-- The counters of `m_table`. -/
  count : ∀ prior, (t.mTable prior).count = (s.mTable prior).count

/-- The use of page directories is the same. -/
structure SameDirs (s t : System) : Prop where
  pgdir : ∀ p, (t.proc p).pgdir = (s.proc p).pgdir
  /-- The allocated directories. -/
  dirs : t.dirs = s.dirs
  freed : t.freed = s.freed

/-- Groups, classes and directories are the same. -/
structure Calm (s t : System) : Prop where
  groups : SameGroups s t
  classes : SameClasses s t
  dirs : SameDirs s t

/-! ## Algebra of the frames -/

section Algebra

variable {q r u : Proc} {s t v : System} {p : Lwp}

/-- A started process is live. -/
theorem RunState.live_of_started {state : RunState} (started : state.started = true) :
    state.live = true := by
  cases state <;> first | rfl | contradiction

/-- A live process is started or an embryo. -/
theorem RunState.live_cases {state : RunState} (live : state.live = true) :
    state.started = true ∨ state = .embryo := by
  cases state <;> first | exact .inl rfl | exact .inr rfl | contradiction

/-- A zombie is not started. -/
theorem RunState.not_zombie {state : RunState} (started : state.started = true) : state ≠ .zombie := by
  rintro rfl
  contradiction

/-- Nothing changed. -/
theorem Proc.SameGroup.refl (q : Proc) : q.SameGroup q := ⟨rfl, rfl, rfl, .inl rfl⟩

/-- Two changes. -/
theorem Proc.SameGroup.trans (first : q.SameGroup r) (second : r.SameGroup u) : q.SameGroup u where
  pid := second.pid.trans first.pid
  tid := second.tid.trans first.tid
  master := second.master.trans first.master
  state := by
    rcases second.state with same | ⟨before, after⟩
    · rw [same]
      exact first.state
    · rcases first.state with same | ⟨began, _⟩
      · rw [same] at before
        exact .inr ⟨before, after⟩
      · exact .inr ⟨began, after⟩

/-- The slot is as started as before. -/
theorem Proc.SameGroup.started (same : q.SameGroup r) : r.state.started = q.state.started := by
  rcases same.state with state | ⟨before, after⟩
  · rw [state]
  · rw [before, after]

/-- The slot is as live as before. -/
theorem Proc.SameGroup.live (same : q.SameGroup r) : r.state.live = q.state.live := by
  rcases same.state with state | ⟨before, after⟩
  · rw [state]
  · rw [RunState.live_of_started before, RunState.live_of_started after]

/-- The slot is as much a zombie, an embryo or unused as before. -/
theorem Proc.SameGroup.state_iff (same : q.SameGroup r) {state : RunState}
    (still : state.started = false) : r.state = state ↔ q.state = state := by
  rcases same.state with unchanged | ⟨before, after⟩
  · rw [unchanged]
  · constructor
    · rintro rfl
      rw [after] at still
      contradiction
    · rintro rfl
      rw [before] at still
      contradiction

/-- Nothing changed. -/
theorem Proc.SameClass.refl (q : Proc) : q.SameClass q := ⟨rfl, rfl, rfl⟩

/-- Nothing changed. -/
theorem SameGroups.refl (s : System) : SameGroups s s := ⟨fun _ => .refl _, rfl, rfl, fun _ => .inl rfl⟩

/-- Nothing changed. -/
theorem SameClasses.refl (s : System) : SameClasses s s := ⟨fun _ => .refl _, rfl, fun _ => rfl, fun _ => rfl⟩

/-- Nothing changed. -/
theorem SameDirs.refl (s : System) : SameDirs s s := ⟨fun _ => rfl, rfl, rfl⟩

/-- Nothing changed. -/
theorem Calm.refl (s : System) : Calm s s := ⟨.refl s, .refl s, .refl s⟩

/-- Two changes. -/
theorem SameGroups.trans (first : SameGroups s t) (second : SameGroups t v) : SameGroups s v where
  proc p := (first.proc p).trans (second.proc p)
  nextpid := second.nextpid.trans first.nextpid
  initproc := second.initproc.trans first.initproc
  call p := by
    rcases second.call p with same | plain
    · rw [same]
      exact first.call p
    · exact .inr plain

/-- Two changes. -/
theorem SameClasses.trans (first : SameClasses s t) (second : SameClasses t v) : SameClasses s v where
  proc p := ⟨(second.proc p).schedstate.trans (first.proc p).schedstate,
    (second.proc p).pstride.trans (first.proc p).pstride,
    (second.proc p).pmlfqNode.trans (first.proc p).pmlfqNode⟩
  sTable := second.sTable.trans first.sTable
  node n := (second.node n).trans (first.node n)
  count prior := (second.count prior).trans (first.count prior)

/-- Two changes. -/
theorem SameDirs.trans (first : SameDirs s t) (second : SameDirs t v) : SameDirs s v where
  pgdir p := (second.pgdir p).trans (first.pgdir p)
  dirs := second.dirs.trans first.dirs
  freed := second.freed.trans first.freed

/-- Two changes. -/
theorem Calm.trans (first : Calm s t) (second : Calm t v) : Calm s v :=
  ⟨first.groups.trans second.groups, first.classes.trans second.classes, first.dirs.trans second.dirs⟩

end Algebra

/-! ## One slot and every slot -/

section Slots

variable {s : System} {p : Lwp} {q : Proc}

/-- The slot that was replaced. -/
@[simp] theorem System.setProc_self (s : System) (p : Lwp) (q : Proc) : (s.setProc p q).proc p = q :=
  Function.update_self _ _ _

/-- The other slots. -/
theorem System.setProc_other (s : System) {p r : Lwp} (q : Proc) (other : r ≠ p) :
    (s.setProc p q).proc r = s.proc r := Function.update_of_ne other _ _

/-- The call that was entered. -/
@[simp] theorem System.setCall_self (s : System) (p : Lwp) (call : Call) : (s.setCall p call).call p = call :=
  Function.update_self _ _ _

/-- The calls of the others. -/
theorem System.setCall_other (s : System) {p r : Lwp} (call : Call) (other : r ≠ p) :
    (s.setCall p call).call r = s.call r := Function.update_of_ne other _ _

/-- Replacing one slot by one of the same group. -/
theorem SameGroups.setProc (same : (s.proc p).SameGroup q) : SameGroups s (s.setProc p q) where
  proc r := by
    by_cases here : r = p
    · rw [here, System.setProc_self]
      exact same
    · rw [System.setProc_other _ _ here]
      exact .refl _
  nextpid := rfl
  initproc := rfl
  call _ := .inl rfl

/-- Replacing one slot by one of the same class. -/
theorem SameClasses.setProc (same : (s.proc p).SameClass q) : SameClasses s (s.setProc p q) where
  proc r := by
    by_cases here : r = p
    · rw [here, System.setProc_self]
      exact same
    · rw [System.setProc_other _ _ here]
      exact .refl _
  sTable := rfl
  node _ := rfl
  count _ := rfl

/-- Replacing one slot by one on the same directory. -/
theorem SameDirs.setProc (same : q.pgdir = (s.proc p).pgdir) : SameDirs s (s.setProc p q) where
  pgdir r := by
    by_cases here : r = p
    · rw [here, System.setProc_self]
      exact same
    · rw [System.setProc_other _ _ here]
  dirs := rfl
  freed := rfl

/-- Replacing one slot by one that differs in nothing of concern. -/
theorem Calm.setProc (alike : (s.proc p).Alike q) : Calm s (s.setProc p q) :=
  ⟨.setProc alike.toSameGroup, .setProc alike.toSameClass, .setProc alike.pgdir⟩

/-- Changing every slot in nothing of concern. -/
theorem Calm.mapProc {change : Proc → Proc} (alike : ∀ q : Proc, q.Alike (change q)) :
    Calm s (s.mapProc change) :=
  ⟨⟨fun p => (alike (s.proc p)).toSameGroup, rfl, rfl, fun _ => .inl rfl⟩,
    ⟨fun p => (alike (s.proc p)).toSameClass, rfl, fun _ => rfl, fun _ => rfl⟩,
    ⟨fun p => (alike (s.proc p)).pgdir, rfl, rfl⟩⟩

/-- Entering a plain call. -/
theorem SameGroups.setCall {call : Call} (plain : call.plain = true) : SameGroups s (s.setCall p call) where
  proc _ := .refl _
  nextpid := rfl
  initproc := rfl
  call r := by
    by_cases here : r = p
    · rw [here, System.setCall_self]
      exact .inr plain
    · rw [System.setCall_other _ _ here]
      exact .inl rfl

/-- Leaving a call. -/
theorem SameGroups.leave (s : System) (p : Lwp) : SameGroups s (s.setCall p .none) := .setCall rfl

/-- Entering a plain call. -/
theorem Calm.setCall {call : Call} (plain : call.plain = true) : Calm s (s.setCall p call) :=
  ⟨.setCall plain, ⟨fun _ => .refl _, rfl, fun _ => rfl, fun _ => rfl⟩, ⟨fun _ => rfl, rfl, rfl⟩⟩

end Slots

/-! ## Calm functions -/

section CalmFunctions

variable {s t : System} {p : Lwp}

/-- A change of what no frame depends on, with a state that is as alive. -/
theorem Proc.Alike.of_state {q r : Proc}
    (state : r.state = q.state ∨ q.state.started = true ∧ r.state.started = true)
    (same : r.pid = q.pid ∧ r.tid = q.tid ∧ r.master = q.master ∧ r.schedstate = q.schedstate ∧
      r.pstride = q.pstride ∧ r.pmlfqNode = q.pmlfqNode ∧ r.pgdir = q.pgdir) : q.Alike r := by
  obtain ⟨pid, tid, master, schedstate, pstride, pmlfqNode, pgdir⟩ := same
  exact ⟨⟨pid, tid, master, state⟩, ⟨schedstate, pstride, pmlfqNode⟩, pgdir⟩

/-- `wakeup1`. -/
theorem Calm.wakeup1 (s : System) (chan : Option Chan) : Calm s (s.wakeup1 chan) := by
  refine .mapProc fun q => ?_
  by_cases asleep : q.state = .sleeping ∧ q.chan = chan
  · rw [if_pos asleep]
    refine .of_state (.inr ⟨?_, rfl⟩) ⟨rfl, rfl, rfl, rfl, rfl, rfl, rfl⟩
    rw [asleep.1]
    rfl
  · rw [if_neg asleep]
    exact .of_state (.inl rfl) ⟨rfl, rfl, rfl, rfl, rfl, rfl, rfl⟩

/-- Setting `killed`. -/
theorem Calm.setKilled (s : System) (p : Lwp) : Calm s (s.setProc p { s.proc p with killed := true }) :=
  .setProc (.of_state (.inl rfl) ⟨rfl, rfl, rfl, rfl, rfl, rfl, rfl⟩)

/-- `sleep` of a started process. -/
theorem Calm.sleep (started : (s.proc p).state.started = true) (chan : Chan) : Calm s (s.sleep p chan) :=
  .setProc (.of_state (.inr ⟨started, rfl⟩) ⟨rfl, rfl, rfl, rfl, rfl, rfl, rfl⟩)

/-- A started process gets a processor. -/
theorem Calm.start (started : (s.proc p).state.started = true) : Calm s (s.start p) :=
  .setProc (.of_state (.inr ⟨started, rfl⟩) ⟨rfl, rfl, rfl, rfl, rfl, rfl, rfl⟩)

/-- Passing children to init. -/
theorem Calm.passToInit (s : System) (child : Proc → Bool) : Calm s (s.passToInit child) := by
  have passed : Calm s (s.mapProc fun q => if child q then { q with parent := some s.initproc } else q) := by
    refine .mapProc fun q => ?_
    cases child q with
    | true => exact .of_state (.inl rfl) ⟨rfl, rfl, rfl, rfl, rfl, rfl, rfl⟩
    | false => exact .of_state (.inl rfl) ⟨rfl, rfl, rfl, rfl, rfl, rfl, rfl⟩
  unfold System.passToInit
  simp only
  split
  · exact passed.trans (.wakeup1 _ _)
  · exact passed

/-- `kill`. -/
theorem Calm.kill (s : System) (pid : Nat) : Calm s (s.kill pid) := by
  unfold System.kill
  split
  · exact .refl s
  · rename_i q _
    refine .setProc (.of_state ?_ ⟨rfl, rfl, rfl, rfl, rfl, rfl, rfl⟩)
    by_cases asleep : (s.proc q).state = .sleeping
    · simp only [asleep, if_true]
      exact .inr ⟨rfl, rfl⟩
    · simp only [asleep, if_false]
      exact .inl trivial

/-- `pick_lwp` picks a runnable LWP and remembers its pick only. -/
theorem System.pickLwp_some {pid : Nat} {picked : Option Lwp} (result : s.pickLwp pid = some (picked, t)) :
    Calm s t ∧ ∀ p, picked = some p → (s.proc p).state = .runnable := by
  unfold System.pickLwp at result
  cases master : s.findMaster pid with
  | none =>
    rw [master] at result
    contradiction
  | some m =>
    simp only [master] at result
    split at result
    · rename_i p found
      cases result
      have wanted := List.find?_some found
      rw [Bool.and_eq_true, decide_eq_true_eq] at wanted
      refine ⟨.setProc (.of_state (.inl rfl) ⟨rfl, rfl, rfl, rfl, rfl, rfl, rfl⟩), ?_⟩
      intro q same
      cases same
      exact wanted.1
    · split at result
      · rename_i runnable
        cases result
        refine ⟨.refl s, ?_⟩
        intro q same
        cases same
        exact runnable
      · cases result
        exact ⟨.refl s, nofun⟩

/-- Remembering the index of the node that was picked last. -/
theorem Calm.remember (s : System) (prior : Fin 3) (i : Entry) :
    Calm s { s with mTable := Function.update s.mTable prior { s.mTable prior with recentIndex := i } } := by
  refine ⟨⟨fun _ => .refl _, rfl, rfl, fun _ => .inl rfl⟩, ⟨fun _ => .refl _, rfl, ?_, ?_⟩,
    ⟨fun _ => rfl, rfl, rfl⟩⟩
  · rintro ⟨queue, j⟩
    unfold System.node
    by_cases here : queue = prior
    · simp only [here, Function.update_self]
    · simp only [Function.update_of_ne here]
  · intro queue
    by_cases here : queue = prior
    · simp only [here, Function.update_self]
    · simp only [Function.update_of_ne here]

/-- `pick_mlfq` picks a runnable LWP and remembers its picks only. -/
theorem System.pickQueues_some {queues : List (Fin 3)} {picked : Option Lwp}
    (result : s.pickQueues queues = some (picked, t)) :
    Calm s t ∧ ∀ p, picked = some p → (s.proc p).state = .runnable := by
  induction queues with
  | nil =>
    cases result
    exact ⟨.refl s, nofun⟩
  | cons prior rest ih =>
    unfold System.pickQueues at result
    split at result
    · exact ih result
    · split at result
      · obtain ⟨calm, runnable⟩ := System.pickLwp_some result
        exact ⟨(Calm.remember _ _ _).trans calm, runnable⟩
      · exact ih result

/-- `pick_stride` picks a runnable LWP and remembers its picks only. -/
theorem System.pickStride_some {picked : Option Lwp} (result : s.pickStride = some (picked, t)) :
    Calm s t ∧ ∀ p, picked = some p → (t.proc p).state.started = true := by
  have started : ∀ {u : System} {p : Lwp}, Calm u t → (u.proc p).state = .runnable →
      (t.proc p).state.started = true := by
    intro u p calm runnable
    rw [(calm.groups.proc p).started, runnable]
    rfl
  unfold System.pickStride at result
  simp only at result
  split at result
  · split at result
    · contradiction
    · rename_i found
      cases result
      obtain ⟨calm, runnable⟩ := System.pickQueues_some found
      exact ⟨calm, fun p same => started calm (runnable p same)⟩
    · rename_i missed
      obtain ⟨first, _⟩ := System.pickQueues_some missed
      obtain ⟨second, runnable⟩ := System.pickLwp_some result
      exact ⟨first.trans second, fun p same => started second (runnable p same)⟩
  · obtain ⟨calm, runnable⟩ := System.pickLwp_some result
    exact ⟨calm, fun p same => started calm (runnable p same)⟩

end CalmFunctions

end Xv6
