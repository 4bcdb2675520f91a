import Xv6.Verif.Frames

/-!
# What a step does

Every step of the process table is calm or is one of a few functions between calm changes:
a slot is allocated, published, deleted or becomes a zombie, an LWP leaves its group or its
directory, or the scheduler's tables change. The steps that delete slots or end an LWP are
taken apart into single deletions.
-/

namespace Xv6

namespace System

variable {s t u : System} {p q : Lwp}

/-- A step of a running LWP inside a given call. -/
theorem inside_some {call : Call} {next : Option System} (taken : s.inside p call next = some t) :
    (s.proc p).state = .running ∧ s.call p = call ∧ next = some t := by
  unfold inside at taken
  split at taken
  · rename_i here
    exact ⟨here.1, here.2, taken⟩
  · contradiction

/-- A running process is started. -/
theorem started_of_running (running : (s.proc p).state = .running) : (s.proc p).state.started = true := by
  rw [running]
  rfl

/-! ## Deleting a slot -/

/-- Giving up a node or an entry leaves the slots alone. -/
theorem dropClass_some (dropped : s.dropClass p = some t) :
    t.proc = s.proc ∧ t.nextpid = s.nextpid ∧ t.initproc = s.initproc ∧ t.call = s.call ∧
      t.dirs = s.dirs ∧ t.freed = s.freed := by
  unfold dropClass at dropped
  split at dropped
  · split at dropped
    · contradiction
    · cases dropped
      exact ⟨rfl, rfl, rfl, rfl, rfl, rfl⟩
  · split at dropped
    · contradiction
    · simp only at dropped
      split at dropped
      · contradiction
      · cases dropped
        exact ⟨rfl, rfl, rfl, rfl, rfl, rfl⟩
  · cases dropped
    exact ⟨rfl, rfl, rfl, rfl, rfl, rfl⟩

/-- What `delete_thread` does to a master before it clears the slot. -/
theorem dropMaster_some (dropped : s.dropMaster p = some t) :
    ∃ v pgdir, s.dropClass p = some v ∧ (s.proc p).pgdir = some pgdir ∧
      t = (v.setProc p { s.proc p with
        stack := [], schedstate := .mlfq, pstride := none, pmlfqNode := none }).freevm p pgdir := by
  unfold dropMaster at dropped
  split at dropped
  · contradiction
  · rename_i v given
    have slots := (dropClass_some given).1
    simp only [setProc_self] at dropped
    rw [slots] at dropped
    split at dropped
    · contradiction
    · rename_i pgdir directory
      cases dropped
      exact ⟨v, pgdir, given, directory, rfl⟩

/-- What `delete_thread` does. -/
theorem deleteThread_some (deleted : s.deleteThread p = some t) :
    ∃ master u, s.findMaster (s.proc p).pid = some master ∧ t = u.clearSlot p master ∧
      ((s.proc p).tid = 1 ∧ s.dropMaster p = some u ∨ (s.proc p).tid ≠ 1 ∧ u = s) := by
  unfold deleteThread at deleted
  split at deleted
  · rename_i master u found dropped
    cases deleted
    refine ⟨master, u, found, rfl, ?_⟩
    by_cases whole : (s.proc p).tid = 1
    · rw [if_pos whole] at dropped
      exact .inl ⟨whole, dropped⟩
    · rw [if_neg whole] at dropped
      cases dropped
      exact .inr ⟨whole, rfl⟩
  · contradiction

/-- The other slots after a slot is cleared. -/
theorem clearSlot_other (s : System) (master : Lwp) (other : q ≠ p) :
    ∃ stack, (s.clearSlot p master).proc q = { s.proc q with stack } := by
  unfold clearSlot
  simp only
  rw [setProc_other _ _ other]
  by_cases here : q = master
  · rw [← here, setProc_self, setProc_other _ _ other]
    exact ⟨_, rfl⟩
  · rw [setProc_other _ _ here, setProc_other _ _ other]
    exact ⟨_, rfl⟩

/-- The slot that is cleared. -/
theorem clearSlot_self (s : System) (p master : Lwp) :
    ∃ stack, (s.clearSlot p master).proc p = { s.proc p with
      kstack := false, master := none, pid := 0, tid := 0, parent := none, killed := false,
      state := .unused, stack, sz := 0, base := 0 } := by
  unfold clearSlot
  simp only
  rw [setProc_self]
  by_cases here : p = master
  · rw [← here, setProc_self, setProc_self]
    exact ⟨_, rfl⟩
  · rw [setProc_other _ _ here, setProc_self]
    exact ⟨_, rfl⟩

/-- Deleting a slot leaves the others alone, but for the free stacks of the master. -/
theorem deleteThread_other (deleted : s.deleteThread p = some t) (other : q ≠ p) :
    ∃ stack, t.proc q = { s.proc q with stack } := by
  obtain ⟨master, u, _, rfl, whole⟩ := deleteThread_some deleted
  obtain ⟨stack, cleared⟩ := u.clearSlot_other master other
  have slot : u.proc q = s.proc q := by
    rcases whole with ⟨_, dropped⟩ | ⟨_, rfl⟩
    · obtain ⟨v, pgdir, given, _, rfl⟩ := dropMaster_some dropped
      rw [← (dropClass_some given).1]
      exact setProc_other _ _ other
    · rfl
  rw [slot] at cleared
  exact ⟨stack, cleared⟩

/-- The slot that was deleted. -/
theorem deleteThread_self (deleted : s.deleteThread p = some t) :
    (t.proc p).state = .unused ∧ (t.proc p).pid = 0 ∧ (t.proc p).tid = 0 ∧ (t.proc p).master = none ∧
      (t.proc p).parent = none := by
  obtain ⟨master, u, _, rfl, _⟩ := deleteThread_some deleted
  obtain ⟨stack, cleared⟩ := u.clearSlot_self p master
  rw [cleared]
  exact ⟨rfl, rfl, rfl, rfl, rfl⟩

/-- Deleting a slot changes no counter of pids and no call. -/
theorem deleteThread_rest (deleted : s.deleteThread p = some t) :
    t.nextpid = s.nextpid ∧ t.initproc = s.initproc ∧ t.call = s.call := by
  obtain ⟨master, u, _, rfl, whole⟩ := deleteThread_some deleted
  rcases whole with ⟨_, dropped⟩ | ⟨_, rfl⟩
  · obtain ⟨v, pgdir, given, _, rfl⟩ := dropMaster_some dropped
    obtain ⟨_, nextpid, initproc, call, _, _⟩ := dropClass_some given
    exact ⟨nextpid, initproc, call⟩
  · exact ⟨rfl, rfl, rfl⟩

end System

/-! ## Reaping -/

/-- Zombies are deleted, one after another, between calm changes. -/
inductive Reaps : System → System → Prop where
  /-- No deletion. -/
  | calm {s t : System} : Calm s t → Reaps s t
  /-- One deletion before the rest. -/
  | reap {s t u v : System} (q : Lwp) : Calm s u → (u.proc q).state = .zombie →
      u.deleteThread q = some v → Reaps v t → Reaps s t

/-- What ending an LWP, waiting and joining do. -/
inductive Ending (s : System) (p : Lwp) (t : System) : Prop where
  /-- They reap. -/
  | reaps : Reaps s t → Ending s p t
  /-- They reap, then the LWP becomes a zombie. A master does so when no LWP of its group is left. -/
  | ends (u : System) : Reaps s u →
      ((u.proc p).tid = 1 → ∀ q, q ≠ p → (u.proc q).master = (u.proc p).master →
        (u.proc q).state = .unused) →
      Calm (u.zombie p) t → Ending s p t

section Reaping

variable {s t u : System} {p q : Lwp}

/-- A calm change after reaping. -/
theorem Reaps.trans_calm (reaps : Reaps s t) (calm : Calm t u) : Reaps s u := by
  induction reaps with
  | calm first => exact .calm (first.trans calm)
  | reap q before zombie deleted _ ih => exact .reap q before zombie deleted (ih calm)

/-- Reaping twice. -/
theorem Reaps.trans (first : Reaps s t) (second : Reaps t u) : Reaps s u := by
  induction first with
  | calm before =>
    cases second with
    | calm after => exact .calm (before.trans after)
    | reap q between zombie deleted rest => exact .reap q (before.trans between) zombie deleted rest
  | reap q before zombie deleted _ ih => exact .reap q before zombie deleted (ih second)

/-- A slot is in its group after reaping, or was a zombie and is unused. -/
theorem Reaps.proc (reaps : Reaps s t) (q : Lwp) :
    (s.proc q).SameGroup (t.proc q) ∨ (s.proc q).state = .zombie ∧ (t.proc q).state = .unused := by
  induction reaps with
  | calm calm => exact .inl (calm.groups.proc q)
  | @reap s t u v r before zombie deleted _ ih =>
    have same := before.groups.proc q
    by_cases here : q = r
    · have unused := (System.deleteThread_self deleted).1
      rw [← here] at zombie unused
      have began := (same.state_iff rfl).mp zombie
      rcases ih with after | ⟨still, _⟩
      · exact .inr ⟨began, (after.state_iff rfl).mpr unused⟩
      · rw [unused] at still
        contradiction
    · obtain ⟨stack, slot⟩ := System.deleteThread_other deleted here
      have kept : (u.proc q).SameGroup (v.proc q) := by
        rw [slot]
        exact ⟨rfl, rfl, rfl, .inl rfl⟩
      rcases ih with after | ⟨still, unused⟩
      · exact .inl ((same.trans kept).trans after)
      · exact .inr ⟨((same.trans kept).state_iff rfl).mp still, unused⟩

/-- A started slot is in its group after reaping. -/
theorem Reaps.started (reaps : Reaps s t) (started : (s.proc p).state.started = true) :
    (s.proc p).SameGroup (t.proc p) := by
  rcases reaps.proc p with same | ⟨zombie, _⟩
  · exact same
  · exact absurd zombie (RunState.not_zombie started)

/-- One slot of the loop of `exit`. -/
theorem endLwp_some {kids kids' : Nat} (taken : System.endLwp p (s, kids) q = some (t, kids')) :
    Reaps s t ∧ kids ≤ kids' ∧ (kids' = kids → q ≠ p → (t.proc q).master = (s.proc p).master →
      (t.proc q).state = .unused) := by
  simp only [System.endLwp] at taken
  split at taken
  · rename_i passed
    cases taken
    refine ⟨.calm (.refl s), Nat.le_refl _, fun _ other same => ?_⟩
    rcases passed with stranger | here
    · exact absurd same stranger
    · exact absurd here other
  · split at taken
    · rename_i zombie
      obtain ⟨v, deleted, result⟩ := Option.map_eq_some_iff.mp taken
      cases result
      exact ⟨.reap q (.refl s) zombie deleted (.calm (.refl _)), Nat.le_refl _,
        fun _ _ _ => (System.deleteThread_self deleted).1⟩
    · split at taken
      · rename_i unused
        cases taken
        exact ⟨.calm (.refl s), Nat.le_refl _, fun _ _ _ => unused⟩
      · cases taken
        refine ⟨.calm ?_, Nat.le_succ _, fun same => absurd same (Nat.succ_ne_self _)⟩
        exact (Calm.setKilled s q).trans (.wakeup1 _ _)

/-- The loop of `exit` reaps, and when it counts nobody the others of the group are gone. -/
theorem endLwps_some {slots : List Lwp} {kids kids' : Nat} (started : (s.proc p).state.started = true)
    (taken : slots.foldlM (System.endLwp p) (s, kids) = some (t, kids')) :
    Reaps s t ∧ kids ≤ kids' ∧ (kids' = kids → ∀ q ∈ slots, q ≠ p →
      (t.proc q).master = (t.proc p).master → (t.proc q).state = .unused) := by
  induction slots generalizing s kids with
  | nil =>
    cases taken
    exact ⟨.calm (.refl _), Nat.le_refl _, fun _ _ member => absurd member List.not_mem_nil⟩
  | cons r rest ih =>
    rw [List.foldlM_cons] at taken
    obtain ⟨⟨v, middle⟩, first, later⟩ := Option.bind_eq_some_iff.mp taken
    obtain ⟨reaped, fewer, gone⟩ := endLwp_some first
    have still := reaped.started started
    have running : (v.proc p).state.started = true := by
      rw [still.started]
      exact started
    obtain ⟨rests, more, others⟩ := ih running later
    refine ⟨reaped.trans rests, Nat.le_trans fewer more, ?_⟩
    intro same q member other group
    rcases List.mem_cons.mp member with here | there
    · subst here
      rcases rests.proc q with kept | ⟨_, unused⟩
      · refine (kept.state_iff rfl).mpr (gone (by omega) other ?_)
        rw [← kept.master, group, (rests.started running).master]
        exact still.master
      · exact unused
    · exact others (by omega) q there other group

/-- One pass of the loop of `exit`. -/
theorem exitPass_ending (started : (s.proc p).state.started = true) (taken : s.exitPass p = some t) :
    Ending s p t := by
  unfold System.exitPass at taken
  split at taken
  · contradiction
  · rename_i u kids loop
    obtain ⟨reaps, _, gone⟩ := endLwps_some started loop
    have running : (u.proc p).state.started = true := by
      rw [(reaps.started started).started]
      exact started
    split at taken
    · cases taken
      exact .reaps (reaps.trans_calm ((Calm.sleep running _).trans (.setCall rfl)))
    · rename_i none
      cases taken
      refine .ends u reaps (fun _ q other same => gone (by omega) q (List.mem_finRange q) other same) ?_
      exact (Calm.wakeup1 _ _).trans (.wakeup1 _ _)

/-- A slot that `exit` passes to init. -/
def System.orphan (s : System) (p master : Lwp) (q : Proc) : Bool :=
  decide (q.pid ≠ (s.proc p).pid) && decide (q.parent = some master)

/-- The master is killed and woken up. -/
def System.warn (s : System) (master : Lwp) : System :=
  (s.setProc master { s.proc master with killed := true }).wakeup1 (some (.proc master))

/-- How `exit` goes on, in a master and in another LWP. -/
inductive Exits (s : System) (p : Lwp) (t : System) : Prop where
  | master (master : Lwp) : p ≠ s.initproc → (s.proc p).master = some master → (s.proc p).tid = 1 →
      (s.passToInit (s.orphan p master)).exitPass p = some t → Exits s p t
  | thread (master : Lwp) : p ≠ s.initproc → (s.proc p).master = some master → (s.proc p).tid ≠ 1 →
      t = ((s.warn master).passToInit (s.orphan p master)).endExit p → Exits s p t

/-- `exit` goes on so. -/
theorem exit_goes (exited : s.exit p = some t) : Exits s p t := by
  unfold System.exit at exited
  split at exited
  · contradiction
  · rename_i other
    split at exited
    · contradiction
    · rename_i master points
      simp only at exited
      split at exited
      · rename_i whole
        exact .master master other points whole exited
      · rename_i thread
        cases exited
        exact .thread master other points thread rfl

/-- `exit`. -/
theorem exit_ending (started : (s.proc p).state.started = true) (taken : s.exit p = some t) :
    Ending s p t := by
  cases exit_goes taken with
  | master master _ _ _ exited =>
    have passed := Calm.passToInit s (s.orphan p master)
    have running := started
    rw [← (passed.groups.proc p).started] at running
    cases exitPass_ending running exited with
    | reaps reaps => exact .reaps (.trans (.calm passed) reaps)
    | ends u reaps gone calm => exact .ends u (.trans (.calm passed) reaps) gone calm
  | thread master _ _ thread result =>
    rw [result]
    have passed := ((Calm.setKilled s master).trans (.wakeup1 _ (some (.proc master)))).trans
      (.passToInit _ (s.orphan p master))
    refine .ends _ (.calm passed) ?_ ((Calm.wakeup1 _ _).trans (.wakeup1 _ _))
    intro whole
    rw [(passed.groups.proc p).tid] at whole
    exact absurd whole thread

/-- How a pass of the loop of `wait` ends. -/
inductive WaitEnds (s : System) (p : Lwp) : WaitResult → System → Prop where
  | reaped {u : System} (q : Lwp) : (s.proc q).parent = some p → (s.proc q).state = .zombie →
      firstSlot (fun q => decide ((s.proc q).parent = some p) && decide ((s.proc q).state = .zombie)) = some q →
      s.deleteThread q = some u → WaitEnds s p (.reaped q (s.proc q).pid) (u.setCall p .none)
  | failed : WaitEnds s p .failed (s.setCall p .none)
  | asleep : WaitEnds s p .asleep (((s.wakeup1 ((s.proc p).parent.map .proc)).sleep p (.proc p)).setCall p .wait)

/-- Every pass of the loop of `wait` ends so. -/
theorem waitPass_ends {result : WaitResult} (passed : s.waitPass p = some (result, t)) : WaitEnds s p result t := by
  unfold System.waitPass at passed
  simp only at passed
  split at passed
  · rename_i q found
    obtain ⟨v, deleted, result⟩ := Option.map_eq_some_iff.mp passed
    cases result
    have wanted := List.find?_some found
    rw [Bool.and_eq_true, decide_eq_true_eq, decide_eq_true_eq] at wanted
    exact .reaped q wanted.1 wanted.2 found deleted
  · split at passed
    · cases passed
      exact .failed
    · cases passed
      exact .asleep

/-- How a pass of the loop of `thread_join` ends. -/
inductive JoinEnds (s : System) (p : Lwp) (thread : Nat) : JoinResult → System → Prop where
  | collected {u : System} (q : Lwp) : (s.proc q).pid = (s.proc p).pid → (s.proc q).tid = thread →
      (s.proc q).state = .zombie → s.deleteThread q = some u →
      JoinEnds s p thread (.collected q (s.proc q).retVal) (u.setCall p .none)
  | failed : (∀ q, (s.proc q).pid = (s.proc p).pid → (s.proc q).tid = thread → (s.proc q).state ≠ .zombie) →
      (∀ q, (s.proc q).pid = (s.proc p).pid → (s.proc q).tid = thread → (s.proc p).killed = true) →
      JoinEnds s p thread .failed (s.setCall p .none)
  | asleep (master q : Lwp) :
      (∀ q, (s.proc q).pid = (s.proc p).pid → (s.proc q).tid = thread → (s.proc q).state ≠ .zombie) →
      (s.proc p).killed = false → (s.proc q).pid = (s.proc p).pid → (s.proc q).tid = thread →
      JoinEnds s p thread .asleep ((s.sleep p (.proc master)).setCall p (.threadJoin thread))

/-- Every pass of the loop of `thread_join` ends so. -/
theorem joinPass_ends {thread : Nat} {result : JoinResult} (passed : s.joinPass p thread = some (result, t)) :
    JoinEnds s p thread result t := by
  unfold System.joinPass at passed
  simp only at passed
  split at passed
  · rename_i q found
    obtain ⟨v, deleted, result⟩ := Option.map_eq_some_iff.mp passed
    cases result
    have wanted := List.find?_some found
    rw [Bool.and_eq_true, decide_eq_true_eq, decide_eq_true_eq] at wanted
    exact .collected q wanted.1.1 wanted.1.2 wanted.2 deleted
  · rename_i missing
    have calm : ∀ q, (s.proc q).pid = (s.proc p).pid → (s.proc q).tid = thread → (s.proc q).state ≠ .zombie := by
      intro q pid tid zombie
      refine absurd (List.find?_eq_none.mp missing q (List.mem_finRange q)) (not_not_intro ?_)
      rw [decide_eq_true ⟨pid, tid⟩, decide_eq_true zombie]
      rfl
    split at passed
    · rename_i ends
      cases passed
      refine .failed calm fun q pid tid => ?_
      rcases ends with nobody | killed
      · have absent := List.find?_eq_none.mp (Option.isNone_iff_eq_none.mp nobody) q (List.mem_finRange q)
        rw [decide_eq_true ⟨pid, tid⟩] at absent
        exact absurd rfl absent
      · exact killed
    · rename_i goes
      split at passed
      · contradiction
      · cases passed
        rw [not_or] at goes
        obtain ⟨q, found⟩ := Option.ne_none_iff_exists'.mp fun none => goes.1 (Option.isNone_iff_eq_none.mpr none)
        have same := List.find?_some found
        rw [decide_eq_true_eq] at same
        exact .asleep _ q calm (Bool.eq_false_iff.mpr goes.2) same.1 same.2

/-- One pass of the loop of `wait`. -/
theorem waitPass_reaps {result : WaitResult} (started : (s.proc p).state.started = true)
    (taken : s.waitPass p = some (result, t)) : Reaps s t := by
  cases waitPass_ends taken with
  | reaped q _ zombie _ deleted => exact .reap q (.refl s) zombie deleted (.calm (.setCall rfl))
  | failed => exact .calm (.setCall rfl)
  | asleep =>
    have woken := Calm.wakeup1 s ((s.proc p).parent.map .proc)
    have running := started
    rw [← (woken.groups.proc p).started] at running
    exact .calm ((woken.trans (.sleep running _)).trans (.setCall rfl))

/-- One pass of the loop of `thread_join`. -/
theorem joinPass_reaps {thread : Nat} {result : JoinResult} (started : (s.proc p).state.started = true)
    (taken : s.joinPass p thread = some (result, t)) : Reaps s t := by
  cases joinPass_ends taken with
  | collected q _ _ zombie deleted => exact .reap q (.refl s) zombie deleted (.calm (.setCall rfl))
  | failed _ _ => exact .calm (.setCall rfl)
  | asleep _ _ _ _ _ _ => exact .calm ((Calm.sleep started _).trans (.setCall rfl))

end Reaping

/-! ## Effects -/

/-- The step may delete zombies. -/
def Event.reaping : Event → Bool
  | .wait _ => true
  | .threadJoin _ _ => true
  | .exit _ => true
  | .resume _ => true
  | _ => false

/-- A step up to calm changes. -/
inductive Effect (s : System) : Event → System → Prop where
  | calm {t : System} (event : Event) : Calm s t → Effect s event t
  | fork (p : Lwp) (kalloc : Bool) : (s.proc p).state = .running → s.call p = .none →
      Effect s (.fork p kalloc) (s.fork p kalloc)
  /-- `fork` starts its child or gives the slot up. -/
  | forkCopy {t : System} (p np : Lwp) (result : CopyResult) : (s.proc p).state = .running →
      s.call p = .fork np → s.forkCopy p np result = some t → Effect s (.forkCopy p result) t
  | threadChoose (p : Lwp) : (s.proc p).state = .running → s.call p = .none →
      Effect s (.threadChoose p) (s.setCall p (.threadCreate (s.nextTid p)))
  | threadCreate {t : System} (p : Lwp) (tid : Nat) (outcome : StackOutcome) :
      (s.proc p).state = .running → s.call p = .threadCreate tid →
      s.threadCreate p tid outcome = some t → Effect s (.threadCreate p outcome) t
  | threadExit {t : System} (p : Lwp) (retval : Nat) (u : System) : (s.proc p).state = .running →
      s.call p = .none → Calm s u → Calm (u.zombie p) t → Effect s (.threadExit p retval) t
  /-- `wait`, `thread_join` and `exit` delete zombies. -/
  | reaps {t : System} (p : Lwp) (event : Event) : (s.proc p).state = .running →
      event.reaping = true → Reaps s t → Effect s event t
  /-- `exit` deletes zombies and ends the LWP. -/
  | exit {t : System} (p : Lwp) (event : Event) (u : System) : (s.proc p).state = .running →
      (event = .exit p ∧ s.call p = .none ∨ event = .resume p ∧ s.call p = .exit) → Reaps s u →
      ((u.proc p).tid = 1 → ∀ q, q ≠ p → (u.proc q).master = (u.proc p).master →
        (u.proc q).state = .unused) →
      Calm (u.zombie p) t → Effect s event t
  /-- An LWP that is not a master leaves its group in `exec`. -/
  | detach (p : Lwp) : (s.proc p).state = .running → s.call p = .none → (s.proc p).tid ≠ 1 →
      Effect s (.exec p) ((s.execDeleteThread p).setCall p (.exec false))
  | exec (p : Lwp) : (s.proc p).state = .running → s.call p = .none → (s.proc p).tid = 1 →
      Effect s (.exec p) (s.setCall p (.exec true))
  | execFail {t : System} (p : Lwp) (begun : Option Nat) : (s.proc p).state = .running →
      s.discard p begun = some t → Effect s (.execFail p begun) (t.setCall p .none)
  | execCommit {t : System} (p : Lwp) (isMaster : Bool) (pgdir sz : Nat) : (s.proc p).state = .running →
      s.call p = .exec isMaster → s.execCommit p isMaster pgdir sz = some t →
      Effect s (.execCommit p pgdir sz) t
  | shareCheck (p master : Lwp) (inquire minPass : Int) : (s.proc p).state = .running →
      s.call p = .none → s.findMaster (s.proc p).pid = some master →
      s.shareCheck p inquire = some minPass →
      Effect s (.shareCheck p inquire) (s.setCall p (.setCpuShare master inquire minPass))
  /-- `set_cpu_share` moves a group to the stride class. -/
  | shareUpdate {t : System} (p master : Lwp) (inquire minPass : Int) : (s.proc p).state = .running →
      s.call p = .setCpuShare master inquire minPass →
      s.shareUpdate master inquire minPass = some t → Effect s (.shareUpdate p) (t.setCall p .none)
  | tick {t : System} (p : Lwp) (yields : Bool) : (s.proc p).state = .running →
      s.addTick p = some (yields, t) → Effect s (.tick p) t

section Effects

variable {s t : System}

/-- An ending that belongs to `exit`. -/
theorem Effect.ending {p : Lwp} {event : Event} (running : (s.proc p).state = .running)
    (which : event = .exit p ∧ s.call p = .none ∨ event = .resume p ∧ s.call p = .exit)
    (ending : Ending s p t) : Effect s event t := by
  cases ending with
  | reaps reaps =>
    refine .reaps p event running ?_ reaps
    rcases which with ⟨rfl, _⟩ | ⟨rfl, _⟩
    · rfl
    · rfl
  | ends u reaps gone calm => exact .exit p event u running which reaps gone calm

/-- What a pass leaves. -/
theorem System.afterPass_some {ρ : Type} {pass : Option (ρ × System)}
    (taken : System.afterPass pass = some t) : ∃ result, pass = some (result, t) := by
  obtain ⟨⟨result, u⟩, passed, rfl⟩ := Option.map_eq_some_iff.mp taken
  exact ⟨result, passed⟩

/-- The branches that a step can take, with what they have checked. A pass of `wait` or
`thread_join` is the call itself or goes on with it. -/
inductive Branch (s : System) : Event → System → Prop where
  | fork (p : Lwp) (kalloc : Bool) : (s.proc p).state = .running → s.call p = .none →
      Branch s (.fork p kalloc) (s.fork p kalloc)
  | forkCopy {t : System} (p np : Lwp) (result : CopyResult) : (s.proc p).state = .running →
      s.call p = .fork np → s.forkCopy p np result = some t → Branch s (.forkCopy p result) t
  | threadChoose (p : Lwp) : (s.proc p).state = .running → s.call p = .none →
      Branch s (.threadChoose p) (s.setCall p (.threadCreate (s.nextTid p)))
  | threadCreate {t : System} (p : Lwp) (tid : Nat) (outcome : StackOutcome) :
      (s.proc p).state = .running → s.call p = .threadCreate tid →
      s.threadCreate p tid outcome = some t → Branch s (.threadCreate p outcome) t
  | threadExit (p : Lwp) (retval : Nat) : (s.proc p).state = .running → s.call p = .none →
      Branch s (.threadExit p retval) (s.threadExit p retval)
  /-- `thread_join` of an LWP that is not a master. -/
  | noJoin (p : Lwp) (thread : Nat) : Branch s (.threadJoin p thread) s
  | joins {t : System} (p : Lwp) (event : Event) (thread : Nat) (result : JoinResult) :
      (s.proc p).state = .running →
      (event = .threadJoin p thread ∧ (s.proc p).tid = 1 ∨ event = .resume p ∧ s.call p = .threadJoin thread) →
      s.joinPass p thread = some (result, t) → Branch s event t
  | waits {t : System} (p : Lwp) (event : Event) (result : WaitResult) : (s.proc p).state = .running →
      (event = .wait p ∨ event = .resume p ∧ s.call p = .wait) →
      s.waitPass p = some (result, t) → Branch s event t
  | exit {t : System} (p : Lwp) : (s.proc p).state = .running → s.call p = .none → s.exit p = some t →
      Branch s (.exit p) t
  | resumeExit {t : System} (p : Lwp) : (s.proc p).state = .running → s.call p = .exit → s.exitPass p = some t →
      Branch s (.resume p) t
  | detach (p : Lwp) : (s.proc p).state = .running → s.call p = .none → (s.proc p).tid ≠ 1 →
      Branch s (.exec p) ((s.execDeleteThread p).setCall p (.exec false))
  | exec (p : Lwp) : (s.proc p).state = .running → s.call p = .none → (s.proc p).tid = 1 →
      Branch s (.exec p) (s.setCall p (.exec true))
  | execFail {u : System} (p : Lwp) (begun : Option Nat) : (s.proc p).state = .running →
      s.discard p begun = some u → Branch s (.execFail p begun) (u.setCall p .none)
  | execCommit {t : System} (p : Lwp) (isMaster : Bool) (pgdir sz : Nat) : (s.proc p).state = .running →
      s.call p = .exec isMaster → s.execCommit p isMaster pgdir sz = some t → Branch s (.execCommit p pgdir sz) t
  | kill (p : Lwp) (pid : Nat) : Branch s (.kill p pid) (s.kill pid)
  /-- `set_cpu_share` of a share that is refused. -/
  | refused (p : Lwp) (inquire : Int) : Branch s (.shareCheck p inquire) s
  | shareCheck (p master : Lwp) (inquire minPass : Int) : (s.proc p).state = .running → s.call p = .none →
      s.findMaster (s.proc p).pid = some master → s.shareCheck p inquire = some minPass →
      Branch s (.shareCheck p inquire) (s.setCall p (.setCpuShare master inquire minPass))
  | shareUpdate {u : System} (p master : Lwp) (inquire minPass : Int) : (s.proc p).state = .running →
      s.call p = .setCpuShare master inquire minPass → s.shareUpdate master inquire minPass = some u →
      Branch s (.shareUpdate p) (u.setCall p .none)
  | growproc (p master : Lwp) (sz : Nat) :
      Branch s (.growproc p sz) (s.setProc master { s.proc master with sz })
  | sleep (p : Lwp) (chan : Nat) : (s.proc p).state = .running → Branch s (.sleep p chan) (s.sleep p (.other chan))
  | wakeup (chan : Nat) : Branch s (.wakeup chan) (s.wakeup1 (some (.other chan)))
  | tick {t : System} (p : Lwp) (yields : Bool) : (s.proc p).state = .running → s.addTick p = some (yields, t) →
      Branch s (.tick p) t
  | yield (p : Lwp) : (s.proc p).state = .running →
      Branch s (.yield p) (s.setProc p { s.proc p with state := .runnable })
  | yieldThread {u : System} (p next : Lwp) (pid : Nat) : (s.proc p).state = .running →
      (s.setProc p { s.proc p with state := .runnable }).pickLwp pid = some (some next, u) →
      Branch s (.yieldThread p) (u.start next)
  | run (p : Lwp) : (s.proc p).state = .runnable → Branch s (.run p) (s.start p)
  | dispatch {u : System} (next : Lwp) : s.pickStride = some (some next, u) → Branch s .dispatch (u.start next)

/-- Every step takes one of the branches. -/
theorem step_branch {event : Event} (taken : s.step event = some t) : Branch s event t := by
  cases event with
  | fork p kalloc =>
    obtain ⟨running, call, result⟩ := System.inside_some taken
    cases result
    exact .fork p kalloc running call
  | forkCopy p copied =>
    simp only [System.step] at taken
    split at taken
    · obtain ⟨running, call, result⟩ := System.inside_some taken
      exact .forkCopy p _ copied running call result
    · contradiction
  | threadChoose p =>
    obtain ⟨running, call, result⟩ := System.inside_some taken
    cases result
    exact .threadChoose p running call
  | threadCreate p outcome =>
    simp only [System.step] at taken
    split at taken
    · obtain ⟨running, call, result⟩ := System.inside_some taken
      exact .threadCreate p _ outcome running call result
    · contradiction
  | threadExit p retval =>
    obtain ⟨running, call, result⟩ := System.inside_some taken
    cases result
    exact .threadExit p retval running call
  | threadJoin p thread =>
    obtain ⟨running, _, result⟩ := System.inside_some taken
    obtain ⟨_, passed⟩ := System.afterPass_some result
    unfold System.threadJoin at passed
    split at passed
    · cases passed
      exact .noJoin p thread
    · rename_i whole
      exact .joins p _ thread _ running (.inl ⟨rfl, not_not.mp whole⟩) passed
  | wait p =>
    obtain ⟨running, _, result⟩ := System.inside_some taken
    obtain ⟨_, passed⟩ := System.afterPass_some result
    exact .waits p _ _ running (.inl rfl) passed
  | exit p =>
    obtain ⟨running, call, result⟩ := System.inside_some taken
    exact .exit p running call result
  | resume p =>
    obtain ⟨running, _, result⟩ := System.inside_some taken
    unfold System.resume at result
    split at result
    · rename_i call
      exact .resumeExit p running call result
    · rename_i call
      obtain ⟨_, passed⟩ := System.afterPass_some result
      exact .waits p _ _ running (.inr ⟨rfl, call⟩) passed
    · rename_i thread call
      obtain ⟨_, passed⟩ := System.afterPass_some result
      exact .joins p _ thread _ running (.inr ⟨rfl, call⟩) passed
    · contradiction
  | exec p =>
    obtain ⟨running, call, result⟩ := System.inside_some taken
    cases result
    unfold System.exec
    split
    · rename_i thread
      exact .detach p running call thread
    · rename_i master
      exact .exec p running call (not_not.mp master)
  | execFail p begun =>
    simp only [System.step] at taken
    split at taken
    · obtain ⟨running, _, result⟩ := System.inside_some taken
      obtain ⟨u, discarded, rfl⟩ := Option.map_eq_some_iff.mp result
      exact .execFail p begun running discarded
    · contradiction
  | execCommit p pgdir sz =>
    simp only [System.step] at taken
    split at taken
    · obtain ⟨running, call, result⟩ := System.inside_some taken
      exact .execCommit p _ pgdir sz running call result
    · contradiction
  | kill p pid =>
    obtain ⟨_, _, result⟩ := System.inside_some taken
    cases result
    exact .kill p pid
  | shareCheck p inquire =>
    obtain ⟨running, call, result⟩ := System.inside_some taken
    split at result
    · cases result
      exact .refused p inquire
    · contradiction
    · rename_i passed found
      cases result
      exact .shareCheck p _ inquire _ running call found passed
  | shareUpdate p =>
    simp only [System.step] at taken
    split at taken
    · obtain ⟨running, call, result⟩ := System.inside_some taken
      obtain ⟨u, updated, rfl⟩ := Option.map_eq_some_iff.mp result
      exact .shareUpdate p _ _ _ running call updated
    · contradiction
  | growproc p sz =>
    obtain ⟨_, _, result⟩ := System.inside_some taken
    obtain ⟨master, _, rfl⟩ := Option.map_eq_some_iff.mp result
    exact .growproc p master sz
  | sleep p chan =>
    simp only [System.step] at taken
    split at taken
    · obtain ⟨running, _, result⟩ := System.inside_some taken
      cases result
      exact .sleep p chan running
    · obtain ⟨running, _, result⟩ := System.inside_some taken
      cases result
      exact .sleep p chan running
  | wakeup chan =>
    cases taken
    exact .wakeup chan
  | tick p =>
    obtain ⟨running, _, result⟩ := System.inside_some taken
    obtain ⟨⟨yields, u⟩, ticked, rfl⟩ := Option.map_eq_some_iff.mp result
    exact .tick p yields running ticked
  | yield p =>
    obtain ⟨running, _, result⟩ := System.inside_some taken
    cases result
    exact .yield p running
  | yieldThread p =>
    obtain ⟨running, _, result⟩ := System.inside_some taken
    unfold System.yieldThread at result
    simp only at result
    split at result
    · rename_i next u picked
      cases result
      exact .yieldThread p next _ running picked
    · contradiction
  | run p =>
    simp only [System.step] at taken
    split at taken
    · rename_i runnable
      cases taken
      exact .run p runnable
    · contradiction
  | dispatch =>
    simp only [System.step, System.dispatch] at taken
    split at taken
    · rename_i next u picked
      cases taken
      exact .dispatch next picked
    · contradiction

/-- `thread_exit` up to calm changes. -/
theorem threadExit_calm (s : System) (p : Lwp) (retval : Nat) :
    ∃ u, Calm s u ∧ s.threadExit p retval = u.zombie p := by
  have saved : Calm s (s.setProc p { s.proc p with retVal := retval }) :=
    .setProc (.of_state (.inl rfl) ⟨rfl, rfl, rfl, rfl, rfl, rfl, rfl⟩)
  exact ⟨_, (saved.trans (.wakeup1 _ _)).trans (.passToInit _ _), rfl⟩

/-- Giving up the processor is calm. -/
theorem Calm.yielded {p : Lwp} (running : (s.proc p).state = .running) :
    Calm s (s.setProc p { s.proc p with state := .runnable }) :=
  .setProc (.of_state (.inr ⟨System.started_of_running running, rfl⟩) ⟨rfl, rfl, rfl, rfl, rfl, rfl, rfl⟩)

/-- Every step is one of the effects. -/
theorem step_effect {event : Event} (taken : s.step event = some t) : Effect s event t := by
  cases step_branch taken with
  | fork p kalloc running call => exact .fork p kalloc running call
  | forkCopy p np copied running call result => exact .forkCopy p np copied running call result
  | threadChoose p running call => exact .threadChoose p running call
  | threadCreate p tid outcome running call result => exact .threadCreate p tid outcome running call result
  | threadExit p retval running call =>
    obtain ⟨u, calm, ended⟩ := threadExit_calm s p retval
    rw [ended]
    exact .threadExit p retval u running call calm (.refl _)
  | noJoin p thread => exact .calm _ (.refl _)
  | joins p _ thread _ running which passed =>
    have reaps := joinPass_reaps (System.started_of_running running) passed
    rcases which with ⟨rfl, _⟩ | ⟨rfl, _⟩
    · exact .reaps p _ running rfl reaps
    · exact .reaps p _ running rfl reaps
  | waits p _ _ running which passed =>
    have reaps := waitPass_reaps (System.started_of_running running) passed
    rcases which with rfl | ⟨rfl, _⟩
    · exact .reaps p _ running rfl reaps
    · exact .reaps p _ running rfl reaps
  | exit p running call result =>
    exact .ending running (.inl ⟨rfl, call⟩) (exit_ending (System.started_of_running running) result)
  | resumeExit p running call result =>
    exact .ending running (.inr ⟨rfl, call⟩) (exitPass_ending (System.started_of_running running) result)
  | detach p running call thread => exact .detach p running call thread
  | exec p running call master => exact .exec p running call master
  | execFail p begun running discarded => exact .execFail p begun running discarded
  | execCommit p isMaster pgdir sz running call result => exact .execCommit p isMaster pgdir sz running call result
  | kill p pid => exact .calm _ (.kill s pid)
  | refused p inquire => exact .calm _ (.refl s)
  | shareCheck p master inquire minPass running call found passed =>
    exact .shareCheck p master inquire minPass running call found passed
  | shareUpdate p master inquire minPass running call updated =>
    exact .shareUpdate p master inquire minPass running call updated
  | growproc p master sz => exact .calm _ (.setProc (.of_state (.inl rfl) ⟨rfl, rfl, rfl, rfl, rfl, rfl, rfl⟩))
  | sleep p chan running => exact .calm _ (.sleep (System.started_of_running running) _)
  | wakeup chan => exact .calm _ (.wakeup1 s _)
  | tick p yields running ticked => exact .tick p yields running ticked
  | yield p running => exact .calm _ (.yielded running)
  | yieldThread p next pid running picked =>
    obtain ⟨calm, runnable⟩ := System.pickLwp_some picked
    refine .calm _ (((Calm.yielded running).trans calm).trans (.start ?_))
    rw [(calm.groups.proc next).started, runnable next rfl]
    rfl
  | run p runnable =>
    refine .calm _ (.start ?_)
    rw [runnable]
    rfl
  | dispatch next picked =>
    obtain ⟨calm, started⟩ := System.pickStride_some picked
    exact .calm _ (calm.trans (.start (started next rfl)))

end Effects

end Xv6
