import Xv6.Verif.Tickets

/-!
# Processor shares

`set_cpu_share` checks the shares that are assigned without the lock and takes its tickets with
it. When calls are made one at a time its checks still hold when it takes the tickets; when two
callers check before either takes its tickets, more than four fifths are assigned.
-/

namespace Xv6

/-! ## Interleaved calls -/

section Interleaved

variable {d : Nat} {events : List Event} {s t : System} {p : Lwp} {event : Event}

/-- As long as the checks still hold whenever tickets are taken, four fifths at most are assigned,
no divisor is zero, no stride is negative and no group owns two entries. -/
theorem shares_within_limit (run : Run checkedStep (System.userinit d) events t) :
    t.assigned ≤ 80 ∧ 20 ≤ (t.sTable 0).tickets ∧ (∀ e, 0 ≤ (t.sTable e).stride) ∧
      (∀ p inquire, (t.shareCheck p inquire).isSome = true → 20 ≤ (t.sTable 0).tickets - inquire) ∧
      (∀ m e, Leads t m → (t.proc m).schedstate = .stride → (t.proc m).pstride = some e →
        20 ≤ (t.sTable 0).tickets + (t.sTable e).tickets) ∧
      ∀ e e', e ≠ 0 → e' ≠ 0 → (t.sTable e).state = .used → (t.sTable e').state = .used →
        (t.sTable e).pid = (t.sTable e').pid → e = e' := by
  have granting := run.invariant Granting (fun _ _ _ => Granting.step) (.userinit d)
  have balanced := granting.balanced
  have total := balanced.total
  refine ⟨balanced.limit, balanced.first_tickets, balanced.stride_nonneg, fun p inquire passes => ?_,
    fun m e leads stride points => ?_, fun e e' first second => granting.single first second⟩
  · obtain ⟨_, _, _, fits⟩ := shareCheck_isSome.mp passes
    omega
  · obtain ⟨e', away, same, used, _⟩ := granting.classed.entry m leads stride
    rw [points] at same
    cases same
    have least := (balanced.share e away used).1
    have first := balanced.first_tickets
    omega

/-- A step other than the locked part of `set_cpu_share` meets the condition. -/
theorem checkedStep_of_step (other : ∀ p, event ≠ .shareUpdate p) (taken : s.step event = some t) :
    checkedStep s event t :=
  ⟨taken, fun p _ _ _ same => absurd same (other p)⟩

/-- Two processes take 40 tickets each; both have begun before the first of them ends. -/
theorem shares_within_limit_pair :
    ∃ t, Run checkedStep (System.userinit 0) [.run 0, .fork 0 true, .forkCopy 0 (.copied 1), .run 1,
        .shareCheck 0 40, .shareCheck 1 40, .shareUpdate 0, .shareUpdate 1] t ∧ t.assigned ≤ 80 ∧
      20 ≤ (t.sTable 0).tickets := by
  have run : ∃ t, Run checkedStep (System.userinit 0) [.run 0, .fork 0 true, .forkCopy 0 (.copied 1), .run 1,
      .shareCheck 0 40, .shareCheck 1 40, .shareUpdate 0, .shareUpdate 1] t := by
    refine ⟨_, .cons (checkedStep_of_step nofun rfl) (.cons (checkedStep_of_step nofun rfl)
      (.cons (checkedStep_of_step nofun rfl) (.cons (checkedStep_of_step nofun rfl)
      (.cons (checkedStep_of_step nofun rfl) (.cons (checkedStep_of_step nofun rfl)
      (.cons ⟨rfl, ?_⟩ (.cons ⟨rfl, ?_⟩ (.nil _))))))))⟩
    · intro p master inquire minPass same call
      cases same
      obtain ⟨rfl, rfl, _⟩ := Call.setCpuShare.inj call
      decide +kernel
    · intro p master inquire minPass same call
      cases same
      obtain ⟨rfl, rfl, _⟩ := Call.setCpuShare.inj call
      decide +kernel
  obtain ⟨t, run⟩ := run
  obtain ⟨limit, first, _⟩ := shares_within_limit run
  exact ⟨t, run, limit, first⟩

/-- Two processes check before either takes its 60 tickets: the first entry is left with -20
tickets and a negative stride. -/
theorem shares_exceed_limit :
    ∃ t, Run (fun s event t => s.step event = some t) (System.userinit 0)
        [.run 0, .fork 0 true, .forkCopy 0 (.copied 1), .run 1, .shareCheck 0 60, .shareCheck 1 60,
          .shareUpdate 0, .shareUpdate 1] t ∧
      t.assigned = 120 ∧ (t.sTable 0).tickets = -20 ∧ (t.sTable 0).stride = -52428 := by
  have outcome : ((Run.exec System.step [.run 0, .fork 0 true, .forkCopy 0 (.copied 1), .run 1, .shareCheck 0 60,
      .shareCheck 1 60, .shareUpdate 0, .shareUpdate 1] (System.userinit 0)).map fun t =>
        (t.assigned, (t.sTable 0).tickets, (t.sTable 0).stride)) = some (120, -20, -52428) := by
    decide +kernel
  obtain ⟨t, executed, summary⟩ := Option.map_eq_some_iff.mp outcome
  simp only [Prod.mk.injEq] at summary
  exact ⟨t, Run.of_exec executed, summary⟩

end Interleaved

/-! ## One call at a time -/

/-- The step belongs to no system call of an LWP. -/
def Event.scheduling : Event → Bool
  | .tick _ => true
  | .yield _ => true
  | .yieldThread _ => true
  | .run _ => true
  | .dispatch => true
  | .wakeup _ => true
  | _ => false

/-- A step while `set_cpu_share` runs alone: between its checks and its locked part no other call
takes a step. -/
def aloneStep (s : System) (event : Event) (t : System) : Prop :=
  s.step event = some t ∧ ∀ p master inquire minPass, s.call p = .setCpuShare master inquire minPass →
    event = .shareUpdate p ∨ event.scheduling = true

/-- The checks of every call of `set_cpu_share` still hold. -/
def Valid (s : System) : Prop :=
  ∀ p master inquire minPass, s.call p = .setCpuShare master inquire minPass →
    s.findMaster (s.proc p).pid = some master ∧ (s.shareCheck p inquire).isSome = true

section OneAtATime

variable {d : Nat} {events : List Event} {s t : System} {p : Lwp} {event : Event}

/-- Scheduling deletes nothing. -/
theorem Event.not_reaping (scheduling : event.scheduling = true) : event.reaping = false := by
  cases event <;> first | rfl | cases scheduling

/-- Moving pids between queues puts nobody into the stride class. -/
theorem Requeues.not_stride (requeues : Requeues s t) (out : (s.proc p).schedstate ≠ .stride) :
    (t.proc p).schedstate ≠ .stride := by
  induction requeues with
  | nil => exact out
  | tick ticked _ ih =>
    rw [ticked.proc] at ih
    exact ih out
  | @move s t u pid prior _ popped _ ih =>
    obtain ⟨n, empties⟩ := popMlfq_empties popped
    have first : (t.proc p).schedstate ≠ .stride := by
      rw [empties.proc p]
      split
      · exact nofun
      · exact out
    refine ih ?_
    rcases pushMlfq_fills t pid prior with ⟨i, fills⟩ | ⟨_, same⟩
    · rw [fills.proc p]
      split
      · exact nofun
      · exact first
    · rw [same]
      exact first

/-- Checks that held still hold where pids, tids and tickets are the same and nobody has joined
the stride class. -/
theorem Valid.keep (valid : Valid s) (slots : ∀ q, (t.proc q).pid = (s.proc q).pid ∧ (t.proc q).tid = (s.proc q).tid)
    (entries : ∀ e, (t.sTable e).state = (s.sTable e).state ∧ (t.sTable e).tickets = (s.sTable e).tickets)
    (classes : ∀ q, (s.proc q).schedstate ≠ .stride → (t.proc q).schedstate ≠ .stride)
    (calls : ∀ q master inquire minPass, t.call q = .setCpuShare master inquire minPass →
      s.call q = .setCpuShare master inquire minPass) : Valid t := by
  intro p master inquire minPass call
  obtain ⟨found, passes⟩ := valid p master inquire minPass (calls p master inquire minPass call)
  obtain ⟨positive, bound, out, fits⟩ := shareCheck_isSome.mp passes
  refine ⟨?_, shareCheck_isSome.mpr ⟨positive, bound, classes p out, ?_⟩⟩
  · rw [← found, (slots p).1]
    unfold System.findMaster
    exact congrArg firstSlot (funext fun q => by rw [(slots q).1, (slots q).2])
  · rw [assigned_congr entries]
    exact fits

/-- Scheduling keeps the checks. -/
theorem Valid.scheduling (valid : Valid s) (ranked : Ranked s) (taken : s.step event = some t)
    (scheduling : event.scheduling = true) : Valid t := by
  have calls : ∀ q master inquire minPass, t.call q = .setCpuShare master inquire minPass →
      s.call q = .setCpuShare master inquire minPass := by
    intro q master inquire minPass call
    cases step_call taken q with
    | kept _ same => exact same.symm.trans call
    | shares _ _ _ _ _ => cases scheduling
    | _ => simp_all only [reduceCtorEq]
  have quiet := Event.not_reaping scheduling
  have effect := step_effect taken
  have same := (step_tables ranked effect).shares_same quiet fun p update => by
    rw [update] at scheduling
    cases scheduling
  have entries : ∀ e, (t.sTable e).state = (s.sTable e).state ∧ (t.sTable e).tickets = (s.sTable e).tickets :=
    fun e => ⟨(same e).1, (same e).2.1⟩
  cases effect with
  | calm _ calm =>
    refine valid.keep (fun q => ⟨(calm.groups.proc q).pid, (calm.groups.proc q).tid⟩) entries (fun q out => ?_) calls
    rw [(calm.classes.proc q).schedstate]
    exact out
  | tick p yields running ticked =>
    have positive := ranked.positive p (taken_of_state running nofun)
    obtain ⟨u, _, charges, requeues⟩ := addTick_requeues positive ticked
    refine valid.keep (fun q => ?_) entries (fun q out => requeues.not_stride ?_) calls
    · obtain ⟨_, _, slot⟩ := requeues.slot q
      rw [slot, charges.proc]
      exact ⟨rfl, rfl⟩
    · rw [charges.proc]
      exact out
  | reaps _ _ _ reaping _ =>
    rw [reaping] at quiet
    cases quiet
  | exit _ _ _ _ which _ _ _ => rcases which with ⟨rfl, _⟩ | ⟨rfl, _⟩ <;> cases scheduling
  | _ => cases scheduling

/-- When `set_cpu_share` runs alone its checks still hold in its locked part. -/
theorem Valid.step (valid : Valid s) (ranked : Ranked s) (taken : aloneStep s event t) :
    Valid t ∧ checkedStep s event t := by
  obtain ⟨taken, alone⟩ := taken
  refine ⟨?_, taken, fun p master inquire minPass _ call => valid p master inquire minPass call⟩
  by_cases scheduling : event.scheduling = true
  · exact valid.scheduling ranked taken scheduling
  · intro q master inquire minPass call
    cases step_call taken q with
    | kept _ same =>
      have before := same.symm.trans call
      have update := (alone q master inquire minPass before).resolve_right scheduling
      rw [update] at taken
      simp only [System.step, before] at taken
      obtain ⟨_, _, result⟩ := System.inside_some taken
      obtain ⟨u, _, rfl⟩ := Option.map_eq_some_iff.mp result
      rw [System.setCall_self] at call
      cases call
    | shares master' inquire' minPass' running call' =>
      rw [call'] at call
      cases call
      obtain ⟨_, outside, result⟩ := System.inside_some taken
      split at result
      · cases result
        rw [outside] at call'
        cases call'
      · cases result
      · rename_i passed found
        cases result
        rw [System.setCall_self] at call'
        cases call'
        have passes : (s.shareCheck q inquire).isSome = true := by
          rw [passed]
          rfl
        exact ⟨found, passes⟩
    | _ => simp_all only [reduceCtorEq]

/-- When `set_cpu_share` runs alone, the first entry and the used ones hold 100 tickets together;
every used entry after the first one holds 1 to 80 of them, the first one at least 20, the strides
are those of the tickets, and no divisor is zero. -/
theorem tickets_conserved (run : Run aloneStep (System.userinit d) events t) :
    (t.sTable 0).tickets + t.assigned = 100 ∧
      (∀ e, e ≠ 0 → (t.sTable e).state = .used → 1 ≤ (t.sTable e).tickets ∧ (t.sTable e).tickets ≤ 80 ∧
        (t.sTable e).stride = stride1.tdiv (t.sTable e).tickets) ∧
      (t.sTable 0).stride = stride1.tdiv (t.sTable 0).tickets ∧ 20 ≤ (t.sTable 0).tickets ∧
      (∀ p master inquire minPass, t.call p = .setCpuShare master inquire minPass →
        20 ≤ (t.sTable 0).tickets - inquire) ∧
      ∀ m e, Leads t m → (t.proc m).schedstate = .stride → (t.proc m).pstride = some e →
        20 ≤ (t.sTable 0).tickets + (t.sTable e).tickets := by
  obtain ⟨granting, valid⟩ := run.invariant (fun s => Granting s ∧ Valid s)
    (fun s event t ⟨granting, valid⟩ taken => by
      obtain ⟨after, checked⟩ := valid.step (granting.follows.ranked granting.lineage) taken
      exact ⟨granting.step checked, after⟩)
    ⟨.userinit d, fun p _ _ _ call => Call.noConfusion ((userinit_call d p).symm.trans call)⟩
  have balanced := granting.balanced
  have total := balanced.total
  have first := balanced.first_tickets
  refine ⟨total, fun e other used => ?_, balanced.first, first, fun p master inquire minPass call => ?_,
    fun m e leads stride points => ?_⟩
  · obtain ⟨least, divided⟩ := balanced.share e other used
    exact ⟨least, balanced.share_le other used, divided⟩
  · obtain ⟨_, passes⟩ := valid p master inquire minPass call
    obtain ⟨_, _, _, fits⟩ := shareCheck_isSome.mp passes
    omega
  · obtain ⟨e', away, same, used, _⟩ := granting.classed.entry m leads stride
    rw [points] at same
    cases same
    have least := (balanced.share e away used).1
    omega

/-- The LWP is between the checks of `set_cpu_share` and its locked part. -/
def Call.sharing : Call → Bool
  | .setCpuShare _ _ _ => true
  | _ => false

/-- A step, if `set_cpu_share` runs alone. -/
def aloneNext (s : System) (event : Event) : Option System :=
  if ∀ p, (s.call p).sharing = true → event = .shareUpdate p ∨ event.scheduling = true then s.step event else none

/-- It is a step while `set_cpu_share` runs alone. -/
theorem aloneStep_of_next (taken : aloneNext s event = some t) : aloneStep s event t := by
  unfold aloneNext at taken
  split at taken
  · rename_i alone
    exact ⟨taken, fun p _ _ _ call => alone p (by rw [call]; rfl)⟩
  · cases taken

/-- The first process takes 30 tickets, with a tick in between, its child takes 50 and gives them
back. -/
theorem tickets_conserved_child :
    ∃ t, Run aloneStep (System.userinit 0) [.run 0, .shareCheck 0 30, .tick 0, .shareUpdate 0, .fork 0 true,
        .forkCopy 0 (.copied 1), .run 1, .shareCheck 1 50, .shareUpdate 1, .exit 1, .wait 0] t ∧
      (t.sTable 0).tickets + t.assigned = 100 ∧ 20 ≤ (t.sTable 0).tickets := by
  have outcome : ((Run.exec aloneNext [.run 0, .shareCheck 0 30, .tick 0, .shareUpdate 0, .fork 0 true,
      .forkCopy 0 (.copied 1), .run 1, .shareCheck 1 50, .shareUpdate 1, .exit 1, .wait 0] (System.userinit 0)).map
        fun t => (t.sTable 0).tickets) = some 70 := by
    decide +kernel
  obtain ⟨t, executed, _⟩ := Option.map_eq_some_iff.mp outcome
  have run := (Run.of_exec executed).mono fun _ _ _ => aloneStep_of_next
  obtain ⟨total, _, _, first, _⟩ := tickets_conserved run
  exact ⟨t, run, total, first⟩

end OneAtATime

end Xv6
