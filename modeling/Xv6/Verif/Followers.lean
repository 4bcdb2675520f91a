import Xv6.Verif.Lineage

/-!
# Followers

In every run, also when a master calls `thread_exit` before its LWPs, a slot of a group points to
the master of the group as long as that is there. So groups are ranked in every run.
-/

namespace Xv6

/-- A taken slot points to the master of its pid, if there is one left. -/
def Follows (s : System) : Prop :=
  ∀ m q, Leads s m → (s.proc q).state ≠ .unused → (s.proc q).pid = (s.proc m).pid → (s.proc q).master = some m

/-- A slot that `fork` prepares is the only one with its pid. -/
def Lonely (s : System) : Prop :=
  ∀ p np, s.call p = .fork np → ∀ q, q ≠ np → (s.proc q).state ≠ .unused → (s.proc q).pid ≠ (s.proc np).pid

/-- A slot that is unused has no pid of a taken one. -/
def Vacated (s : System) : Prop :=
  ∀ q r, (s.proc q).state = .unused → (s.proc r).state ≠ .unused → (s.proc q).pid ≠ (s.proc r).pid

section Followers

variable {s t : System} {p q : Lwp} {event : Event}

/-- Groups with a lineage are ranked. -/
theorem Follows.ranked (follows : Follows s) (lineage : Lineage s) : Ranked s where
  fresh := lineage.fresh
  positive := lineage.positive
  masters p q first second := lineage.masters p q first.2 second.2 first.1 second.1
  leader m q leads started := follows m q leads fun unused => by rw [unused] at started; contradiction
  forking p np call := (lineage.forking p np call).2.1
  creating := lineage.creating

/-- An LWP that `thread_create` starts gets the pid and the master of its creator. -/
theorem Lineage.published (lineage : Lineage s) {outcome : StackOutcome}
    (taken : s.step (.threadCreate p outcome) = some t) (free : (s.proc q).state = .unused)
    (state : (t.proc q).state = .runnable) : (s.proc p).state.started = true ∧ (t.proc q).pid = (s.proc p).pid ∧
      (t.proc q).master = (s.proc p).master := by
  have appears : ¬ (s.proc q).SameGroup (t.proc q) := by
    intro same
    have started := same.started
    rw [state, free] at started
    contradiction
  cases step_effect taken with
  | calm _ calm => exact absurd (calm.groups.proc q) appears
  | reaps _ _ _ reaping _ => cases reaping
  | exit _ _ _ _ which _ _ _ =>
    rcases which with ⟨same, _⟩ | ⟨same, _⟩
    · cases same
    · cases same
  | threadCreate _ tid _ running call created =>
    have started := System.started_of_running running
    obtain ⟨np, creates⟩ := threadCreate_creates lineage.fresh started (lineage.creating p tid call) created
    have here : q = np := by
      by_contra other
      obtain ⟨_, _, slot⟩ := creates.others q other
      rw [slot, free] at state
      contradiction
    rw [here] at state ⊢
    rcases creates.slot with unused | ⟨M, points, _, pid, master, _, _⟩
    · rw [unused] at state
      contradiction
    · exact ⟨started, pid, master.trans points.symm⟩

/-- An LWP that `thread_create` starts follows the master of its creator. -/
theorem Follows.published (follows : Follows s) (lineage : Lineage s) {outcome : StackOutcome}
    (taken : s.step (.threadCreate p outcome) = some t) (free : (s.proc q).state = .unused)
    (state : (t.proc q).state = .runnable) {m : Lwp} (leads : Leads s m) (same : (t.proc q).pid = (s.proc m).pid) :
    (t.proc q).master = some m := by
  obtain ⟨started, pid, master⟩ := lineage.published taken free state
  rw [master]
  exact (follows.ranked lineage).leader m p leads started (pid.symm.trans same)

/-- Every step keeps followers. -/
theorem Follows.step (follows : Follows s) (lineage : Lineage s) (taken : s.step event = some t) : Follows t := by
  intro m q leads busy same
  have slots := step_slot lineage.positive taken
  have next := lineage.step taken
  have alone : (t.proc q).tid = 1 → (t.proc q).master = some m := by
    intro whole
    rw [next.masters q m busy leads.2 whole leads.1 same]
    exact next.own m leads.2 leads.1
  cases (slots m).placing lineage leads.2 with
  | kept before pid tid _ =>
    have leader : Leads s m := ⟨tid.symm.trans leads.1, before⟩
    cases (slots q).placing lineage busy with
    | kept was pid' _ master =>
      rw [master]
      exact follows m q leader was (pid'.symm.trans (same.trans pid))
    | founds _ _ whole _ _ => exact alone whole
    | joins p tid created _ _ free state _ _ _ _ =>
      rw [created] at taken
      exact follows.published lineage taken (freeSlot_unused free) state leader (same.trans pid)
  | founds new _ _ _ _ =>
    have fresh : ∀ r, (t.proc q).pid ≠ (s.proc r).pid := by
      intro r
      rw [same, new]
      exact (Nat.ne_of_lt (lineage.fresh r)).symm
    cases (slots q).placing lineage busy with
    | kept _ pid' _ _ => exact absurd pid' (fresh q)
    | founds _ _ whole _ _ => exact alone whole
    | joins p _ _ _ _ _ _ pid' _ _ _ => exact absurd pid' (fresh p)
  | joins _ tid _ _ _ _ _ _ whole least _ =>
    rw [leads.1] at whole
    omega

/-- Every step keeps the slots that `fork` prepares alone. -/
theorem Lonely.step (lonely : Lonely s) (lineage : Lineage s) (taken : s.step event = some t) : Lonely t := by
  have slots := step_slot lineage.positive taken
  intro p np call q other busy
  cases step_call taken p with
  | kept _ same =>
    have before := same.symm.trans call
    rw [((slots np).prepared lineage before call).pid]
    cases (slots q).placing lineage busy with
    | kept was pid _ _ =>
      rw [pid]
      exact lonely p np before q other was
    | founds pid _ _ _ _ =>
      rw [pid]
      exact (Nat.ne_of_lt (lineage.fresh np)).symm
    | joins r _ _ running _ _ _ pid _ _ _ =>
      rw [pid]
      refine lonely p np before r ?_ (taken_of_state running nofun)
      rintro rfl
      rw [(lineage.forking p r before).2.1] at running
      contradiction
  | forks np' _ free _ pid call' =>
    rw [call] at call'
    cases call'
    rw [pid]
    cases (slots q).placing lineage busy with
    | kept _ pid _ _ =>
      rw [pid]
      exact Nat.ne_of_lt (lineage.fresh q)
    | founds _ _ _ _ which =>
      rcases which with ⟨free', _⟩ | same
      · rw [free] at free'
        exact absurd (Option.some.inj free').symm other
      · cases same
    | joins r _ _ _ _ _ _ pid _ _ _ =>
      rw [pid]
      exact Nat.ne_of_lt (lineage.fresh r)
  | _ => simp_all only [reduceCtorEq]

/-- `exec` of an LWP that is no master gives no other slot a pid. -/
theorem exec_other (taken : s.step (.exec p) = some t) (other : q ≠ p) : (t.proc q).pid = (s.proc q).pid := by
  cases step_effect taken with
  | calm _ calm => exact (calm.groups.proc q).pid
  | reaps _ _ _ reaping _ => cases reaping
  | exit _ _ _ _ which _ _ _ =>
    rcases which with ⟨same, _⟩ | ⟨same, _⟩
    · cases same
    · cases same
  | detach _ _ _ _ =>
    have left : (((s.killOthers p).leaveGroup p).proc q).pid = (s.proc q).pid := by
      unfold System.leaveGroup
      rw [System.setProc_other _ _ other]
      exact (Steady.killOthers s p q).pid
    exact (Steady.pushMlfq _ _ 0 q).pid.trans left
  | exec _ _ _ _ => rfl

/-- Every step keeps the pids of unused slots apart. -/
theorem Vacated.step (vacated : Vacated s) (lonely : Lonely s) (lineage : Lineage s) (taken : s.step event = some t) :
    Vacated t := by
  have slots := step_slot lineage.positive taken
  intro q r free busy
  have contra : ∀ {state : RunState}, (t.proc q).state = state → state ≠ .unused → (t.proc q).pid ≠ (t.proc r).pid := by
    intro state known other
    exact absurd (known.symm.trans free) other
  cases slots q with
  | stays _ group _ _ =>
    have unused : (s.proc q).state = .unused := (group.state_iff rfl).mp free
    rw [group.pid]
    cases (slots r).placing lineage busy with
    | kept was pid _ _ =>
      rw [pid]
      exact vacated q r unused was
    | founds pid _ _ _ _ =>
      rw [pid]
      exact Nat.ne_of_lt (lineage.fresh q)
    | joins p _ _ running _ _ _ pid _ _ _ =>
      rw [pid]
      exact vacated q p unused (taken_of_state running nofun)
  | deleted _ _ _ cleared =>
    rw [cleared.pid]
    exact Nat.ne_of_lt ((lineage.step taken).positive r busy)
  | threadExit _ _ _ zombie _ _ _ _ _ => exact contra zombie nofun
  | ends _ _ _ zombie _ _ _ _ => exact contra zombie nofun
  | founded _ _ embryo _ _ _ _ _ => exact contra embryo nofun
  | released _ vacant _ new _ _ =>
    rw [new]
    cases (slots r).placing lineage busy with
    | kept _ pid _ _ =>
      rw [pid]
      exact (Nat.ne_of_lt (lineage.fresh r)).symm
    | founds _ _ _ _ which =>
      rcases which with ⟨vacant', _⟩ | rfl
      · rw [vacant] at vacant'
        rw [Option.some.inj vacant'] at free
        exact absurd free busy
      · refine absurd (new.symm.trans (exec_other taken ?_)) (Nat.ne_of_lt (lineage.fresh q)).symm
        rintro rfl
        exact busy free
    | joins p _ _ _ _ _ _ pid _ _ _ =>
      rw [pid]
      exact (Nat.ne_of_lt (lineage.fresh p)).symm
  | abandoned p _ call _ _ pid _ _ =>
    rw [pid]
    cases (slots r).placing lineage busy with
    | kept was pid' _ _ =>
      rw [pid']
      refine (lonely p q call r ?_ was).symm
      rintro rfl
      exact busy free
    | founds pid' _ _ _ _ =>
      rw [pid']
      exact Nat.ne_of_lt (lineage.fresh q)
    | joins p' _ _ running _ _ _ pid' _ _ _ =>
      rw [pid']
      refine (lonely p q call p' ?_ (taken_of_state running nofun)).symm
      rintro rfl
      rw [(lineage.forking p p' call).2.1] at running
      contradiction
  | started _ _ _ _ _ _ runnable _ _ _ _ => exact contra runnable nofun
  | published _ _ _ _ _ _ runnable _ _ _ => exact contra runnable nofun
  | detached _ _ _ started _ _ _ _ _ =>
    rw [free] at started
    contradiction

/-- The first process has no followers but itself. -/
theorem Follows.userinit (d : Nat) : Follows (System.userinit d) := by
  have only := userinit_only d
  intro m q leads taken _
  rw [only q taken, ← only m leads.2]
  exact (Lineage.userinit d).own m leads.2 leads.1

/-- Only the first process has a pid. -/
theorem Vacated.userinit (d : Nat) : Vacated (System.userinit d) := by
  intro q r free busy
  have positive := (Lineage.userinit d).positive r busy
  have other : q ≠ 0 := by
    rintro rfl
    rw [(userinit_first d).1] at free
    contradiction
  rw [userinit_other d other]
  exact Nat.ne_of_lt positive

/-- No call of `fork` has begun. -/
theorem Lonely.userinit (d : Nat) : Lonely (System.userinit d) := by
  intro p np call
  rw [userinit_call d p] at call
  contradiction

end Followers

end Xv6
