import Xv6.Lib.Runs
import Xv6.Verif.Classes

/-!
# Stride entries that are charged

A tick charges the entry that the running LWP points to. When no LWP leaves its group in `exec`,
which leaves it with a null pointer, every LWP points to a used entry: the first one, or that of
its group.
-/

namespace Xv6

/-- A step in which no LWP leaves its group in `exec` and a master calls `thread_exit` only when
it is alone. -/
def chargedStep (s : System) (event : Event) (t : System) : Prop :=
  s.step event = some t ∧ (∀ p, event = .exec p → (s.proc p).tid = 1) ∧
    ∀ p retval, event = .threadExit p retval → (s.proc p).tid = 1 → Alone s p

/-- Every slot that is taken points to an entry. -/
def Pointing (s : System) : Prop := ∀ p, (s.proc p).state ≠ .unused → (s.proc p).pstride ≠ none

section Charging

variable {s t u : System} {p : Lwp}

/-- Slots were given up at most. -/
theorem Pointing.retains (pointing : Pointing s) (retains : Retains s t) : Pointing t := by
  intro q taken
  have same := retains.slots q taken
  rw [same.pstride]
  exact pointing q same.taken

/-- Zombies are deleted. -/
theorem Pointing.reaps (pointing : Pointing s) (reaps : Reaps s t) : Pointing t := by
  induction reaps with
  | calm calm => exact pointing.retains (.of_calm calm)
  | @reap s t u v q before _ deleted _ ih =>
    refine ih fun r taken => ?_
    have other : r ≠ q := by
      rintro rfl
      exact taken (System.deleteThread_self deleted).1
    obtain ⟨stack, slot⟩ := System.deleteThread_other deleted other
    rw [slot] at taken ⊢
    exact pointing.retains (.of_calm before) r taken

/-- Every such step leaves the slots that are taken with an entry. -/
theorem Pointing.step (pointing : Pointing s) (grouped : Grouped s) {event : Event} (taken : chargedStep s event t) :
    Pointing t := by
  obtain ⟨taken, stays, _⟩ := taken
  cases step_tables grouped.ranked (step_effect taken) with
  | kept _ retains => exact pointing.retains retains
  | reaps u _ _ reaps retains => exact (pointing.reaps reaps).retains retains
  | founds p u v _ calm founds _ retains which =>
    rcases which with ⟨_, charged, _⟩ | ⟨rfl, _, thread⟩
    · refine Pointing.retains (fun q busy => ?_) retains
      by_cases here : q = p
      · rw [here, charged]
        exact Option.some_ne_none 0
      · rw [founds.others q here] at busy ⊢
        exact pointing.retains (.of_calm calm) q busy
    · exact absurd (stays p rfl) thread
  | creates p np outcome started creates =>
    intro q busy
    by_cases here : q = np
    · rw [here] at busy ⊢
      rcases creates.slot with unused | ⟨m, points, _, _, _, _, joins⟩
      · exact absurd unused busy
      · obtain ⟨m', points', _, _, alive⟩ := grouped.master p started
        rw [points] at points'
        cases points'
        have other : m ≠ np := by
          rintro rfl
          rw [creates.unused] at alive
          contradiction
        rw [(joins other).pstride]
        refine pointing m fun unused => ?_
        rw [unused] at alive
        contradiction
    · obtain ⟨sz, stack, slot⟩ := creates.others q here
      rw [slot] at busy ⊢
      exact pointing q busy
  | shares p master inquire minPass u _ _ updated retains =>
    refine Pointing.retains (fun q busy => ?_) retains
    obtain ⟨v, e, popped, shares⟩ := shareUpdate_shares updated
    have before : (v.proc q).pstride = (s.proc q).pstride ∧ (v.proc q).state = (s.proc q).state := by
      rcases popped with ⟨n, empties⟩ | ⟨rfl, _⟩
      · rw [empties.proc q]
        split
        · exact ⟨rfl, rfl⟩
        · exact ⟨rfl, rfl⟩
      · exact ⟨rfl, rfl⟩
    rw [shares.proc q] at busy ⊢
    split
    · exact Option.some_ne_none e
    · rename_i other
      rw [if_neg other, before.2] at busy
      rw [before.1]
      exact pointing q busy
  | ticks p u _ charges requeues =>
    intro q busy
    obtain ⟨_, _, slot⟩ := requeues.slot q
    rw [slot, charges.proc] at busy ⊢
    exact pointing q busy

/-- The first process points to the first entry. -/
theorem Pointing.userinit (d : Nat) : Pointing (System.userinit d) := by
  intro q taken
  obtain ⟨others, slot, _, _⟩ := userinit_slots d
  have here : q = 0 := by
    by_contra other
    exact taken (others q other)
  rw [here, slot]
  change (((System.emptyTables.takeSlot 0).initSlot 0).proc 0).pstride ≠ none
  rw [(allocproc_founds Grouped.emptyTables.fresh 0).2]
  exact Option.some_ne_none 0

end Charging

/-- When no LWP leaves its group in `exec`, every LWP that runs or is runnable points to a used
entry: the first one in the queues, that of its group in the stride class. -/
theorem running_charged {d : Nat} {events : List Event} {t : System} (run : Run chargedStep (System.userinit d) events t)
    {p : Lwp} (active : (t.proc p).state = .runnable ∨ (t.proc p).state = .running) :
    ∃ e, (t.proc p).pstride = some e ∧ (t.sTable e).state = .used ∧
      ((t.proc p).schedstate = .mlfq → e = 0) ∧
      ((t.proc p).schedstate = .stride → (t.sTable e).pid = (t.proc p).pid) := by
  obtain ⟨grouped, queues, classed, pointing⟩ := run.invariant
    (fun s => Grouped s ∧ Queues s ∧ Classed s ∧ Pointing s)
    (fun s event t ⟨grouped, queues, classed, pointing⟩ taken => by
      have effect := step_effect taken.1
      obtain ⟨queues', classed'⟩ := classed.step queues grouped.ranked (grouped.moves _) (step_tables grouped.ranked effect)
      exact ⟨grouped.step effect taken.2.2, queues', classed', pointing.step grouped taken⟩)
    ⟨Grouped.userinit d, Queues.userinit d, Classed.userinit d, Pointing.userinit d⟩
  have started : (t.proc p).state.started = true := by
    rcases active with runnable | running
    · rw [runnable]
      rfl
    · rw [running]
      rfl
  have taken : (t.proc p).state ≠ .unused := by
    intro unused
    rw [unused] at started
    contradiction
  obtain ⟨m, _, whole, pid, alive⟩ := grouped.master p started
  have leader : Leads t m := by
    refine ⟨whole, fun unused => ?_⟩
    rw [unused] at alive
    contradiction
  have same := classed.agree m p leader taken pid.symm
  have points := pointing m leader.2
  rw [same.pstride, same.schedstate, ← pid]
  by_cases stride : (t.proc m).schedstate = .stride
  · obtain ⟨e, _, charged, used, owner⟩ := classed.entry m leader stride
    refine ⟨e, charged, used, fun queued => ?_, fun _ => owner⟩
    rw [stride] at queued
    contradiction
  · rcases classed.charged m leader stride with first | none
    · exact ⟨0, first, classed.first, fun _ => rfl, fun shared => absurd shared stride⟩
    · exact absurd none points

/-- The first process takes a fifth of the processor and is charged to entry 1. -/
theorem running_charged_shared :
    ∃ t, Run chargedStep (System.userinit 0) [.run 0, .shareCheck 0 20, .shareUpdate 0] t ∧
      (t.proc 0).schedstate = .stride ∧ ∃ e, (t.proc 0).pstride = some e ∧ (t.sTable e).state = .used := by
  have run : ∃ t, Run chargedStep (System.userinit 0) [.run 0, .shareCheck 0 20, .shareUpdate 0] t ∧
      (t.proc 0).state = .running ∧ (t.proc 0).schedstate = .stride := by
    refine ⟨_, .cons ⟨rfl, nofun, nofun⟩ (.cons ⟨rfl, nofun, nofun⟩ (.cons ⟨rfl, nofun, nofun⟩ (.nil _))), ?_, ?_⟩
    · decide +kernel
    · decide +kernel
  obtain ⟨t, run, running, stride⟩ := run
  obtain ⟨e, points, used, _⟩ := running_charged run (.inr running)
  exact ⟨t, run, stride, e, points, used⟩

/-- The second LWP of a process enters `exec` and runs with a null pointer, so that the next
tick cannot be charged. -/
theorem exec_clears_pstride :
    ∃ t, Run (fun s event t => s.step event = some t) (System.userinit 0)
        [.run 0, .fork 0 true, .forkCopy 0 (.copied 1), .run 1, .threadChoose 1, .threadCreate 1 .mapped,
          .run 2, .exec 2] t ∧
      (t.proc 2).state = .running ∧ (t.proc 2).pstride = none ∧ t.addPassStride 2 = none := by
  have outcome : ((Run.exec System.step [.run 0, .fork 0 true, .forkCopy 0 (.copied 1), .run 1, .threadChoose 1,
      .threadCreate 1 .mapped, .run 2, .exec 2] (System.userinit 0)).map fun t =>
        ((t.proc 2).state, (t.proc 2).pstride)) = some (.running, none) := by
    decide +kernel
  obtain ⟨t, executed, summary⟩ := Option.map_eq_some_iff.mp outcome
  rw [Prod.mk.injEq] at summary
  obtain ⟨running, null⟩ := summary
  refine ⟨t, Run.of_exec executed, running, null, ?_⟩
  unfold System.addPassStride
  rw [null]

end Xv6
