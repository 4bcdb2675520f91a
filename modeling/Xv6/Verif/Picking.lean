import Mathlib.Algebra.Group.Fin.Basic
import Xv6.Verif.Counters
import Xv6.Verif.Placing

/-!
# The scheduler finds a runnable LWP

`pick_stride` looks for the least pass among the used entries, then for a queue node with a
runnable group, then for the least pass again. Where every group of a runnable LWP has its master
and a node or an entry, one of the three searches succeeds.
-/

namespace Xv6

open Occupancy

/-- The counters of the queues are not too small. -/
def Covered (s : System) : Prop := ∀ k, 0 ≤ s.surplus k

/-- The pass that `add_pass_stride` resets at. -/
def maxPass : Int := 100000000

/-- The used entries have small passes. -/
def SmallPasses (s : System) : Prop := ∀ e, (s.sTable e).state = .used → (s.sTable e).pass ≤ maxPass

/-- The passes that calls of `set_cpu_share` keep are small. -/
def SmallOffers (s : System) : Prop :=
  ∀ p m inquire minPass, s.call p = .setCpuShare m inquire minPass → minPass ≤ maxPass

section Picking

variable {s t u : System} {p q : Lwp} {pid : Nat}

/-! ## The searches -/

/-- `isRunnable`. -/
theorem isRunnable_iff : s.isRunnable pid = true ↔ ∃ p, (s.proc p).pid = pid ∧ (s.proc p).state = .runnable := by
  unfold System.isRunnable
  rw [List.any_eq_true]
  constructor
  · rintro ⟨p, _, found⟩
    rw [Bool.and_eq_true, beq_iff_eq, decide_eq_true_eq] at found
    exact ⟨p, found⟩
  · rintro ⟨p, found⟩
    refine ⟨p, List.mem_finRange p, ?_⟩
    rw [Bool.and_eq_true, beq_iff_eq, decide_eq_true_eq]
    exact found

/-- A search in cyclic order visits every index. -/
theorem mem_indexesAfter (recent i : Fin NPROC) : i ∈ indexesAfter recent := by
  unfold indexesAfter
  rw [List.mem_map]
  exact ⟨i - (recent + 1), List.mem_finRange _, add_sub_cancel _ _⟩

/-- `pick_lwp` finds a runnable LWP of a group that has one. -/
theorem pickLwp_runnable (grouped : Grouped s) (runnable : s.isRunnable pid = true) :
    ∃ q u, s.pickLwp pid = some (some q, u) ∧ (s.proc q).state = .runnable := by
  obtain ⟨p, same, state⟩ := isRunnable_iff.mp runnable
  have started : (s.proc p).state.started = true := by
    rw [state]
    rfl
  obtain ⟨m, _, whole, owner, _⟩ := grouped.master p started
  unfold System.pickLwp
  cases found : s.findMaster pid with
  | none =>
    have refused := List.find?_eq_none.mp found m (List.mem_finRange m)
    rw [Bool.and_eq_true, beq_iff_eq, beq_iff_eq] at refused
    exact absurd ⟨owner.trans same, whole⟩ refused
  | some master =>
    simp only
    split
    · rename_i q picked
      have wanted := List.find?_some picked
      rw [Bool.and_eq_true, decide_eq_true_eq] at wanted
      exact ⟨q, _, rfl, wanted.1⟩
    · rename_i missed
      have refused := List.find?_eq_none.mp missed p (mem_indexesAfter _ p)
      rw [Bool.and_eq_true, decide_eq_true_eq, beq_iff_eq] at refused
      exact absurd ⟨state, same⟩ refused

/-- `pick_mlfq` finds a runnable LWP, unless no queue has a node with a runnable group. -/
theorem pickQueues_runnable (grouped : Grouped s) (covered : Covered s) (queues : List (Fin 3)) :
    (∃ q u, s.pickQueues queues = some (some q, u) ∧ (s.proc q).state = .runnable) ∨
      s.pickQueues queues = some (none, s) ∧ ∀ n : NodeRef, n.1 ∈ queues → s.nodeReady n = false := by
  induction queues with
  | nil => exact .inr ⟨rfl, fun _ member => absurd member List.not_mem_nil⟩
  | cons prior rest ih =>
    -- nothing in this queue
    have skip : (∀ i, s.nodeReady (prior, i) = false) →
        (∃ q u, s.pickQueues rest = some (some q, u) ∧ (s.proc q).state = .runnable) ∨
          s.pickQueues rest = some (none, s) ∧ ∀ n : NodeRef, n.1 ∈ prior :: rest → s.nodeReady n = false := by
      intro idle
      rcases ih with found | ⟨missed, none⟩
      · exact .inl found
      · refine .inr ⟨missed, fun n member => ?_⟩
        rcases List.mem_cons.mp member with here | there
        · have index : n = (prior, n.2) := Prod.ext here rfl
          rw [index]
          exact idle n.2
        · exact none n there
    unfold System.pickQueues
    split
    · rename_i empty
      refine skip fun i => ?_
      have few := Int.sub_nonneg.mp (covered prior)
      rw [empty] at few
      have unused := count_zero.mp (Int.ofNat_eq_zero.mp (Int.le_antisymm few (Int.natCast_nonneg _))) i
      unfold System.nodeReady
      rw [decide_eq_false unused, Bool.false_and]
    · split
      · rename_i i found
        left
        have ready := List.find?_some found
        unfold System.nodeReady at ready
        rw [Bool.and_eq_true] at ready
        have calm := Calm.remember s prior i
        exact pickLwp_runnable (grouped.congr calm.groups) ready.2
      · rename_i missed
        refine skip fun i => ?_
        exact Bool.eq_false_iff.mpr (List.find?_eq_none.mp missed i (mem_indexesAfter _ i))

/-- The first loop of `pick_stride` keeps its start or finds an entry with a runnable group. -/
theorem lessPass_runnable (entries : List Entry) (ret : Entry) :
    entries.foldl s.lessPass ret = ret ∨
      s.isRunnable (s.sTable (entries.foldl s.lessPass ret)).pid = true := by
  induction entries generalizing ret with
  | nil => exact .inl rfl
  | cons e rest ih =>
    rw [List.foldl_cons]
    have one : s.lessPass ret e = ret ∨ s.lessPass ret e = e ∧ s.isRunnable (s.sTable e).pid = true := by
      unfold System.lessPass
      split
      · exact .inl rfl
      · split
        · exact .inl rfl
        · rename_i runnable
          split
          · exact .inr ⟨rfl, by simpa using runnable⟩
          · exact .inl rfl
    rcases ih (s.lessPass ret e) with same | runnable
    · rw [same]
      rcases one with kept | ⟨moved, runnable⟩
      · exact .inl kept
      · rw [moved]
        exact .inr runnable
    · exact .inr runnable

/-- The second loop of `pick_stride` finds an entry with a runnable group if one has a pass below
its start. -/
theorem leastPass_runnable (entries : List Entry) (best : Int × Entry)
    (known : best.1 = 1000000000 ∨ s.isRunnable (s.sTable best.2).pid = true)
    (some : best.1 < 1000000000 ∨ ∃ e ∈ entries, (s.sTable e).state ≠ .empty ∧
      s.isRunnable (s.sTable e).pid = true ∧ (s.sTable e).pass < 1000000000) :
    s.isRunnable (s.sTable (entries.foldl s.leastPass best).2).pid = true := by
  induction entries generalizing best with
  | nil =>
    rcases known with start | runnable
    · rcases some with less | ⟨_, member, _⟩
      · omega
      · exact absurd member List.not_mem_nil
    · exact runnable
  | cons e rest ih =>
    rw [List.foldl_cons]
    refine ih _ ?_ ?_
    · unfold System.leastPass
      split
      · exact known
      · split
        · exact known
        · rename_i runnable
          split
          · exact .inr (by simpa using runnable)
          · exact known
    · rcases some with less | ⟨e', member, used, runnable, small⟩
      · left
        unfold System.leastPass
        split
        · exact less
        · split
          · exact less
          · split
            · rename_i smaller
              exact Int.lt_trans smaller less
            · exact less
      · rcases List.mem_cons.mp member with rfl | there
        · left
          unfold System.leastPass
          rw [if_neg used, runnable, Bool.not_true, if_neg Bool.false_ne_true]
          split
          · exact small
          · rename_i notSmaller
            omega
        · exact .inr ⟨e', there, used, runnable, small⟩

/-- `pick_stride` returns a runnable LWP if there is one. -/
theorem pickStride_runnable (grouped : Grouped s) (classed : Classed s) (placed : Placed s) (covered : Covered s)
    (small : SmallPasses s) (runnable : ∃ p, (s.proc p).state = .runnable) :
    ∃ q u, s.pickStride = some (some q, u) ∧ (s.proc q).state = .runnable := by
  unfold System.pickStride
  simp only
  split
  · rename_i none
    rw [none]
    rcases pickQueues_runnable grouped covered (List.finRange 3) with ⟨q, u, found, state⟩ | ⟨missed, idle⟩
    · refine ⟨q, u, ?_, state⟩
      unfold System.pickMlfq
      rw [found]
    · unfold System.pickMlfq
      rw [missed]
      simp only
      refine pickLwp_runnable grouped (leastPass_runnable _ _ (.inl rfl) (.inr ?_))
      obtain ⟨p, state⟩ := runnable
      have started : (s.proc p).state.started = true := by
        rw [state]
        rfl
      obtain ⟨m, _, whole, owner, alive⟩ := grouped.master p started
      have leader : Leads s m := by
        refine ⟨whole, fun unused => ?_⟩
        rw [unused] at alive
        contradiction
      have ready : s.isRunnable (s.proc m).pid = true := isRunnable_iff.mpr ⟨p, owner.symm, state⟩
      have stride : (s.proc m).schedstate = .stride := by
        by_contra out
        obtain ⟨_, n, _, used, same⟩ := placed.placed m leader out
        have refused := idle n (List.mem_finRange n.1)
        unfold System.nodeReady at refused
        rw [same, ready, decide_eq_true used] at refused
        contradiction
      obtain ⟨e, _, _, used, same⟩ := classed.entry m leader stride
      refine ⟨e, List.mem_finRange e, ?_, ?_, ?_⟩
      · rw [used]
        exact StrideState.noConfusion
      · rw [same]
        exact ready
      · have small := small e used
        unfold maxPass at small
        omega
  · rename_i found
    rcases lessPass_runnable (s := s) (List.finRange NPROC) 0 with same | runnable
    · exact absurd same found
    · exact pickLwp_runnable grouped runnable

/-! ## The passes -/

/-- Moving pids changes no entry. -/
theorem Requeues.sTable (requeues : Requeues s t) : t.sTable = s.sTable := by
  induction requeues with
  | nil => rfl
  | tick ticked _ ih => exact ih.trans ticked.sTable
  | @move s t u pid prior _ popped _ ih =>
    obtain ⟨n, empties⟩ := popMlfq_empties popped
    rcases pushMlfq_fills t pid prior with ⟨i, fills⟩ | ⟨_, same⟩
    · exact ih.trans (fills.sTable.trans empties.sTable)
    · rw [same] at ih
      exact ih.trans empties.sTable

/-- `add_pass_stride` keeps passes small. -/
theorem SmallPasses.charges (small : SmallPasses s) (charged : s.addPassStride p = some t) : SmallPasses t := by
  unfold System.addPassStride at charged
  split at charged
  · contradiction
  · rename_i e _
    simp only at charged
    split at charged
    · cases charged
      intro e' used
      unfold System.resetPasses at used ⊢
      simp only at used ⊢
      split
      · rename_i unused
        rw [if_pos unused] at used
        exact absurd used unused
      · exact Int.zero_le_ofNat _
    · rename_i below
      cases charged
      intro e' used
      by_cases here : e' = e
      · rw [here]
        unfold maxPass
        omega
      · unfold System.charge at used ⊢
        simp only [Function.update_of_ne here] at used ⊢
        exact small e' used

/-- Zombies are deleted. -/
theorem SmallPasses.reaps (reaps : Reaps s t) (small : SmallPasses s) (classed : Classed s) (queues : Queues s)
    (ranked : Ranked s) : SmallPasses t := by
  induction reaps with
  | calm calm =>
    intro e used
    rw [calm.classes.sTable] at used ⊢
    exact small e used
  | @reap s t u v q before zombie deleted _ ih =>
    have between := ranked.congr before.groups
    have sorted := classed.retains ranked.positive (.of_calm before)
    have ordered := queues.retains (.of_calm before)
    refine ih ?_ (sorted.deleteThread between zombie deleted)
      (ordered.drops (deleteThread_drops deleted) (Nat.le_of_eq (System.deleteThread_rest deleted).1.symm))
      (between.deleteThread zombie deleted)
    intro e used
    have kept : ∀ e, (u.sTable e).state = .used → (u.sTable e).pass ≤ maxPass := by
      rw [before.classes.sTable]
      exact small
    cases deleteThread_drops deleted with
    | none _ _ entries =>
      rw [entries] at used ⊢
      exact kept e used
    | node _ _ _ _ _ _ _ entries =>
      rw [entries] at used ⊢
      exact kept e used
    | entry e' whole stride charged _ entries =>
      obtain ⟨own, away, same, _⟩ := sorted.entry q ⟨whole, by rw [zombie]; exact RunState.noConfusion⟩ stride
      rw [charged] at same
      cases same
      obtain ⟨empty, others⟩ := entries away
      have other : e ≠ e' := by
        rintro rfl
        rw [empty] at used
        contradiction
      rw [(others e other).1] at used
      rw [(others e other).2.2]
      exact kept e used

/-- Every step keeps passes small. -/
theorem SmallPasses.step {event : Event} (small : SmallPasses s) (queues : Queues s) (classed : Classed s)
    (ranked : Ranked s) (offers : SmallOffers s) (tables : TableStep s event t) : SmallPasses t := by
  have same : ∀ {u v : System}, SmallPasses u → v.sTable = u.sTable → SmallPasses v := by
    intro u v small entries e used
    rw [entries] at used ⊢
    exact small e used
  cases tables with
  | kept _ retains => exact same small retains.sTable
  | reaps u _ _ reaps retains => exact same (SmallPasses.reaps reaps small classed queues ranked) retains.sTable
  | founds p u v _ calm founds _ retains _ =>
    exact same small ((retains.sTable.trans founds.sTable).trans calm.classes.sTable)
  | creates p np outcome _ creates => exact same small creates.sTable
  | shares p master inquire minPass u _ call updated retains =>
    refine same ?_ retains.sTable
    obtain ⟨v, e, popped, shares⟩ := shareUpdate_shares updated
    have moved : SmallPasses v := by
      rcases popped with ⟨n, empties⟩ | ⟨rfl, _⟩
      · exact same small empties.sTable
      · exact small
    intro e' used
    by_cases here : e' = e
    · rw [here, shares.entry.2.2]
      exact offers p master inquire minPass call
    · rw [(shares.others e' here).1] at used
      rw [(shares.others e' here).2.2]
      exact moved e' used
  | ticks p u charged _ requeues => exact same (small.charges charged) requeues.sTable

/-! ## Offers of `set_cpu_share` -/

/-- A call that is kept or is no `set_cpu_share`. -/
def SameOffers (s t : System) : Prop := ∀ q, t.call q = s.call q ∨ ∀ m inquire minPass, t.call q ≠ .setCpuShare m inquire minPass

/-- Two changes. -/
theorem SameOffers.trans (first : SameOffers s t) (second : SameOffers t u) : SameOffers s u := by
  intro q
  rcases second q with same | other
  · rw [same]
    exact first q
  · exact .inr other

/-- The calls are the same. -/
theorem SameOffers.of_eq (same : t.call = s.call) : SameOffers s t := fun q => .inl (congrFun same q)

/-- A change of nothing that groups depend on. -/
theorem SameOffers.of_groups (groups : SameGroups s t) : SameOffers s t := by
  intro q
  rcases groups.call q with same | plain
  · exact .inl same
  · refine .inr fun m inquire minPass other => ?_
    rw [other] at plain
    contradiction

/-- Another call is entered. -/
theorem SameOffers.setCall {call : Call} (other : ∀ m inquire minPass, call ≠ .setCpuShare m inquire minPass) :
    SameOffers s (s.setCall p call) := by
  intro q
  by_cases here : q = p
  · rw [here, System.setCall_self]
    exact .inr other
  · rw [System.setCall_other _ _ here]
    exact .inl rfl

/-- A call is left. -/
theorem SameOffers.leave (s : System) (p : Lwp) : SameOffers s (s.setCall p .none) := .setCall nofun

/-- Zombies are deleted. -/
theorem SameOffers.reaps (reaps : Reaps s t) : SameOffers s t := by
  induction reaps with
  | calm calm => exact .of_groups calm.groups
  | reap q before _ deleted _ ih =>
    exact (SameOffers.of_groups before.groups).trans ((SameOffers.of_eq (System.deleteThread_rest deleted).2.2).trans ih)

/-- `fork` up to the return of `allocproc`. -/
theorem SameOffers.fork (s : System) (p : Lwp) (kalloc : Bool) : SameOffers s (s.fork p kalloc) := by
  rcases fork_cases s p kalloc with same | ⟨np, _, _, same⟩ | ⟨np, _, _, same⟩
  · rw [same]
    exact .of_eq rfl
  · rw [same]
    exact .of_eq rfl
  · rw [same]
    exact (SameOffers.of_eq (s := s) (Sorted.initSlot (s.takeSlot np) np).call).trans (.setCall nofun)

/-- The rest of `fork`. -/
theorem SameOffers.forkCopy {result : CopyResult} (copied : s.forkCopy p q result = some t) : SameOffers s t := by
  rcases forkCopy_some copied with ⟨_, u, rfl, discarded, rfl⟩ | ⟨_, rfl, _, rfl⟩
  · exact (SameOffers.of_eq (discard_groups discarded).2.1).trans (.setCall nofun)
  · exact ((SameOffers.of_eq rfl).trans (.leave _ q)).trans (.leave _ p)

/-- The rest of `thread_create`. -/
theorem SameOffers.threadCreate {tid : Nat} {outcome : StackOutcome}
    (created : s.threadCreate p tid outcome = some t) : SameOffers s t := by
  obtain ⟨np, v, w, master, base, _, returned, _, taken, rfl⟩ := threadCreate_some created
  have sorted : Sorted (s.takeSlot np) w :=
    ((Sorted.initSlot _ np).trans (.returnNode returned)).trans (.takeBase taken)
  have same : SameOffers s w := .of_eq sorted.call
  refine SameOffers.trans (same.trans ?_) (.setCall nofun)
  cases outcome with
  | noMemory => exact .of_eq rfl
  | noCopy => exact .of_eq rfl
  | mapped => exact .setCall nofun

/-- Only `set_cpu_share` makes an offer, and it is small. -/
theorem SmallOffers.step (offers : SmallOffers s) (small : SmallPasses s) (classed : Classed s) {event : Event}
    (effect : Effect s event t) : SmallOffers t := by
  have keeps : SameOffers s t → SmallOffers t := by
    intro same q m inquire minPass offer
    rcases same q with kept | other
    · exact offers q m inquire minPass (kept.symm.trans offer)
    · exact absurd offer (other m inquire minPass)
  cases effect with
  | calm _ calm => exact keeps (.of_groups calm.groups)
  | fork p kalloc _ _ => exact keeps (.fork s p kalloc)
  | forkCopy p np result _ _ copied => exact keeps (.forkCopy copied)
  | threadChoose p _ _ => exact keeps (.setCall nofun)
  | threadCreate p tid outcome _ _ created => exact keeps (.threadCreate created)
  | threadExit p retval u _ _ before after =>
    exact keeps ((SameOffers.of_groups before.groups).trans ((SameOffers.of_eq (s := u) (t := u.zombie p) rfl).trans (.of_groups after.groups)))
  | reaps p _ _ _ reaps => exact keeps (.reaps reaps)
  | exit p _ u _ _ reaps _ after =>
    exact keeps ((SameOffers.reaps reaps).trans ((SameOffers.of_eq (s := u) (t := u.zombie p) rfl).trans (.of_groups after.groups)))
  | detach p _ _ _ =>
    have left : SameOffers s ((s.killOthers p).leaveGroup p) := .of_eq rfl
    exact keeps ((left.trans (.of_eq (Sorted.pushMlfq _ _ 0).call)).trans (.setCall nofun))
  | exec p _ _ _ => exact keeps (.setCall nofun)
  | execFail p begun _ discarded => exact keeps ((SameOffers.of_eq (discard_groups discarded).2.1).trans (.setCall nofun))
  | execCommit p isMaster pgdir sz _ _ committed => exact keeps (.of_groups (execCommit_groups committed))
  | shareCheck p master inquire minPass _ _ _ checked =>
    intro q m inquire' minPass' offer
    by_cases here : q = p
    · rw [here, System.setCall_self] at offer
      cases offer
      unfold System.shareCheck at checked
      split at checked
      · contradiction
      · split at checked
        · contradiction
        · split at checked
          · contradiction
          · cases checked
            exact Int.le_trans (Int.min_le_right _ _) (small 0 classed.first)
    · rw [System.setCall_other _ _ here] at offer
      exact offers q m inquire' minPass' offer
  | shareUpdate p master inquire minPass _ _ updated =>
    exact keeps ((SameOffers.of_eq (Sorted.shareUpdate updated).call).trans (.setCall nofun))
  | tick p yields _ ticked => exact keeps (.of_eq (Sorted.addTick ticked).call)

/-- The passes at the start. -/
theorem SmallPasses.userinit (d : Nat) : SmallPasses (System.userinit d) := by
  intro e _
  obtain ⟨founds, _⟩ := allocproc_founds Grouped.emptyTables.fresh 0
  unfold System.userinit
  rw [allocproc_first]
  change Stride.pass (Function.update ((System.emptyTables.takeSlot 0).initSlot 0).sTable 0 _ e) ≤ maxPass
  rw [founds.sTable]
  by_cases here : e = 0
  · rw [here, Function.update_self]
    exact Int.zero_le_ofNat _
  · rw [Function.update_of_ne here]
    exact Int.zero_le_ofNat _

/-- Nobody is in `set_cpu_share` at the start. -/
theorem SmallOffers.userinit (d : Nat) : SmallOffers (System.userinit d) := by
  intro q m inquire minPass offer
  have calls : (System.userinit d).call q = .none := by
    unfold System.userinit
    rw [allocproc_first]
    exact congrFun (Sorted.initSlot (System.emptyTables.takeSlot 0) 0).call q
  rw [calls] at offer
  contradiction

end Picking

/-! ## Runs -/

/-- A step in which a master calls `thread_exit` only when it is alone, and a node is taken only
while fewer nodes are used than a queue has. -/
def roomyStep (s : System) (event : Event) (t : System) : Prop :=
  s.step event = some t ∧ (∀ p retval, event = .threadExit p retval → (s.proc p).tid = 1 → Alone s p) ∧
    (TakesNode s event → s.usedNodes < NPROC)

/-- In such a run `pick_stride` returns a runnable LWP whenever there is one. -/
theorem pickStride_finds {d : Nat} {events : List Event} {t : System} (run : Run roomyStep (System.userinit d) events t)
    (runnable : ∃ p, (t.proc p).state = .runnable) :
    ∃ q u, t.pickStride = some (some q, u) ∧ (t.proc q).state = .runnable := by
  obtain ⟨grouped, _, classed, placed, covered, small, _⟩ := run.invariant
    (fun s => Grouped s ∧ Queues s ∧ Classed s ∧ Placed s ∧ Covered s ∧ SmallPasses s ∧ SmallOffers s)
    (fun s event t ⟨grouped, queues, classed, placed, covered, small, offers⟩ taken => by
      have effect := step_effect taken.1
      have tables := step_tables grouped.ranked effect
      obtain ⟨queues', classed'⟩ := classed.step queues grouped.ranked (grouped.moves _) tables
      exact ⟨grouped.step effect taken.2.1, queues', classed', placed.step queues classed grouped.ranked (grouped.moves _) taken.2.2 tables,
        fun k => Int.le_trans (covered k) (tables.surplus_le queues classed grouped k),
        small.step queues classed grouped.ranked offers tables, offers.step small classed effect⟩)
    ⟨Grouped.userinit d, Queues.userinit d, Classed.userinit d, Placed.userinit d,
      fun k => Int.le_of_eq (surplus_userinit d k).symm, SmallPasses.userinit d, SmallOffers.userinit d⟩
  exact pickStride_runnable grouped classed placed covered small runnable

/-- The first process has forked a child, which is runnable. -/
theorem pickStride_finds_fork :
    ∃ t, Run roomyStep (System.userinit 0) [.run 0, .fork 0 true, .forkCopy 0 (.copied 1)] t ∧
      ∃ q u, t.pickStride = some (some q, u) ∧ (t.proc q).state = .runnable := by
  have run : ∃ t, Run roomyStep (System.userinit 0) [.run 0, .fork 0 true, .forkCopy 0 (.copied 1)] t ∧
      (t.proc 1).state = .runnable := by
    refine ⟨_, .cons ⟨rfl, nofun, ?_⟩ (.cons ⟨rfl, nofun, ?_⟩ (.cons ⟨rfl, nofun, ?_⟩ (.nil _))), ?_⟩
    · rintro (⟨⟨_, fork⟩, _⟩ | ⟨_, _, create⟩ | ⟨_, exec, _⟩)
      · exact Event.noConfusion fork
      · exact Event.noConfusion create
      · exact Event.noConfusion exec
    · intro _
      decide +kernel
    · rintro (⟨⟨_, fork⟩, _⟩ | ⟨_, _, create⟩ | ⟨_, exec, _⟩)
      · exact Event.noConfusion fork
      · exact Event.noConfusion create
      · exact Event.noConfusion exec
    · decide +kernel
  obtain ⟨t, run, runnable⟩ := run
  exact ⟨t, run, pickStride_finds run ⟨1, runnable⟩⟩

/-- The master of a process with two LWPs calls `thread_exit` and is collected by `wait`: the
other LWP is runnable and `pick_stride` follows a null pointer. -/
theorem pickStride_loses_orphan :
    ∃ t, Run (fun s event t => s.step event = some t) (System.userinit 0)
        [.run 0, .fork 0 true, .forkCopy 0 (.copied 1), .run 1, .threadChoose 1, .threadCreate 1 .mapped,
          .threadExit 1 7, .wait 0, .sleep 0 0] t ∧
      (t.proc 2).state = .runnable ∧ t.pickStride.isNone = true := by
  have outcome : ((Run.exec System.step [.run 0, .fork 0 true, .forkCopy 0 (.copied 1), .run 1, .threadChoose 1,
      .threadCreate 1 .mapped, .threadExit 1 7, .wait 0, .sleep 0 0] (System.userinit 0)).map fun t =>
        ((t.proc 2).state, t.pickStride.isNone)) = some (.runnable, true) := by
    decide +kernel
  obtain ⟨t, executed, summary⟩ := Option.map_eq_some_iff.mp outcome
  rw [Prod.mk.injEq] at summary
  exact ⟨t, Run.of_exec executed, summary⟩

end Xv6
