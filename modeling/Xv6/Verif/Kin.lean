import Xv6.Verif.Counters

/-!
# Kin

What a step does to the parent of a slot, to the value its LWP passed to `thread_exit` and to
its place in its group, slot by slot. Most steps leave a slot as it is; the others start, end or
delete it, pass it to init or move it out of its group.
-/

namespace Xv6

/-- The slot is in its group and as alive as before, with its parent and its value. -/
structure Proc.Steady (q r : Proc) : Prop extends Proc.SameGroup q r where
  retVal : r.retVal = q.retVal
  parent : r.parent = q.parent

/-- Every slot is steady. -/
def Steady (s t : System) : Prop := ∀ q, (s.proc q).Steady (t.proc q)

/-! ## Steady functions -/

section SteadyFunctions

variable {q r v : Proc} {s t u : System} {p : Lwp}

/-- Nothing changed. -/
theorem Proc.Steady.refl (q : Proc) : q.Steady q := ⟨.refl q, rfl, rfl⟩

/-- Two changes. -/
theorem Proc.Steady.trans (first : q.Steady r) (second : r.Steady v) : q.Steady v :=
  ⟨first.toSameGroup.trans second.toSameGroup, second.retVal.trans first.retVal, second.parent.trans first.parent⟩

/-- A change of what no kin depends on, with a state that is as alive. -/
theorem Proc.Steady.of_state (state : r.state = q.state ∨ q.state.started = true ∧ r.state.started = true)
    (same : r.pid = q.pid ∧ r.tid = q.tid ∧ r.master = q.master ∧ r.retVal = q.retVal ∧ r.parent = q.parent) :
    q.Steady r :=
  ⟨⟨same.1, same.2.1, same.2.2.1, state⟩, same.2.2.2.1, same.2.2.2.2⟩

/-- Nothing changed. -/
theorem Steady.refl (s : System) : Steady s s := fun _ => .refl _

/-- The slots are those of before. -/
theorem Steady.of_proc (same : t.proc = s.proc) : Steady s t := by
  intro q
  rw [same]
  exact .refl _

/-- Two changes. -/
theorem Steady.trans (first : Steady s t) (second : Steady t u) : Steady s u := fun q => (first q).trans (second q)

/-- Replacing one slot. -/
theorem Steady.setProc (steady : (s.proc p).Steady q) : Steady s (s.setProc p q) := by
  intro r
  by_cases here : r = p
  · rw [here, System.setProc_self]
    exact steady
  · rw [System.setProc_other _ _ here]
    exact .refl _

/-- Changing every slot. -/
theorem Steady.mapProc {change : Proc → Proc} (steady : ∀ q : Proc, q.Steady (change q)) :
    Steady s (s.mapProc change) := fun p => steady (s.proc p)

/-- `wakeup1`. -/
theorem Steady.wakeup1 (s : System) (chan : Option Chan) : Steady s (s.wakeup1 chan) := by
  refine .mapProc fun q => ?_
  by_cases asleep : q.state = .sleeping ∧ q.chan = chan
  · rw [if_pos asleep]
    refine .of_state (.inr ⟨?_, rfl⟩) ⟨rfl, rfl, rfl, rfl, rfl⟩
    rw [asleep.1]
    rfl
  · rw [if_neg asleep]
    exact .refl q

/-- Setting `killed`. -/
theorem Steady.setKilled (s : System) (p : Lwp) : Steady s (s.setProc p { s.proc p with killed := true }) :=
  .setProc (.of_state (.inl rfl) ⟨rfl, rfl, rfl, rfl, rfl⟩)

/-- `sleep` of a started process. -/
theorem Steady.sleep (started : (s.proc p).state.started = true) (chan : Chan) : Steady s (s.sleep p chan) :=
  .setProc (.of_state (.inr ⟨started, rfl⟩) ⟨rfl, rfl, rfl, rfl, rfl⟩)

/-- A started process gets a processor. -/
theorem Steady.start (started : (s.proc p).state.started = true) : Steady s (s.start p) :=
  .setProc (.of_state (.inr ⟨started, rfl⟩) ⟨rfl, rfl, rfl, rfl, rfl⟩)

/-- `kill`. -/
theorem Steady.kill (s : System) (pid : Nat) : Steady s (s.kill pid) := by
  unfold System.kill
  split
  · exact .refl s
  · rename_i q _
    refine .setProc (.of_state ?_ ⟨rfl, rfl, rfl, rfl, rfl⟩)
    by_cases asleep : (s.proc q).state = .sleeping
    · simp only [asleep, if_true]
      exact .inr ⟨rfl, rfl⟩
    · simp only [asleep, if_false]
      exact .inl trivial

/-- The loop of `exec_delete_thread`. -/
theorem Steady.killOthers (s : System) (p : Lwp) : Steady s (s.killOthers p) := by
  intro q
  show (s.proc q).Steady (if (s.proc q).master = (s.proc p).master ∧ q ≠ p then _ else _)
  split
  · refine .of_state ?_ ⟨rfl, rfl, rfl, rfl, rfl⟩
    by_cases asleep : (s.proc q).state = .sleeping
    · simp only [asleep, if_true]
      exact .inr ⟨rfl, rfl⟩
    · simp only [asleep, if_false]
      exact .inl trivial
  · exact .refl _

/-- `pick_lwp`. -/
theorem Steady.pickLwp {pid : Nat} {picked : Option Lwp} (result : s.pickLwp pid = some (picked, t)) : Steady s t := by
  unfold System.pickLwp at result
  split at result
  · contradiction
  · simp only at result
    split at result
    · cases result
      exact .setProc (.of_state (.inl rfl) ⟨rfl, rfl, rfl, rfl, rfl⟩)
    · split at result
      · cases result
        exact .refl s
      · cases result
        exact .refl s

/-- `pick_mlfq`. -/
theorem Steady.pickQueues {queues : List (Fin 3)} {picked : Option Lwp}
    (result : s.pickQueues queues = some (picked, t)) : Steady s t := by
  induction queues with
  | nil =>
    cases result
    exact .refl s
  | cons prior rest ih =>
    unfold System.pickQueues at result
    split at result
    · exact ih result
    · split at result
      · exact fun q => Steady.pickLwp result q
      · exact ih result

/-- `pick_stride`. -/
theorem Steady.pickStride {picked : Option Lwp} (result : s.pickStride = some (picked, t)) : Steady s t := by
  unfold System.pickStride at result
  simp only at result
  split at result
  · split at result
    · contradiction
    · rename_i found
      cases result
      exact .pickQueues found
    · rename_i missed
      exact (Steady.pickQueues missed).trans (.pickLwp result)
  · exact .pickLwp result

/-- `add_tick`. -/
theorem Steady.addTick {yields : Bool} (positive : 0 < (s.proc p).pid) (ticked : s.addTick p = some (yields, t)) :
    Steady s t := by
  obtain ⟨u, _, charges, requeues⟩ := addTick_requeues positive ticked
  intro q
  obtain ⟨schedstate, pmlfqNode, slot⟩ := requeues.slot q
  rw [slot, charges.proc]
  exact .of_state (.inl rfl) ⟨rfl, rfl, rfl, rfl, rfl⟩

/-- The locked part of `set_cpu_share`. -/
theorem Steady.shareUpdate {master : Lwp} {inquire minPass : Int}
    (updated : s.shareUpdate master inquire minPass = some t) : Steady s t := by
  obtain ⟨u, e, popped, shares⟩ := shareUpdate_shares updated
  have first : Steady s u := by
    rcases popped with ⟨n, empties⟩ | ⟨rfl, _⟩
    · intro q
      rw [empties.proc q]
      split
      · exact .of_state (.inl rfl) ⟨rfl, rfl, rfl, rfl, rfl⟩
      · exact .refl _
    · exact .refl _
  refine first.trans fun q => ?_
  rw [shares.proc q]
  split
  · exact .of_state (.inl rfl) ⟨rfl, rfl, rfl, rfl, rfl⟩
  · exact .refl _

/-- `push_mlfq`. -/
theorem Steady.pushMlfq (s : System) (pid : Nat) (prior : Fin 3) : Steady s (s.pushMlfq pid prior) := by
  rcases pushMlfq_fills s pid prior with ⟨i, fills⟩ | ⟨_, same⟩
  · intro q
    rw [fills.proc q]
    split
    · exact .of_state (.inl rfl) ⟨rfl, rfl, rfl, rfl, rfl⟩
    · exact .refl _
  · rw [same]
    exact .refl s

/-- The rest of `allocproc`. -/
theorem Steady.initSlot (s : System) (p : Lwp) : Steady s (s.initSlot p) := by
  have stacked : Steady s (s.setProc p { s.proc p with kstack := true }) :=
    .setProc (.of_state (.inl rfl) ⟨rfl, rfl, rfl, rfl, rfl⟩)
  unfold System.initSlot
  simp only
  exact (stacked.trans (.pushMlfq _ _ 0)).trans (.setProc (.of_state (.inl rfl) ⟨rfl, rfl, rfl, rfl, rfl⟩))

/-- `thread_create` gives back a queue node. -/
theorem Steady.returnNode (returned : s.returnNode p = some t) : Steady s t := by
  unfold System.returnNode at returned
  split at returned
  · contradiction
  · cases returned
    exact .of_proc rfl

/-- The base of a new stack is taken from the master. -/
theorem Steady.takeBase {master : Lwp} {base : Nat} (taken : s.takeBase master = (base, t)) : Steady s t := by
  intro q
  obtain ⟨_, _, slot⟩ := (takeBase_some taken).1 q
  rw [slot]
  exact .of_state (.inl rfl) ⟨rfl, rfl, rfl, rfl, rfl⟩

/-- The commit of `exec`. -/
theorem Steady.execCommit {isMaster : Bool} {pgdir sz : Nat}
    (committed : s.execCommit p isMaster pgdir sz = some t) : Steady s t := by
  have moved : Steady s ({ s with dirs := Function.update s.dirs pgdir true }.setProc p
      { s.proc p with pgdir := some pgdir, sz }) :=
    Steady.trans (t := { s with dirs := Function.update s.dirs pgdir true }) (.of_proc rfl)
      (.setProc (.of_state (.inl rfl) ⟨rfl, rfl, rfl, rfl, rfl⟩))
  unfold System.execCommit at committed
  split at committed
  · contradiction
  · simp only at committed
    split at committed
    · cases committed
      exact moved
    · contradiction
    · cases committed
      exact moved.trans (.of_proc rfl)

end SteadyFunctions

/-! ## What a step does to a slot -/

/-- The step runs a loop that passes children to init. -/
def Event.passing : Event → Bool
  | .threadExit _ _ => true
  | .exit _ => true
  | _ => false

/-- A slot that `delete_thread` has cleared. -/
structure Proc.Cleared (q : Proc) : Prop where
  state : q.state = .unused
  pid : q.pid = 0
  tid : q.tid = 0
  parent : q.parent = none

/-- The loop in which a step deletes a zombie. -/
inductive Collects (s : System) (q : Lwp) (t : System) : Event → Prop where
  /-- `wait`. -/
  | waited (p : Lwp) (event : Event) : WaitsAt s p event → (s.proc p).state = .running →
      s.zombieChild p = some q → s.waitPass p = some (.reaped q (s.proc q).pid, t) → Collects s q t event
  /-- `thread_join`. -/
  | joined (p : Lwp) (thread : Nat) (event : Event) :
      (event = .threadJoin p thread ∧ (s.proc p).tid = 1 ∨ event = .resume p ∧ s.call p = .threadJoin thread) →
      (s.proc p).state = .running → (s.proc q).pid = (s.proc p).pid → (s.proc q).tid = thread →
      s.joinPass p thread = some (.collected q (s.proc q).retVal, t) → Collects s q t event
  /-- `exit` of the master. -/
  | ended (p : Lwp) (event : Event) :
      (event = .exit p ∧ (s.proc p).tid = 1 ∨ event = .resume p ∧ s.call p = .exit) →
      (s.proc p).state = .running → q ≠ p → (s.proc q).master = (s.proc p).master → Collects s q t event

/-- What a step does to a slot. -/
inductive SlotStep (s : System) (q : Lwp) (t : System) : Event → Prop where
  /-- It leaves the slot as it is, or passes it to init. -/
  | stays (event : Event) : (s.proc q).SameGroup (t.proc q) → (t.proc q).retVal = (s.proc q).retVal →
      ((t.proc q).parent = (s.proc q).parent ∨ event.passing = true ∧ (t.proc q).parent = some s.initproc) →
      SlotStep s q t event
  /-- It deletes the zombie. -/
  | deleted (event : Event) : Collects s q t event → (s.proc q).state = .zombie → (t.proc q).Cleared →
      SlotStep s q t event
  /-- `thread_exit` of the LWP. -/
  | threadExit (retval : Nat) : (s.proc q).state = .running → s.call q = .none → (t.proc q).state = .zombie →
      (t.proc q).retVal = retval → (t.proc q).pid = (s.proc q).pid → (t.proc q).tid = (s.proc q).tid →
      (t.proc q).master = (s.proc q).master →
      ((t.proc q).parent = (s.proc q).parent ∨ (t.proc q).parent = some s.initproc) →
      SlotStep s q t (.threadExit q retval)
  /-- `exit` of the LWP. -/
  | ends (event : Event) : (event = .exit q ∧ s.call q = .none ∨ event = .resume q ∧ s.call q = .exit) →
      (s.proc q).state = .running → (t.proc q).state = .zombie → (t.proc q).pid = (s.proc q).pid →
      (t.proc q).tid = (s.proc q).tid → (t.proc q).master = (s.proc q).master →
      ((t.proc q).parent = (s.proc q).parent ∨ event.passing = true ∧ (t.proc q).parent = some s.initproc) →
      SlotStep s q t event
  /-- `fork` takes the slot. -/
  | founded (p : Lwp) : s.freeSlot = some q → (t.proc q).state = .embryo → (t.proc q).pid = s.nextpid →
      t.nextpid = s.nextpid + 1 → (t.proc q).tid = 1 → (t.proc q).master = some q → (t.proc q).parent = some q →
      SlotStep s q t (.fork p true)
  /-- `fork` or `thread_create` gives up the slot that it has taken. -/
  | released (event : Event) : s.freeSlot = some q → (t.proc q).state = .unused → (t.proc q).pid = s.nextpid →
      t.nextpid = s.nextpid + 1 → (t.proc q).parent = some q → SlotStep s q t event
  /-- `fork` gives up its child. -/
  | abandoned (p : Lwp) (result : CopyResult) : s.call p = .fork q → t.call p = .none →
      (t.proc q).state = .unused → (t.proc q).pid = (s.proc q).pid → (t.proc q).tid = (s.proc q).tid →
      (t.proc q).parent = (s.proc q).parent → SlotStep s q t (.forkCopy p result)
  /-- `fork` starts its child. -/
  | started (p : Lwp) (pgdir : Nat) : (s.proc p).state = .running → s.call p = .fork q → t.call p = .none →
      t.call q = .none → (t.proc q).state = .runnable → (t.proc q).pid = (s.proc q).pid → (t.proc q).tid = (s.proc q).tid →
      (t.proc q).master = (s.proc q).master → (t.proc q).parent = some p →
      SlotStep s q t (.forkCopy p (.copied pgdir))
  /-- `thread_create` starts its LWP. -/
  | published (p : Lwp) (tid : Nat) : (s.proc p).state = .running → s.call p = .threadCreate tid →
      s.freeSlot = some q → t.call q = .none → (t.proc q).state = .runnable → (t.proc q).pid = (s.proc p).pid →
      (t.proc q).tid = tid → (t.proc q).parent = some p → SlotStep s q t (.threadCreate p .mapped)
  /-- `exec` moves the LWP to a group of its own. -/
  | detached : (s.proc q).state = .running → s.call q = .none → (s.proc q).tid ≠ 1 → (t.proc q).state.started = true →
      (t.proc q).pid = s.nextpid → t.nextpid = s.nextpid + 1 → (t.proc q).tid = 1 →
      (t.proc q).master = some q → (t.proc q).parent = some s.initproc → SlotStep s q t (.exec q)

/-! ## The functions that are not steady -/

section Slots

variable {s t u : System} {p q r : Lwp}

/-- The loops that pass children to init. -/
theorem passToInit_slot (s : System) (child : Proc → Bool) (q : Lwp) :
    (s.proc q).SameGroup ((s.passToInit child).proc q) ∧ ((s.passToInit child).proc q).retVal = (s.proc q).retVal ∧
      ((s.passToInit child).proc q).parent = if child (s.proc q) then some s.initproc else (s.proc q).parent := by
  have passed : ∀ {v : Proc}, (if child (s.proc q) then { s.proc q with parent := some s.initproc } else s.proc q).Steady v →
      (s.proc q).SameGroup v ∧ v.retVal = (s.proc q).retVal ∧
        v.parent = if child (s.proc q) then some s.initproc else (s.proc q).parent := by
    intro v steady
    by_cases mine : child (s.proc q) = true
    · rw [if_pos mine] at steady ⊢
      exact ⟨⟨steady.pid, steady.tid, steady.master, steady.state⟩, steady.retVal, steady.parent⟩
    · rw [if_neg mine] at steady ⊢
      exact ⟨steady.toSameGroup, steady.retVal, steady.parent⟩
  unfold System.passToInit
  simp only
  split
  · have woken := Steady.wakeup1 (s.mapProc fun q => if child q then { q with parent := some s.initproc } else q)
      (some (.proc s.initproc)) q
    exact passed woken
  · exact passed (.refl _)

/-- A slot keeps its parent or is passed to init. -/
theorem passToInit_parent (s : System) (child : Proc → Bool) (q : Lwp) :
    ((s.passToInit child).proc q).parent = (s.proc q).parent ∨
      ((s.passToInit child).proc q).parent = some s.initproc := by
  have parent := (passToInit_slot s child q).2.2
  split at parent
  · exact .inr parent
  · exact .inl parent

/-- The slot that `delete_thread` clears. -/
theorem deleteThread_cleared (deleted : s.deleteThread p = some t) : (t.proc p).Cleared := by
  obtain ⟨state, pid, tid, _, parent⟩ := System.deleteThread_self deleted
  exact ⟨state, pid, tid, parent⟩

/-- The other slots are steady. -/
theorem deleteThread_steady (deleted : s.deleteThread p = some t) (other : q ≠ p) :
    (s.proc q).Steady (t.proc q) := by
  obtain ⟨stack, slot⟩ := System.deleteThread_other deleted other
  rw [slot]
  exact .of_state (.inl rfl) ⟨rfl, rfl, rfl, rfl, rfl⟩

/-- A cleared slot stays cleared. -/
theorem Proc.Cleared.steady {q r : Proc} (cleared : q.Cleared) (steady : q.Steady r) : r.Cleared :=
  ⟨(steady.state_iff rfl).mpr cleared.state, steady.pid.trans cleared.pid, steady.tid.trans cleared.tid,
    steady.parent.trans cleared.parent⟩

/-- A zombie stays a zombie. -/
theorem Proc.Steady.zombie {q r : Proc} (steady : q.Steady r) (zombie : r.state = .zombie) : q.state = .zombie :=
  (steady.state_iff rfl).mp zombie

/-- A slot that the loop of `exit` of `p` leaves steady or deletes. -/
def LoopStep (s : System) (p q : Lwp) (t : System) : Prop :=
  (s.proc q).Steady (t.proc q) ∨
    (s.proc q).state = .zombie ∧ (t.proc q).Cleared ∧ q ≠ p ∧ (s.proc q).master = (s.proc p).master

/-- One slot of the loop of `exit`. -/
theorem endLwp_slot {kids kids' : Nat} (taken : System.endLwp p (s, kids) r = some (t, kids')) (q : Lwp) :
    LoopStep s p q t := by
  simp only [System.endLwp] at taken
  split at taken
  · cases taken
    exact .inl (.refl _)
  · rename_i mine
    rw [not_or, not_not] at mine
    split at taken
    · rename_i zombie
      obtain ⟨v, deleted, result⟩ := Option.map_eq_some_iff.mp taken
      cases result
      by_cases here : q = r
      · rw [here]
        exact .inr ⟨zombie, deleteThread_cleared deleted, mine.2, mine.1⟩
      · exact .inl (deleteThread_steady deleted here)
    · split at taken
      · cases taken
        exact .inl (.refl _)
      · cases taken
        exact .inl ((Steady.setKilled s r).trans (.wakeup1 _ _) q)

/-- The loop of `exit`. -/
theorem endLwps_slot {slots : List Lwp} {kids kids' : Nat}
    (taken : slots.foldlM (System.endLwp p) (s, kids) = some (t, kids')) (q : Lwp) : LoopStep s p q t := by
  induction slots generalizing s kids with
  | nil =>
    cases taken
    exact .inl (.refl _)
  | cons r rest ih =>
    rw [List.foldlM_cons] at taken
    obtain ⟨⟨v, middle⟩, first, later⟩ := Option.bind_eq_some_iff.mp taken
    have master : (v.proc p).master = (s.proc p).master := by
      rcases endLwp_slot first p with steady | ⟨_, _, other, _⟩
      · exact steady.master
      · exact absurd rfl other
    rcases endLwp_slot first q with steady | ⟨zombie, cleared, other, same⟩
    · rcases ih later with after | ⟨zombie, cleared, other, same⟩
      · exact .inl (steady.trans after)
      · refine .inr ⟨steady.zombie zombie, cleared, other, ?_⟩
        rw [← steady.master, ← master]
        exact same
    · rcases ih later with after | ⟨zombie', _⟩
      · exact .inr ⟨zombie, cleared.steady after, other, same⟩
      · rw [cleared.state] at zombie'
        contradiction

/-- The end of `exit`: the LWP is a zombie, the others are steady. -/
theorem endExit_slot (s : System) (p q : Lwp) : q ≠ p ∧ (s.proc q).Steady ((s.endExit p).proc q) ∨
    q = p ∧ ({ s.proc p with state := .zombie } : Proc).Steady ((s.endExit p).proc q) := by
  have woken : Steady (s.zombie p) (s.endExit p) := (Steady.wakeup1 _ _).trans (.wakeup1 _ _)
  have steady := woken q
  unfold System.zombie at steady
  by_cases here : q = p
  · rw [here, System.setProc_self] at steady
    rw [here]
    exact .inr ⟨rfl, steady⟩
  · rw [System.setProc_other _ _ here] at steady
    exact .inl ⟨here, steady⟩

/-- One pass of the loop of `exit`. -/
theorem exitPass_slot (started : (s.proc p).state.started = true) (taken : s.exitPass p = some t) (q : Lwp) :
    LoopStep s p q t ∨ q = p ∧ ∃ v : Proc, (s.proc p).Steady v ∧ ({ v with state := .zombie } : Proc).Steady (t.proc q) := by
  unfold System.exitPass at taken
  split at taken
  · contradiction
  · rename_i u kids loop
    have steadyP : (s.proc p).Steady (u.proc p) := by
      rcases endLwps_slot loop p with steady | ⟨_, _, other, _⟩
      · exact steady
      · exact absurd rfl other
    have after : ∀ {v : Proc}, (u.proc q).Steady v → t.proc q = v → LoopStep s p q t := by
      intro v steady same
      unfold LoopStep
      rw [same]
      rcases endLwps_slot loop q with first | ⟨zombie, cleared, other, master⟩
      · exact .inl (first.trans steady)
      · exact .inr ⟨zombie, cleared.steady steady, other, master⟩
    split at taken
    · cases taken
      have running : (u.proc p).state.started = true := by
        rw [steadyP.started]
        exact started
      exact .inl (after (Steady.sleep running (.proc p) q) rfl)
    · cases taken
      rcases endExit_slot u p q with ⟨_, steady⟩ | ⟨here, steady⟩
      · exact .inl (after steady rfl)
      · exact .inr ⟨here, _, steadyP, steady⟩

/-- A steady slot stays. -/
theorem SlotStep.of_steady (event : Event) (steady : (s.proc q).Steady (t.proc q)) : SlotStep s q t event :=
  .stays event steady.toSameGroup steady.retVal (.inl steady.parent)

/-- The slot that the locked part of `allocproc` takes. -/
theorem takeSlot_self (s : System) (np : Lwp) : (s.takeSlot np).proc np = { s.proc np with
    state := .embryo, pid := s.nextpid, tid := 1, parent := some np, master := some np,
    stack := [], cur := 0, base := (s.proc np).sz, pgdir := none } := System.setProc_self _ _ _

/-- The other slots. -/
theorem takeSlot_other (s : System) {np : Lwp} (other : q ≠ np) : (s.takeSlot np).proc q = s.proc q :=
  System.setProc_other _ _ other

/-- `fork` up to the return of `allocproc`. -/
theorem fork_slot (s : System) (p : Lwp) (kalloc : Bool) (q : Lwp) :
    SlotStep s q (s.fork p kalloc) (.fork p kalloc) := by
  rcases fork_cases s p kalloc with same | ⟨np, free, rfl, same⟩ | ⟨np, free, rfl, same⟩
  · rw [same]
    exact .of_steady _ (.refl _)
  · rw [same]
    by_cases here : q = np
    · subst here
      refine .released _ free ?_ ?_ rfl ?_
      · exact congrArg Proc.state (System.setProc_self (s.takeSlot q) q _)
      · simp only [System.setProc_self, takeSlot_self]
      · simp only [System.setProc_self, takeSlot_self]
    · refine .of_steady _ ?_
      simp only [System.setProc_other _ _ here, takeSlot_other s here]
      exact .refl _
  · rw [same]
    have steady := Steady.initSlot (s.takeSlot np) np q
    have nextpid := (Sorted.initSlot (s.takeSlot np) np).groups.nextpid
    by_cases here : q = np
    · subst here
      rw [takeSlot_self] at steady
      exact .founded p free ((steady.state_iff rfl).mpr rfl) steady.pid nextpid steady.tid steady.master steady.parent
    · rw [takeSlot_other s here] at steady
      exact .of_steady _ steady

/-- A slot that is started is in no call, and neither is who started it. -/
theorem setCall_left (s : System) (p q : Lwp) : ((s.setCall q .none).setCall p .none).call q = .none := by
  by_cases same : q = p
  · rw [same]
    exact System.setCall_self _ _ _
  · rw [System.setCall_other _ _ same]
    exact System.setCall_self _ _ _

/-- The rest of `fork`. -/
theorem forkCopy_slot {np : Lwp} {result : CopyResult} (running : (s.proc p).state = .running)
    (call : s.call p = .fork np)
    (copied : s.forkCopy p np result = some t) (q : Lwp) : SlotStep s q t (.forkCopy p result) := by
  rcases forkCopy_some copied with ⟨_, u, rfl, discarded, rfl⟩ | ⟨pgdir, rfl, _, rfl⟩
  · have same := congrFun (discard_groups discarded).2.2 q
    by_cases here : q = np
    · subst here
      have slot := System.setProc_self u q { u.proc q with kstack := false, state := .unused }
      have pid : (u.proc q).pid = (s.proc q).pid := congrArg Proc.pid same
      have tid : (u.proc q).tid = (s.proc q).tid := congrArg Proc.tid same
      have parent : (u.proc q).parent = (s.proc q).parent := congrArg Proc.parent same
      exact .abandoned p _ call (Function.update_self _ _ _) (congrArg Proc.state slot) ((congrArg Proc.pid slot).trans pid)
        ((congrArg Proc.tid slot).trans tid) ((congrArg Proc.parent slot).trans parent)
    · have slot := (System.setProc_other u { u.proc np with kstack := false, state := .unused } here).trans same
      refine .stays _ ?_ (congrArg Proc.retVal slot) (.inl (congrArg Proc.parent slot))
      change (s.proc q).SameGroup ((u.setProc np _).proc q)
      rw [slot]
      exact .refl _
  · by_cases here : q = np
    · subst here
      have slot := System.setProc_self { s with dirs := Function.update s.dirs pgdir true } q { s.proc q with
        pgdir := some pgdir, sz := (s.proc p).sz, parent := some p, state := .runnable }
      exact .started p pgdir running call (Function.update_self _ _ _) (setCall_left _ p q) (congrArg Proc.state slot) (congrArg Proc.pid slot :) (congrArg Proc.tid slot :)
        (congrArg Proc.master slot :) (congrArg Proc.parent slot)
    · have slot := System.setProc_other { s with dirs := Function.update s.dirs pgdir true } { s.proc np with
        pgdir := some pgdir, sz := (s.proc p).sz, parent := some p, state := .runnable } here
      refine .stays _ ?_ (congrArg Proc.retVal slot) (.inl (congrArg Proc.parent slot))
      change (s.proc q).SameGroup ((System.setProc { s with dirs := _ } np _).proc q)
      rw [System.setProc_other _ _ here]
      exact .refl _

/-- The rest of `thread_create`. -/
theorem threadCreate_slot {tid : Nat} {outcome : StackOutcome} (running : (s.proc p).state = .running)
    (call : s.call p = .threadCreate tid) (created : s.threadCreate p tid outcome = some t) (q : Lwp) :
    SlotStep s q t (.threadCreate p outcome) := by
  obtain ⟨np, v, w, master, base, free, returned, _, taken, rfl⟩ := threadCreate_some created
  have steady : Steady (s.takeSlot np) w :=
    ((Steady.initSlot _ np).trans (.returnNode returned)).trans (.takeBase taken)
  have nextpid : w.nextpid = s.nextpid + 1 :=
    (((Sorted.initSlot _ np).trans (.returnNode returned)).trans (.takeBase taken)).groups.nextpid
  have apart : p ≠ np := by
    rintro rfl
    rw [freeSlot_unused free] at running
    contradiction
  by_cases here : q = np
  · subst here
    have slot := steady q
    rw [takeSlot_self] at slot
    have given : ∀ {v : System}, Steady w v → v.nextpid = s.nextpid + 1 →
        SlotStep s q ((v.setProc q { v.proc q with state := .unused }).setCall p .none) (.threadCreate p outcome) := by
      intro v kept next
      have self := System.setProc_self v q { v.proc q with state := .unused }
      exact .released _ free (congrArg Proc.state self) ((congrArg Proc.pid self).trans ((kept q).pid.trans slot.pid)) next
        ((congrArg Proc.parent self).trans ((kept q).parent.trans slot.parent))
    cases outcome with
    | noMemory => exact given (.refl w) nextpid
    | noCopy => exact given (.setProc (.of_state (.inl rfl) ⟨rfl, rfl, rfl, rfl, rfl⟩)) nextpid
    | mapped =>
      have self := System.setProc_self w q { w.proc q with
        tid, pid := (w.proc p).pid, base, pgdir := (w.proc master).pgdir, sz := base + 2 * PGSIZE,
        parent := some p, master := some master, schedstate := (w.proc master).schedstate,
        pstride := (w.proc master).pstride, pmlfqNode := (w.proc master).pmlfqNode, state := .runnable }
      have pid := (steady p).pid
      rw [takeSlot_other s apart] at pid
      exact .published p tid running call free (setCall_left _ p q) (congrArg Proc.state self) ((congrArg Proc.pid self).trans pid)
        (congrArg Proc.tid self) (congrArg Proc.parent self)
  · have slot := steady q
    rw [takeSlot_other s here] at slot
    have given : (s.proc q).Steady ((w.finishThread p master np tid base outcome).proc q) := by
      cases outcome with
      | noMemory =>
        unfold System.finishThread
        rw [System.setProc_other _ _ here]
        exact slot
      | noCopy =>
        unfold System.finishThread
        simp only
        rw [System.setProc_other _ _ here]
        have stacked : Steady w (w.setProc master { w.proc master with stack := base :: (w.proc master).stack }) :=
          .setProc (.of_state (.inl rfl) ⟨rfl, rfl, rfl, rfl, rfl⟩)
        exact slot.trans (stacked q)
      | mapped =>
        unfold System.finishThread System.attach
        change (s.proc q).Steady ((w.setProc np _).proc q)
        rw [System.setProc_other _ _ here]
        exact slot
    exact .stays _ given.toSameGroup given.retVal (.inl given.parent)

/-- `thread_exit`. -/
theorem threadExit_slot (running : (s.proc p).state = .running) (call : s.call p = .none) (retval : Nat) (q : Lwp) :
    SlotStep s q (s.threadExit p retval) (.threadExit p retval) := by
  let u := s.setProc p { s.proc p with retVal := retval }
  let v := u.wakeup1 ((u.proc p).master.map .proc)
  let child := fun q : Proc => decide (q.parent = some p) || decide (q.master = some p)
  have ended : s.threadExit p retval = (v.passToInit child).zombie p := rfl
  have woken : (u.proc q).Steady (v.proc q) := Steady.wakeup1 _ _ q
  obtain ⟨group, value, _⟩ := passToInit_slot v child q
  have parent : ((v.passToInit child).proc q).parent = (u.proc q).parent ∨
      ((v.passToInit child).proc q).parent = some s.initproc := by
    rw [← woken.parent]
    exact passToInit_parent v child q
  rw [ended]
  unfold System.zombie
  by_cases here : q = p
  · have first : u.proc q = { s.proc q with retVal := retval } := by
      rw [here]
      exact System.setProc_self _ _ _
    rw [first] at woken parent
    have self := System.setProc_self (v.passToInit child) p { (v.passToInit child).proc p with state := .zombie }
    rw [here] at group value woken parent ⊢
    exact .threadExit retval running call (congrArg Proc.state self)
      ((congrArg Proc.retVal self).trans (value.trans woken.retVal))
      ((congrArg Proc.pid self).trans (group.pid.trans woken.pid))
      ((congrArg Proc.tid self).trans (group.tid.trans woken.tid))
      ((congrArg Proc.master self).trans (group.master.trans woken.master))
      (by rw [self]; exact parent)
  · have first : u.proc q = s.proc q := System.setProc_other _ _ here
    rw [first] at woken parent
    have other := System.setProc_other (v.passToInit child)
      { (v.passToInit child).proc p with state := .zombie } here
    refine .stays _ ?_ ?_ ?_
    · rw [other]
      exact woken.toSameGroup.trans group
    · rw [other]
      exact value.trans woken.retVal
    · rw [other]
      exact parent.imp_right fun init => ⟨rfl, init⟩

/-- One pass of the loop of `wait`. -/
theorem waitPass_slot {event : Event} {result : WaitResult} (running : (s.proc p).state = .running)
    (waits : WaitsAt s p event) (passed : s.waitPass p = some (result, t)) (q : Lwp) : SlotStep s q t event := by
  cases waitPass_ends passed with
  | @reaped v r _ zombie found deleted =>
    by_cases here : q = r
    · have cleared : (v.proc r).Cleared := deleteThread_cleared deleted
      rw [here]
      exact .deleted event (.waited p event waits running found passed) zombie cleared
    · have steady : (s.proc q).Steady (v.proc q) := deleteThread_steady deleted here
      exact .of_steady event steady
  | failed => exact .of_steady event (.refl _)
  | asleep =>
    have woken := Steady.wakeup1 s ((s.proc p).parent.map .proc)
    refine .of_steady event ((woken q).trans (Steady.sleep ?_ (.proc p) q))
    rw [(woken p).started]
    exact System.started_of_running running

/-- One pass of the loop of `thread_join`. -/
theorem joinPass_slot {event : Event} {thread : Nat} {result : JoinResult} (running : (s.proc p).state = .running)
    (joins : event = .threadJoin p thread ∧ (s.proc p).tid = 1 ∨ event = .resume p ∧ s.call p = .threadJoin thread)
    (passed : s.joinPass p thread = some (result, t)) (q : Lwp) : SlotStep s q t event := by
  cases joinPass_ends passed with
  | @collected v r pid tid zombie deleted =>
    by_cases here : q = r
    · have cleared : (v.proc r).Cleared := deleteThread_cleared deleted
      rw [here]
      exact .deleted event (.joined p thread event joins running pid tid passed) zombie cleared
    · have steady : (s.proc q).Steady (v.proc q) := deleteThread_steady deleted here
      exact .of_steady event steady
  | failed _ _ => exact .of_steady event (.refl _)
  | asleep master _ _ _ _ _ =>
    exact .of_steady event (Steady.sleep (System.started_of_running running) (.proc master) q)

/-- `exit` with its first pass. -/
theorem exit_slot (running : (s.proc p).state = .running) (call : s.call p = .none) (exited : s.exit p = some t)
    (q : Lwp) : SlotStep s q t (.exit p) := by
  cases exit_goes exited with
  | master master _ _ whole exited =>
    obtain ⟨group, value, _⟩ := passToInit_slot s (s.orphan p master) q
    obtain ⟨groupP, _, _⟩ := passToInit_slot s (s.orphan p master) p
    have parent := passToInit_parent s (s.orphan p master) q
    have started : ((s.passToInit (s.orphan p master)).proc p).state.started = true := by
      rw [groupP.started]
      exact System.started_of_running running
    rcases exitPass_slot started exited q with (steady | ⟨zombie, cleared, other, same⟩) | ⟨here, v, steadyP, steady⟩
    · refine .stays _ (group.trans steady.toSameGroup) (steady.retVal.trans value) ?_
      rw [steady.parent]
      exact parent.imp_right fun init => ⟨rfl, init⟩
    · refine .deleted _ (.ended p _ (.inl ⟨rfl, whole⟩) running other ?_) ((group.state_iff rfl).mp zombie) cleared
      rw [← group.master, same]
      exact groupP.master
    · rw [← here] at steadyP call running group parent ⊢
      refine .ends _ (.inl ⟨rfl, call⟩) running ((steady.state_iff rfl).mpr rfl) ?_ ?_ ?_ ?_
      · exact steady.pid.trans (steadyP.pid.trans group.pid)
      · exact steady.tid.trans (steadyP.tid.trans group.tid)
      · exact steady.master.trans (steadyP.master.trans group.master)
      · rw [show (t.proc q).parent = v.parent from steady.parent, steadyP.parent]
        exact parent.imp_right fun init => ⟨rfl, init⟩
  | thread master _ _ _ result =>
    rw [result]
    have warned : Steady s (s.warn master) := (Steady.setKilled s master).trans (.wakeup1 _ _)
    obtain ⟨group, value, _⟩ := passToInit_slot (s.warn master) (s.orphan p master) q
    have parent := passToInit_parent (s.warn master) (s.orphan p master) q
    rw [(warned q).parent] at parent
    rcases endExit_slot ((s.warn master).passToInit (s.orphan p master)) p q with ⟨_, steady⟩ | ⟨here, steady⟩
    · refine .stays _ ((warned q).toSameGroup.trans (group.trans steady.toSameGroup)) ?_ ?_
      · exact steady.retVal.trans (value.trans (warned q).retVal)
      · rw [steady.parent]
        exact parent.imp_right fun init => ⟨rfl, init⟩
    · subst here
      refine .ends _ (.inl ⟨rfl, call⟩) running ((steady.state_iff rfl).mpr rfl) ?_ ?_ ?_ ?_
      · exact steady.pid.trans (group.pid.trans (warned q).pid)
      · exact steady.tid.trans (group.tid.trans (warned q).tid)
      · exact steady.master.trans (group.master.trans (warned q).master)
      · rw [steady.parent]
        exact parent.imp_right fun init => ⟨rfl, init⟩

/-- The next pass of the loop of `exit`. -/
theorem resumeExit_slot (running : (s.proc p).state = .running) (call : s.call p = .exit)
    (passed : s.exitPass p = some t) (q : Lwp) : SlotStep s q t (.resume p) := by
  rcases exitPass_slot (System.started_of_running running) passed q with
    (steady | ⟨zombie, cleared, other, same⟩) | ⟨here, v, steadyP, steady⟩
  · exact .of_steady _ steady
  · exact .deleted _ (.ended p _ (.inr ⟨rfl, call⟩) running other same) zombie cleared
  · rw [← here] at steadyP call running ⊢
    exact .ends _ (.inr ⟨rfl, call⟩) running ((steady.state_iff rfl).mpr rfl) (steady.pid.trans steadyP.pid)
      (steady.tid.trans steadyP.tid) (steady.master.trans steadyP.master)
      (.inl (steady.parent.trans steadyP.parent))

/-- `exec` of an LWP that is no master. -/
theorem detach_slot (running : (s.proc p).state = .running) (call : s.call p = .none) (thread : (s.proc p).tid ≠ 1) (q : Lwp) :
    SlotStep s q ((s.execDeleteThread p).setCall p (.exec false)) (.exec p) := by
  have killed := Steady.killOthers s p
  let u := (s.killOthers p).leaveGroup p
  have pushed : Steady u (s.execDeleteThread p) := Steady.pushMlfq u (u.proc p).pid 0
  have nextpid : (s.execDeleteThread p).nextpid = s.nextpid + 1 := (Sorted.pushMlfq u (u.proc p).pid 0).groups.nextpid
  by_cases here : q = p
  · have slot : u.proc q = { (s.killOthers p).proc q with
        schedstate := .used, pmlfqNode := none, pstride := none,
        pid := s.nextpid, tid := 1, parent := some s.initproc, master := some q } := by
      rw [here]
      exact System.setProc_self _ _ _
    have steady := pushed q
    rw [slot] at steady
    subst here
    refine .detached running call thread ?_ steady.pid nextpid steady.tid steady.master steady.parent
    change ((s.execDeleteThread q).proc q).state.started = true
    rw [steady.started]
    exact (killed q).started.trans (System.started_of_running running)
  · have slot : u.proc q = (s.killOthers p).proc q := System.setProc_other _ _ here
    have steady := pushed q
    rw [slot] at steady
    exact .of_steady _ ((killed q).trans steady)

/-- Giving up the processor leaves the slots. -/
theorem Steady.yielded {p : Lwp} (running : (s.proc p).state = .running) :
    Steady s (s.setProc p { s.proc p with state := .runnable }) :=
  .setProc (.of_state (.inr ⟨System.started_of_running running, rfl⟩) ⟨rfl, rfl, rfl, rfl, rfl⟩)

/-- What every step does to every slot. -/
theorem step_slot (positive : ∀ p, (s.proc p).state ≠ .unused → 0 < (s.proc p).pid) {event : Event}
    (taken : s.step event = some t) (q : Lwp) : SlotStep s q t event := by
  cases step_branch taken with
  | fork p kalloc _ _ => exact fork_slot s p kalloc q
  | forkCopy p np copied running call result => exact forkCopy_slot running call result q
  | threadChoose p _ _ => exact .of_steady _ (.refl _)
  | threadCreate p tid outcome running call result => exact threadCreate_slot running call result q
  | threadExit p retval running call => exact threadExit_slot running call retval q
  | noJoin p thread => exact .of_steady _ (.refl _)
  | joins p _ thread _ running which passed => exact joinPass_slot running which passed q
  | waits p _ _ running which passed => exact waitPass_slot running which passed q
  | exit p running call result => exact exit_slot running call result q
  | resumeExit p running call result => exact resumeExit_slot running call result q
  | detach p running call thread => exact detach_slot running call thread q
  | exec p _ _ _ => exact .of_steady _ (.refl _)
  | execFail p begun _ discarded =>
    have steady := Steady.of_proc (discard_groups discarded).2.2
    exact .of_steady _ (steady q)
  | execCommit p isMaster pgdir sz _ _ result => exact .of_steady _ (Steady.execCommit result q)
  | kill p pid => exact .of_steady _ (Steady.kill s pid q)
  | refused p inquire => exact .of_steady _ (.refl _)
  | shareCheck p master inquire minPass _ _ _ _ => exact .of_steady _ (.refl _)
  | shareUpdate p master inquire minPass _ _ updated =>
    have steady := Steady.shareUpdate updated
    exact .of_steady _ (steady q)
  | growproc p master sz =>
    have grown : Steady s (s.setProc master { s.proc master with sz }) :=
      .setProc (.of_state (.inl rfl) ⟨rfl, rfl, rfl, rfl, rfl⟩)
    exact .of_steady _ (grown q)
  | sleep p chan running => exact .of_steady _ (Steady.sleep (System.started_of_running running) _ q)
  | wakeup chan => exact .of_steady _ (Steady.wakeup1 s _ q)
  | tick p yields running ticked =>
    refine .of_steady _ (Steady.addTick (positive p ?_) ticked q)
    rw [running]
    exact RunState.noConfusion
  | yield p running => exact .of_steady _ (Steady.yielded running q)
  | yieldThread p next pid running picked =>
    have steady := (Steady.yielded running).trans (.pickLwp picked)
    obtain ⟨calm, runnable⟩ := System.pickLwp_some picked
    refine .of_steady _ (steady.trans (.start ?_) q)
    rw [(calm.groups.proc next).started, runnable next rfl]
    rfl
  | run p runnable =>
    refine .of_steady _ (Steady.start ?_ q)
    rw [runnable]
    rfl
  | dispatch next picked =>
    have started := (System.pickStride_some picked).2 next rfl
    exact .of_steady _ ((Steady.pickStride picked).trans (.start started) q)

end Slots

end Xv6
