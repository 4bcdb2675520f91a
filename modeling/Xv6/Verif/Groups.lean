import Xv6.Verif.Steps

/-!
# Groups of LWPs

A started LWP points to a started master with its `pid` and `tid` 1, and a `pid` has one master.
This holds in every run in which a master calls `thread_exit` only after the other LWPs of its
group have ended; `exit` waits for them by itself.
-/

namespace Xv6

/-! ## The scheduler leaves groups and directories alone -/

section Scheduler

variable {s t u : System} {p np : Lwp}

/-- Only the scheduler's tables and classes differ. -/
structure Sorted (s t : System) : Prop where
  groups : SameGroups s t
  dirs : SameDirs s t
  call : t.call = s.call

/-- Nothing changed. -/
theorem Sorted.refl (s : System) : Sorted s s := ⟨.refl s, .refl s, rfl⟩

/-- Two changes. -/
theorem Sorted.trans (first : Sorted s t) (second : Sorted t u) : Sorted s u :=
  ⟨first.groups.trans second.groups, first.dirs.trans second.dirs, second.call.trans first.call⟩

/-- The slots, the pids, the directories and the calls are those of before. -/
theorem Sorted.of_tables (proc : t.proc = s.proc) (nextpid : t.nextpid = s.nextpid)
    (initproc : t.initproc = s.initproc) (dirs : t.dirs = s.dirs) (freed : t.freed = s.freed)
    (call : t.call = s.call) : Sorted s t := by
  refine ⟨⟨?_, nextpid, initproc, ?_⟩, ⟨?_, dirs, freed⟩, call⟩
  · intro p
    rw [proc]
    exact .refl _
  · intro p
    rw [call]
    exact .inl rfl
  · intro p
    rw [proc]

/-- Changing classes of slots. -/
theorem Sorted.mapProc {change : Proc → Proc}
    (same : ∀ q : Proc, q.SameGroup (change q) ∧ (change q).pgdir = q.pgdir) :
    Sorted s (s.mapProc change) :=
  ⟨⟨fun p => (same (s.proc p)).1, rfl, rfl, fun _ => .inl rfl⟩, ⟨fun p => (same (s.proc p)).2, rfl, rfl⟩, rfl⟩

/-- Changing the class of one slot. -/
theorem Sorted.setProc {q : Proc} (same : (s.proc p).SameGroup q) (pgdir : q.pgdir = (s.proc p).pgdir) :
    Sorted s (s.setProc p q) := ⟨.setProc same, .setProc pgdir, rfl⟩

/-- `push_mlfq`. -/
theorem Sorted.pushMlfq (s : System) (pid : Nat) (prior : Fin 3) : Sorted s (s.pushMlfq pid prior) := by
  unfold System.pushMlfq
  split
  · exact .refl s
  · rename_i i _
    refine .trans (t := s.mapProc fun q => if q.pid = pid then
      { q with schedstate := .mlfq, pmlfqNode := some (prior, i) } else q) (.mapProc fun q => ?_)
      (.of_tables rfl rfl rfl rfl rfl rfl)
    by_cases mine : q.pid = pid
    · rw [if_pos mine]
      exact ⟨⟨rfl, rfl, rfl, .inl rfl⟩, rfl⟩
    · rw [if_neg mine]
      exact ⟨.refl q, rfl⟩

/-- `pop_mlfq`. -/
theorem Sorted.popMlfq {pid : Nat} (popped : s.popMlfq pid = some t) : Sorted s t := by
  unfold System.popMlfq at popped
  split at popped
  · contradiction
  · cases popped
    refine .trans (t := s.mapProc fun q => if q.pid = pid then
      { q with schedstate := .used, pmlfqNode := none } else q) (.mapProc fun q => ?_)
      (.of_tables rfl rfl rfl rfl rfl rfl)
    by_cases mine : q.pid = pid
    · rw [if_pos mine]
      exact ⟨⟨rfl, rfl, rfl, .inl rfl⟩, rfl⟩
    · rw [if_neg mine]
      exact ⟨.refl q, rfl⟩

/-- `move_prior`. -/
theorem Sorted.movePrior (s : System) (pid : Nat) (prior : Fin 3) : Sorted s (s.movePrior pid prior) := by
  unfold System.movePrior
  split
  · exact .refl s
  · rename_i popped
    exact (Sorted.popMlfq popped).trans (.pushMlfq _ _ _)

/-- A loop of changes. -/
theorem Sorted.foldl {ι : Type} {change : System → ι → System} (each : ∀ s i, Sorted s (change s i))
    (items : List ι) (s : System) : Sorted s (items.foldl change s) := by
  induction items generalizing s with
  | nil => exact .refl s
  | cons i rest ih => exact (each s i).trans (ih _)

/-- `prior_boost`. -/
theorem Sorted.priorBoost (s : System) : Sorted s s.priorBoost := by
  have node : ∀ (s : System) (n : NodeRef), Sorted s (s.boostNode n) := by
    intro s n
    unfold System.boostNode
    split
    · exact .refl s
    · exact .movePrior _ _ _
  have queue : ∀ (s : System) (prior : Fin 3), Sorted s (s.boostQueue prior) := by
    intro s prior
    unfold System.boostQueue
    split
    · exact .refl s
    · exact .foldl (fun s i => node s (prior, i)) _ s
  exact (Sorted.foldl queue _ s).trans (.of_tables rfl rfl rfl rfl rfl rfl)

/-- `add_pass_stride`. -/
theorem Sorted.addPassStride (charged : s.addPassStride p = some t) : Sorted s t := by
  unfold System.addPassStride at charged
  split at charged
  · contradiction
  · simp only at charged
    split at charged
    · cases charged
      exact .of_tables rfl rfl rfl rfl rfl rfl
    · cases charged
      exact .of_tables rfl rfl rfl rfl rfl rfl

/-- The demotion at the end of a time allotment. -/
theorem Sorted.demote (s : System) (p : Lwp) (prior : Fin 3) (elapsed : Nat) :
    Sorted s (s.demote p prior elapsed) := by
  unfold System.demote
  split
  · split
    · exact .movePrior _ _ _
    · exact .refl s
  · split
    · exact .movePrior _ _ _
    · exact .refl s
  · exact .refl s

/-- The end of `add_tick`. -/
theorem Sorted.endTick (s : System) (p : Lwp) (m : MlfqNode) (curTick : Nat) :
    Sorted s (s.endTick p m curTick).2 := by
  unfold System.endTick
  simp only
  split
  · refine (Sorted.demote s p m.prior m.eticks).trans ?_
    simp only
    split
    · exact .priorBoost _
    · exact .refl _
  · exact .demote _ _ _ _

/-- What `add_tick` does: it charges the stride entry and, in a queue, the node. -/
theorem addTick_some {yields : Bool} (ticked : s.addTick p = some (yields, t)) :
    ∃ u, s.addPassStride p = some u ∧
      ((u.proc p).schedstate ≠ .mlfq ∧ t = { u with schedticks := u.schedticks + 1 } ∨
        (u.proc p).schedstate = .mlfq ∧ ∃ n, (u.proc p).pmlfqNode = some n ∧
          t = ((System.setNode { u with schedticks := u.schedticks + 1 } n
            { u.node n with eticks := (u.node n).eticks + 1 }).endTick p
            { u.node n with eticks := (u.node n).eticks + 1 } u.schedticks).2) := by
  unfold System.addTick at ticked
  split at ticked
  · contradiction
  · rename_i u charged
    refine ⟨u, charged, ?_⟩
    simp only at ticked
    split at ticked
    · rename_i other
      cases ticked
      exact .inl ⟨other, rfl⟩
    · rename_i queued
      split at ticked
      · contradiction
      · rename_i n node
        refine .inr ⟨not_not.mp queued, n, node, ?_⟩
        exact (congrArg Prod.snd (Option.some.inj ticked)).symm

/-- `add_tick`. -/
theorem Sorted.addTick {yields : Bool} (ticked : s.addTick p = some (yields, t)) : Sorted s t := by
  obtain ⟨u, charged, ⟨_, rfl⟩ | ⟨_, n, _, rfl⟩⟩ := addTick_some ticked
  · exact (Sorted.addPassStride charged).trans (.of_tables rfl rfl rfl rfl rfl rfl)
  · have counted : Sorted u (System.setNode { u with schedticks := u.schedticks + 1 } n
        { u.node n with eticks := (u.node n).eticks + 1 }) := .of_tables rfl rfl rfl rfl rfl rfl
    exact ((Sorted.addPassStride charged).trans counted).trans (.endTick _ _ _ _)

/-- The locked part of `set_cpu_share`. -/
theorem Sorted.shareUpdate {master : Lwp} {inquire minPass : Int}
    (updated : s.shareUpdate master inquire minPass = some t) : Sorted s t := by
  unfold System.shareUpdate at updated
  simp only at updated
  have popped : Sorted s ((s.popMlfq (s.proc master).pid).getD s) := by
    cases result : s.popMlfq (s.proc master).pid with
    | none => exact .refl s
    | some u => exact .popMlfq result
  split at updated
  · contradiction
  · split at updated
    · contradiction
    · rename_i e _ _ u assigned
      cases updated
      refine popped.trans (.trans (t := u) ?_ (.mapProc fun q => ?_))
      · unfold System.assign at assigned
        simp only at assigned
        split at assigned
        · contradiction
        · cases assigned
          exact .of_tables rfl rfl rfl rfl rfl rfl
      · by_cases mine : q.pid = (s.proc master).pid
        · rw [if_pos mine]
          exact ⟨⟨rfl, rfl, rfl, .inl rfl⟩, rfl⟩
        · rw [if_neg mine]
          exact ⟨.refl q, rfl⟩

/-- `thread_create` gives back a queue node. -/
theorem Sorted.returnNode (returned : s.returnNode np = some t) : Sorted s t := by
  unfold System.returnNode at returned
  split at returned
  · contradiction
  · cases returned
    exact .of_tables rfl rfl rfl rfl rfl rfl

/-- The base of a new stack is taken from the master. -/
theorem Sorted.takeBase {master : Lwp} {base : Nat} (taken : s.takeBase master = (base, t)) : Sorted s t := by
  unfold System.takeBase at taken
  split at taken
  · cases taken
    exact .setProc ⟨rfl, rfl, rfl, .inl rfl⟩ rfl
  · cases taken
    exact .setProc ⟨rfl, rfl, rfl, .inl rfl⟩ rfl

/-! ## Allocating a slot -/

/-- `firstSlot` finds what it looks for. -/
theorem firstSlot_some {wanted : Fin NPROC → Bool} {i : Fin NPROC} (found : firstSlot wanted = some i) :
    wanted i = true := List.find?_some found

/-- The rest of `allocproc`. -/
theorem Sorted.initSlot (s : System) (p : Lwp) : Sorted s (s.initSlot p) := by
  have stacked : Sorted s (s.setProc p { s.proc p with kstack := true }) :=
    .setProc ⟨rfl, rfl, rfl, .inl rfl⟩ rfl
  unfold System.initSlot
  simp only
  exact (stacked.trans (.pushMlfq _ _ 0)).trans (.setProc ⟨rfl, rfl, rfl, .inl rfl⟩ rfl)

/-- The slot that `allocproc` takes, if there is one. -/
def System.freeSlot (s : System) : Option Lwp := firstSlot fun p => (s.proc p).state == .unused

/-- The slot that `allocproc` takes was unused. -/
theorem freeSlot_unused (free : s.freeSlot = some np) : (s.proc np).state = .unused := by
  have unused := firstSlot_some free
  rw [beq_iff_eq] at unused
  exact unused

/-- `allocproc` with memory for the kernel stack. -/
theorem allocproc_free (allocated : s.allocproc true = (some np, t)) :
    s.freeSlot = some np ∧ t = (s.takeSlot np).initSlot np := by
  unfold System.allocproc at allocated
  split at allocated
  · cases allocated
  · rename_i q found
    simp only [if_true] at allocated
    cases allocated
    exact ⟨found, rfl⟩

/-- Without memory for the kernel stack `allocproc` gives the slot up, if it found one. -/
theorem allocproc_refused {found : Option Lwp} (allocated : s.allocproc false = (found, t)) :
    found = none ∧ (t = s ∨ ∃ np, s.freeSlot = some np ∧
      t = (s.takeSlot np).setProc np { (s.takeSlot np).proc np with kstack := false, state := .unused }) := by
  unfold System.allocproc at allocated
  split at allocated
  · cases allocated
    exact ⟨rfl, .inl rfl⟩
  · rename_i q free
    cases allocated
    exact ⟨rfl, .inr ⟨q, free, rfl⟩⟩

/-- `fork` up to the return of `allocproc` does nothing, or it takes a free slot, which it gives up
again without memory for the kernel stack. -/
theorem fork_cases (s : System) (p : Lwp) (kalloc : Bool) :
    s.fork p kalloc = s ∨
      (∃ np, s.freeSlot = some np ∧ kalloc = false ∧ s.fork p kalloc =
        (s.takeSlot np).setProc np { (s.takeSlot np).proc np with kstack := false, state := .unused }) ∨
      ∃ np, s.freeSlot = some np ∧ kalloc = true ∧
        s.fork p kalloc = ((s.takeSlot np).initSlot np).setCall p (.fork np) := by
  unfold System.fork System.allocproc
  split
  · rename_i allocated
    split at allocated
    · cases allocated
      exact .inl rfl
    · rename_i np free
      split at allocated
      · cases allocated
      · rename_i refused
        cases allocated
        exact .inr (.inl ⟨np, free, Bool.eq_false_iff.mpr refused, rfl⟩)
  · rename_i allocated
    split at allocated
    · cases allocated
    · rename_i free
      split at allocated
      · rename_i granted
        cases allocated
        exact .inr (.inr ⟨_, free, granted, rfl⟩)
      · cases allocated

end Scheduler

/-! ## The invariant -/

/-- No other started LWP has this one as its master. -/
def Alone (s : System) (p : Lwp) : Prop :=
  ∀ q, q ≠ p → (s.proc q).state.started = true → (s.proc q).master ≠ some p

/-- What holds of groups in every state. -/
structure Grouped (s : System) : Prop where
  /-- Pids were handed out. -/
  fresh : ∀ p, (s.proc p).pid < s.nextpid
  /-- A taken slot has a pid. -/
  positive : ∀ p, (s.proc p).state ≠ .unused → 0 < (s.proc p).pid
  /-- A pid has one master. -/
  masters : ∀ p q, (s.proc p).tid = 1 → (s.proc q).tid = 1 → (s.proc p).pid = (s.proc q).pid → p = q
  /-- A started LWP has a started master of its pid. -/
  master : ∀ p, (s.proc p).state.started = true → ∃ m, (s.proc p).master = some m ∧
    (s.proc m).tid = 1 ∧ (s.proc m).pid = (s.proc p).pid ∧ (s.proc m).state.started = true
  /-- An embryo is its own master. -/
  embryo : ∀ p, (s.proc p).state = .embryo → (s.proc p).tid = 1 ∧ (s.proc p).master = some p
  /-- The slot that `fork` prepares is an embryo. -/
  forking : ∀ p np, s.call p = .fork np → (s.proc np).state = .embryo
  /-- Calls of `fork` prepare different slots. -/
  forkers : ∀ p q np, s.call p = .fork np → s.call q = .fork np → p = q
  /-- `next_tid` is not the tid of a master. -/
  creating : ∀ p tid, s.call p = .threadCreate tid → 2 ≤ tid
  /-- `set_cpu_share` keeps the master of the caller. -/
  sharing : ∀ p m inquire minPass, s.call p = .setCpuShare m inquire minPass →
    (s.proc p).state.started = true → (s.proc p).master = some m
  /-- An LWP in `exec` is a master, and alone if it has left its group. -/
  leaving : ∀ p isMaster, s.call p = .exec isMaster → (s.proc p).state.started = true →
    (s.proc p).tid = 1 ∧ (isMaster = false → Alone s p)

section Invariant

variable {s t u : System} {p q np : Lwp}

/-- A started LWP with tid 1 is its own master. -/
theorem Grouped.own (grouped : Grouped s) (started : (s.proc p).state.started = true)
    (whole : (s.proc p).tid = 1) : (s.proc p).master = some p := by
  obtain ⟨m, master, tid, pid, _⟩ := grouped.master p started
  have same := grouped.masters p m whole tid pid.symm
  rw [master, ← same]

/-- An LWP that is no master has nobody. -/
theorem Grouped.alone (grouped : Grouped s) (thread : (s.proc p).tid ≠ 1) : Alone s p := by
  intro q _ started master
  obtain ⟨m, same, tid, _⟩ := grouped.master q started
  rw [master] at same
  cases same
  exact thread tid

/-- The master that `find_master` finds is the one the LWP points to. -/
theorem Grouped.findMaster (grouped : Grouped s) (started : (s.proc p).state.started = true) {m : Lwp}
    (found : s.findMaster (s.proc p).pid = some m) : (s.proc p).master = some m := by
  have wanted := firstSlot_some found
  rw [Bool.and_eq_true, beq_iff_eq, beq_iff_eq] at wanted
  obtain ⟨m', master, tid, pid, _⟩ := grouped.master p started
  rw [grouped.masters m m' wanted.2 tid (wanted.1.trans pid.symm)]
  exact master

/-- A slot that is not started is nobody's master. -/
theorem Grouped.vacant (grouped : Grouped s) (stopped : (s.proc p).state.started = false) : Alone s p := by
  intro q _ started master
  obtain ⟨m, same, _, _, alive⟩ := grouped.master q started
  rw [master] at same
  cases same
  rw [stopped] at alive
  contradiction

/-- The group that `set_cpu_share` moves has a pid. -/
theorem Grouped.sharing_positive (grouped : Grouped s) {m : Lwp} {inquire minPass : Int}
    (started : (s.proc p).state.started = true) (call : s.call p = .setCpuShare m inquire minPass) :
    0 < (s.proc m).pid := by
  obtain ⟨m', points, _, _, alive⟩ := grouped.master p started
  rw [grouped.sharing p m inquire minPass call started] at points
  cases points
  refine grouped.positive m fun unused => ?_
  rw [unused] at alive
  contradiction

/-- Slots after nothing of the groups changed are as alone as before. -/
theorem Alone.congr (same : SameGroups s t) (alone : Alone s p) : Alone t p := by
  intro q other started
  rw [(same.proc q).started] at started
  rw [(same.proc q).master]
  exact alone q other started

/-- A change of nothing that groups depend on. -/
theorem Grouped.congr (grouped : Grouped s) (same : SameGroups s t) : Grouped t := by
  have call : ∀ p, (t.call p).plain = false → t.call p = s.call p :=
    fun p special => (same.call p).resolve_right (by rw [special]; exact Bool.false_ne_true)
  refine ⟨?_, ?_, ?_, ?_, ?_, ?_, ?_, ?_, ?_, ?_⟩
  · intro p
    rw [(same.proc p).pid, same.nextpid]
    exact grouped.fresh p
  · intro p taken
    rw [(same.proc p).pid]
    exact grouped.positive p fun unused => taken (((same.proc p).state_iff rfl).mpr unused)
  · intro p q
    rw [(same.proc p).tid, (same.proc q).tid, (same.proc p).pid, (same.proc q).pid]
    exact grouped.masters p q
  · intro p started
    rw [(same.proc p).started] at started
    obtain ⟨m, master, tid, pid, alive⟩ := grouped.master p started
    refine ⟨m, (same.proc p).master.trans master, (same.proc m).tid.trans tid, ?_, ?_⟩
    · rw [(same.proc m).pid, (same.proc p).pid]
      exact pid
    · rw [(same.proc m).started]
      exact alive
  · intro p embryo
    rw [(same.proc p).tid, (same.proc p).master]
    exact grouped.embryo p (((same.proc p).state_iff rfl).mp embryo)
  · intro p np forking
    rw [call p (by rw [forking]; rfl)] at forking
    exact ((same.proc np).state_iff rfl).mpr (grouped.forking p np forking)
  · intro p q np first second
    rw [call p (by rw [first]; rfl)] at first
    rw [call q (by rw [second]; rfl)] at second
    exact grouped.forkers p q np first second
  · intro p tid creating
    rw [call p (by rw [creating]; rfl)] at creating
    exact grouped.creating p tid creating
  · intro p m inquire minPass sharing started
    rw [call p (by rw [sharing]; rfl)] at sharing
    rw [(same.proc p).started] at started
    rw [(same.proc p).master]
    exact grouped.sharing p m inquire minPass sharing started
  · intro p isMaster leaving started
    rw [call p (by rw [leaving]; rfl)] at leaving
    rw [(same.proc p).started] at started
    rw [(same.proc p).tid]
    obtain ⟨whole, alone⟩ := grouped.leaving p isMaster leaving started
    exact ⟨whole, fun left => (alone left).congr same⟩

/-- A slot that is nobody's master gets contents that are not started, while pids may be handed out. -/
theorem Grouped.replace (grouped : Grouped s) (alone : Alone s p) {r : Proc} {n : Nat} (later : s.nextpid ≤ n)
    (stopped : r.state.started = false) (embryo : r.state = .embryo → r.tid = 1 ∧ r.master = some p) (pid : r.pid < n)
    (positive : r.state ≠ .unused → 0 < r.pid)
    (master : ∀ q, q ≠ p → r.tid = 1 → (s.proc q).tid = 1 → r.pid ≠ (s.proc q).pid)
    (callers : ∀ q, s.call q = .fork p → r.state = .embryo) : Grouped (System.setProc { s with nextpid := n } p r) := by
  have slot : (System.setProc { s with nextpid := n } p r).proc p = r := System.setProc_self _ _ _
  have others : ∀ q, q ≠ p → (System.setProc { s with nextpid := n } p r).proc q = s.proc q :=
    fun q other => System.setProc_other _ _ other
  have other : ∀ q, ((System.setProc { s with nextpid := n } p r).proc q).state.started = true → q ≠ p := by
    rintro q started rfl
    rw [slot, stopped] at started
    contradiction
  refine ⟨?_, ?_, ?_, ?_, ?_, ?_, grouped.forkers, grouped.creating, ?_, ?_⟩
  · intro q
    by_cases here : q = p
    · rw [here, slot]
      exact pid
    · rw [others q here]
      exact Nat.lt_of_lt_of_le (grouped.fresh q) later
  · intro q taken
    by_cases here : q = p
    · rw [here, slot] at taken ⊢
      exact positive taken
    · rw [others q here] at taken ⊢
      exact grouped.positive q taken
  · intro q q' whole whole' same
    by_cases here : q = p
    · by_cases there : q' = p
      · rw [here, there]
      · rw [here, slot] at whole same
        rw [others q' there] at whole' same
        exact absurd same (master q' there whole whole')
    · by_cases there : q' = p
      · rw [there, slot] at whole' same
        rw [others q here] at whole same
        exact absurd same.symm (master q here whole' whole)
      · rw [others q here] at whole same
        rw [others q' there] at whole' same
        exact grouped.masters q q' whole whole' same
  · intro q started
    have here := other q started
    rw [others q here] at started ⊢
    obtain ⟨m, points, tid, same, alive⟩ := grouped.master q started
    have away : m ≠ p := by
      rintro rfl
      exact alone q here started points
    refine ⟨m, points, ?_⟩
    rw [others m away]
    exact ⟨tid, same, alive⟩
  · intro q still
    by_cases here : q = p
    · rw [here, slot] at still ⊢
      exact embryo still
    · rw [others q here] at still ⊢
      exact grouped.embryo q still
  · intro q np forking
    by_cases here : np = p
    · rw [here, slot]
      rw [here] at forking
      exact callers q forking
    · rw [others np here]
      exact grouped.forking q np forking
  · intro q m inquire minPass sharing started
    have here := other q started
    rw [others q here] at started ⊢
    exact grouped.sharing q m inquire minPass sharing started
  · intro q isMaster leaving started
    have here := other q started
    rw [others q here] at started ⊢
    obtain ⟨whole, free⟩ := grouped.leaving q isMaster leaving started
    refine ⟨whole, fun left q' distinct alive => ?_⟩
    have there := other q' alive
    rw [others q' there] at alive ⊢
    exact free left q' distinct alive

/-- Replacing a slot that is nobody's master by one that is not started. -/
theorem Grouped.retire (grouped : Grouped s) (alone : Alone s p) {r : Proc}
    (stopped : r.state.started = false) (embryo : r.state ≠ .embryo) (pid : r.pid < s.nextpid)
    (positive : r.state ≠ .unused → 0 < r.pid)
    (master : r.tid = 1 → (s.proc p).tid = 1 ∧ r.pid = (s.proc p).pid)
    (callers : ∀ q, s.call q ≠ .fork p) : Grouped (s.setProc p r) := by
  refine grouped.replace alone (Nat.le_refl _) stopped (absurd · embryo) pid positive ?_ fun q forking => ?_
  · intro q other whole whole' same
    obtain ⟨one, equal⟩ := master whole
    exact other (grouped.masters q p whole' one (same.symm.trans equal))
  · exact absurd forking (callers q)

/-- The locked part of `allocproc`. -/
theorem Grouped.takeSlot (grouped : Grouped s) (unused : (s.proc np).state = .unused) :
    Grouped (s.takeSlot np) := by
  have stopped : (s.proc np).state.started = false := by
    rw [unused]
    rfl
  refine grouped.replace (grouped.vacant stopped) (Nat.le_succ _) rfl (fun _ => ⟨rfl, rfl⟩) (Nat.lt_succ_self _) ?_ ?_
    fun _ _ => rfl
  · intro _
    exact Nat.lt_of_le_of_lt (Nat.zero_le _) (grouped.fresh np)
  · intro q _ _ _
    exact Nat.ne_of_gt (grouped.fresh q)

/-- An embryo is started, as a master or as an LWP of a group that nobody in `exec` has left. -/
theorem Grouped.start (grouped : Grouped s) (embryo : (s.proc p).state = .embryo) {r : Proc} {m : Lwp}
    (started : r.state.started = true) (master : r.master = some m) (plain : (s.call p).plain = true)
    (callers : ∀ q, s.call q ≠ .fork p)
    (joins : r.tid = 1 ∧ m = p ∧ r.pid = (s.proc p).pid ∨
      r.tid ≠ 1 ∧ (s.proc m).tid = 1 ∧ (s.proc m).pid = r.pid ∧ (s.proc m).state.started = true ∧
        ∀ q, s.call q = .exec false → (s.proc q).state.started = true → m ≠ q) :
    Grouped (s.setProc p r) := by
  have stopped : (s.proc p).state.started = false := by
    rw [embryo]
    rfl
  have whole := (grouped.embryo p embryo).1
  have pid : r.pid < s.nextpid ∧ 0 < r.pid := by
    rcases joins with ⟨_, _, same⟩ | ⟨_, _, same, alive, _⟩
    · rw [same]
      exact ⟨grouped.fresh p, grouped.positive p (by rw [embryo]; exact RunState.noConfusion)⟩
    · rw [← same]
      refine ⟨grouped.fresh m, grouped.positive m ?_⟩
      intro unused
      rw [unused] at alive
      contradiction
  have special : ∀ q, (s.call q).plain = false → q ≠ p := by
    rintro q special rfl
    rw [plain] at special
    contradiction
  refine ⟨?_, ?_, ?_, ?_, ?_, ?_, grouped.forkers, grouped.creating, ?_, ?_⟩
  · intro q
    by_cases here : q = p
    · rw [here, System.setProc_self]
      exact pid.1
    · rw [System.setProc_other _ _ here]
      exact grouped.fresh q
  · intro q taken
    by_cases here : q = p
    · rw [here, System.setProc_self]
      exact pid.2
    · rw [System.setProc_other _ _ here] at taken ⊢
      exact grouped.positive q taken
  · have own : r.tid = 1 → r.pid = (s.proc p).pid := by
      intro one
      rcases joins with ⟨_, _, same⟩ | ⟨thread, _⟩
      · exact same
      · exact absurd one thread
    intro q q' first second same
    by_cases here : q = p
    · by_cases there : q' = p
      · rw [here, there]
      · rw [here, System.setProc_self] at first same
        rw [System.setProc_other _ _ there] at second same
        rw [here]
        exact grouped.masters p q' whole second ((own first).symm.trans same)
    · by_cases there : q' = p
      · rw [there, System.setProc_self] at second same
        rw [System.setProc_other _ _ here] at first same
        rw [there]
        exact grouped.masters q p first whole (same.trans (own second))
      · rw [System.setProc_other _ _ here] at first same
        rw [System.setProc_other _ _ there] at second same
        exact grouped.masters q q' first second same
  · intro q alive
    by_cases here : q = p
    · rw [here, System.setProc_self]
      refine ⟨m, master, ?_⟩
      rcases joins with ⟨one, rfl, _⟩ | ⟨_, tid, same, running, _⟩
      · rw [System.setProc_self]
        exact ⟨one, rfl, started⟩
      · have apart : m ≠ p := by
          rintro rfl
          rw [stopped] at running
          contradiction
        rw [System.setProc_other _ _ apart]
        exact ⟨tid, same, running⟩
    · rw [System.setProc_other _ _ here] at alive ⊢
      obtain ⟨m', points, tid, same, running⟩ := grouped.master q alive
      have apart : m' ≠ p := by
        rintro rfl
        exact grouped.vacant stopped q here alive points
      refine ⟨m', points, ?_⟩
      rw [System.setProc_other _ _ apart]
      exact ⟨tid, same, running⟩
  · intro q still
    by_cases here : q = p
    · rw [here, System.setProc_self] at still
      rw [still] at started
      contradiction
    · rw [System.setProc_other _ _ here] at still ⊢
      exact grouped.embryo q still
  · intro q np forking
    have away : np ≠ p := by
      rintro rfl
      exact callers q forking
    rw [System.setProc_other _ _ away]
    exact grouped.forking q np forking
  · intro q m' inquire minPass sharing alive
    have here := special q (by rw [show s.call q = _ from sharing]; rfl)
    rw [System.setProc_other _ _ here] at alive ⊢
    exact grouped.sharing q m' inquire minPass sharing alive
  · intro q isMaster leaving alive
    have here := special q (by rw [show s.call q = _ from leaving]; rfl)
    rw [System.setProc_other _ _ here] at alive ⊢
    obtain ⟨one, free⟩ := grouped.leaving q isMaster leaving alive
    refine ⟨one, fun left q' distinct running => ?_⟩
    by_cases there : q' = p
    · rw [there, System.setProc_self, master]
      rcases joins with ⟨_, rfl, _⟩ | ⟨_, _, _, _, apart⟩
      · intro same
        exact here (Option.some.inj same).symm
      · rw [left] at leaving
        intro same
        exact apart q leaving alive (Option.some.inj same)
    · rw [System.setProc_other _ _ there] at running ⊢
      exact free left q' distinct running

/-- An LWP that is no master becomes the master of a group of its own. -/
theorem Grouped.leaveGroup (grouped : Grouped s) (started : (s.proc p).state.started = true)
    (call : s.call p = .none) (thread : (s.proc p).tid ≠ 1) : Grouped (s.leaveGroup p) := by
  have alone := grouped.alone thread
  have slot : (s.leaveGroup p).proc p = { s.proc p with
      schedstate := .used, pmlfqNode := none, pstride := none,
      pid := s.nextpid, tid := 1, parent := some s.initproc, master := some p } := System.setProc_self _ _ _
  have others : ∀ q, q ≠ p → (s.leaveGroup p).proc q = s.proc q :=
    fun q other => System.setProc_other _ _ other
  have state : ∀ q, ((s.leaveGroup p).proc q).state = (s.proc q).state := by
    intro q
    by_cases here : q = p
    · rw [here, slot]
    · rw [others q here]
  have special : ∀ q, s.call q ≠ .none → q ≠ p := by
    rintro q busy rfl
    exact busy call
  refine ⟨?_, ?_, ?_, ?_, ?_, ?_, grouped.forkers, grouped.creating, ?_, ?_⟩
  · intro q
    change _ < s.nextpid + 1
    by_cases here : q = p
    · rw [here, slot]
      exact Nat.lt_succ_self _
    · rw [others q here]
      exact Nat.lt_succ_of_lt (grouped.fresh q)
  · intro q taken
    by_cases here : q = p
    · rw [here, slot]
      exact Nat.lt_of_le_of_lt (Nat.zero_le _) (grouped.fresh p)
    · rw [others q here] at taken ⊢
      exact grouped.positive q taken
  · intro q q' first second same
    by_cases here : q = p
    · by_cases there : q' = p
      · rw [here, there]
      · rw [here, slot, others q' there] at same
        exact absurd same (Nat.ne_of_gt (grouped.fresh q'))
    · by_cases there : q' = p
      · rw [there, slot, others q here] at same
        exact absurd same (Nat.ne_of_lt (grouped.fresh q))
      · rw [others q here] at first same
        rw [others q' there] at second same
        exact grouped.masters q q' first second same
  · intro q alive
    rw [state q] at alive
    by_cases here : q = p
    · rw [here, slot]
      refine ⟨p, rfl, ?_⟩
      rw [state p, slot]
      exact ⟨rfl, rfl, started⟩
    · rw [others q here]
      obtain ⟨m, points, tid, same, running⟩ := grouped.master q alive
      have apart : m ≠ p := by
        rintro rfl
        exact thread tid
      refine ⟨m, points, ?_⟩
      rw [others m apart]
      exact ⟨tid, same, running⟩
  · intro q still
    rw [state q] at still
    have here : q ≠ p := by
      rintro rfl
      rw [still] at started
      contradiction
    rw [others q here]
    exact grouped.embryo q still
  · intro q np forking
    rw [state np]
    exact grouped.forking q np forking
  · intro q m inquire minPass sharing alive
    rw [state q] at alive
    have here := special q (by rw [show s.call q = _ from sharing]; exact Call.noConfusion)
    rw [others q here]
    exact grouped.sharing q m inquire minPass sharing alive
  · intro q isMaster leaving alive
    rw [state q] at alive
    have here := special q (by rw [show s.call q = _ from leaving]; exact Call.noConfusion)
    rw [others q here]
    obtain ⟨one, free⟩ := grouped.leaving q isMaster leaving alive
    refine ⟨one, fun left q' distinct running => ?_⟩
    rw [state q'] at running
    by_cases there : q' = p
    · rw [there, slot]
      intro same
      exact here (Option.some.inj same).symm
    · rw [others q' there]
      exact free left q' distinct running

/-- Entering a call that keeps something of the groups. -/
theorem Grouped.enter (grouped : Grouped s) {call : Call}
    (forking : ∀ np, call = .fork np → (s.proc np).state = .embryo ∧ ∀ q, s.call q ≠ .fork np)
    (creating : ∀ tid, call = .threadCreate tid → 2 ≤ tid)
    (sharing : ∀ m inquire minPass, call = .setCpuShare m inquire minPass → (s.proc p).master = some m)
    (leaving : ∀ isMaster, call = .exec isMaster →
      (s.proc p).tid = 1 ∧ (isMaster = false → Alone s p)) : Grouped (s.setCall p call) := by
  refine ⟨grouped.fresh, grouped.positive, grouped.masters, grouped.master, grouped.embryo, ?_, ?_, ?_, ?_, ?_⟩
  · intro q np entered
    by_cases here : q = p
    · rw [here, System.setCall_self] at entered
      exact (forking np entered).1
    · rw [System.setCall_other _ _ here] at entered
      exact grouped.forking q np entered
  · intro q q' np first second
    by_cases here : q = p
    · by_cases there : q' = p
      · rw [here, there]
      · rw [here, System.setCall_self] at first
        rw [System.setCall_other _ _ there] at second
        exact absurd second ((forking np first).2 q')
    · by_cases there : q' = p
      · rw [there, System.setCall_self] at second
        rw [System.setCall_other _ _ here] at first
        exact absurd first ((forking np second).2 q)
      · rw [System.setCall_other _ _ here] at first
        rw [System.setCall_other _ _ there] at second
        exact grouped.forkers q q' np first second
  · intro q tid entered
    by_cases here : q = p
    · rw [here, System.setCall_self] at entered
      exact creating tid entered
    · rw [System.setCall_other _ _ here] at entered
      exact grouped.creating q tid entered
  · intro q m inquire minPass entered started
    by_cases here : q = p
    · rw [here, System.setCall_self] at entered
      rw [here]
      exact sharing m inquire minPass entered
    · rw [System.setCall_other _ _ here] at entered
      exact grouped.sharing q m inquire minPass entered started
  · intro q isMaster entered started
    by_cases here : q = p
    · rw [here, System.setCall_self] at entered
      rw [here]
      exact leaving isMaster entered
    · rw [System.setCall_other _ _ here] at entered
      exact grouped.leaving q isMaster entered started

/-- Nobody forks into a slot that is no embryo. -/
theorem Grouped.noForker (grouped : Grouped s) (state : (s.proc np).state ≠ .embryo) (q : Lwp) :
    s.call q ≠ .fork np :=
  fun forking => state (grouped.forking q np forking)

/-- `next_tid` is at least 2. -/
theorem nextTid_least (s : System) (p : Lwp) : 2 ≤ s.nextTid p := by
  have grows : ∀ (slots : List Lwp) (first : Nat), first ≤ slots.foldl (fun tid q =>
      if (s.proc q).pid = (s.proc p).pid then max tid (s.proc q).tid else tid) first := by
    intro slots
    induction slots with
    | nil => exact fun first => Nat.le_refl first
    | cons q rest ih =>
      intro first
      rw [List.foldl_cons]
      by_cases mine : (s.proc q).pid = (s.proc p).pid
      · rw [if_pos mine]
        exact Nat.le_trans (Nat.le_max_left _ _) (ih _)
      · rw [if_neg mine]
        exact ih _
  exact Nat.succ_le_succ (grows _ 1)

/-! ## Steps -/

/-- A started LWP becomes a zombie. -/
theorem Grouped.zombie (grouped : Grouped s) (started : (s.proc p).state.started = true)
    (alone : (s.proc p).tid = 1 → Alone s p) : Grouped (s.zombie p) := by
  have alone : Alone s p := by
    by_cases whole : (s.proc p).tid = 1
    · exact alone whole
    · exact grouped.alone whole
  refine grouped.retire alone rfl RunState.noConfusion (grouped.fresh p) (fun _ => ?_)
    (fun whole => ⟨whole, rfl⟩) (grouped.noForker ?_)
  · refine grouped.positive p fun unused => ?_
    rw [unused] at started
    contradiction
  · intro embryo
    rw [embryo] at started
    contradiction

/-- A zombie is deleted. -/
theorem Grouped.deleteThread (grouped : Grouped s) (zombie : (s.proc p).state = .zombie)
    (deleted : s.deleteThread p = some t) : Grouped t := by
  obtain ⟨unused, pid, tid, _, _⟩ := System.deleteThread_self deleted
  obtain ⟨nextpid, initproc, call⟩ := System.deleteThread_rest deleted
  have retired : Grouped (s.setProc p (t.proc p)) := by
    refine grouped.retire (grouped.vacant ?_) ?_ ?_ ?_ ?_ ?_ (grouped.noForker ?_)
    · rw [zombie]
      rfl
    · rw [unused]
      rfl
    · rw [unused]
      exact RunState.noConfusion
    · rw [pid]
      exact Nat.lt_of_le_of_lt (Nat.zero_le _) (grouped.fresh p)
    · intro taken
      exact absurd unused taken
    · intro one
      rw [tid] at one
      contradiction
    · rw [zombie]
      exact RunState.noConfusion
  refine retired.congr ⟨fun q => ?_, nextpid, initproc, fun q => .inl (by rw [call]; rfl)⟩
  by_cases here : q = p
  · rw [here, System.setProc_self]
    exact .refl _
  · obtain ⟨stack, slot⟩ := System.deleteThread_other deleted here
    rw [System.setProc_other _ _ here, slot]
    exact ⟨rfl, rfl, rfl, .inl rfl⟩

/-- Zombies are deleted. -/
theorem Grouped.reaps (grouped : Grouped s) (reaps : Reaps s t) : Grouped t := by
  induction reaps with
  | calm calm => exact grouped.congr calm.groups
  | reap q before zombie deleted _ ih => exact ih ((grouped.congr before.groups).deleteThread zombie deleted)

/-- The state of a slot that was taken. -/
theorem takeSlot_embryo (s : System) (np : Lwp) : ((s.takeSlot np).proc np).state = .embryo := by
  unfold System.takeSlot
  rw [System.setProc_self]

/-- `fork` up to the return of `allocproc`. -/
theorem Grouped.fork (grouped : Grouped s) (p : Lwp) (kalloc : Bool) : Grouped (s.fork p kalloc) := by
  rcases fork_cases s p kalloc with same | ⟨np, free, _, same⟩ | ⟨np, free, _, same⟩
  · rw [same]
    exact grouped
  · rw [same]
    have unused := freeSlot_unused free
    have taken := grouped.takeSlot unused
    refine taken.retire (taken.vacant ?_) rfl RunState.noConfusion (taken.fresh np) (absurd rfl)
      (fun whole => ⟨whole, rfl⟩) (grouped.noForker (s := s) ?_)
    · rw [takeSlot_embryo]
      rfl
    · rw [unused]
      exact RunState.noConfusion
  · rw [same]
    have unused := freeSlot_unused free
    have sorted := Sorted.initSlot (s.takeSlot np) np
    refine ((grouped.takeSlot unused).congr sorted.groups).enter ?_ nofun nofun nofun
    intro np' same
    cases same
    refine ⟨((sorted.groups.proc np).state_iff rfl).mpr (takeSlot_embryo s np), fun q => ?_⟩
    rw [sorted.call]
    refine grouped.noForker ?_ q
    rw [unused]
    exact RunState.noConfusion

/-- Giving up a directory that nobody has got leaves the groups alone. -/
theorem discard_groups {begun : Option Nat} (discarded : s.discard p begun = some t) :
    SameGroups s t ∧ t.call = s.call ∧ t.proc = s.proc := by
  unfold System.discard at discarded
  split at discarded
  · cases discarded
    exact ⟨.refl s, rfl, rfl⟩
  · split at discarded
    · contradiction
    · cases discarded
      exact ⟨⟨fun _ => .refl _, rfl, rfl, fun _ => .inl rfl⟩, rfl, rfl⟩

/-- What the rest of `fork` does: the child is given up or started. -/
theorem forkCopy_some {result : CopyResult} (copied : s.forkCopy p np result = some t) :
    (∃ begun u, result = .failed begun ∧ s.discard p begun = some u ∧
      t = (u.setProc np { u.proc np with kstack := false, state := .unused }).setCall p .none) ∨
    ∃ d, result = .copied d ∧ s.dirs d = false ∧
      t = ((({ s with dirs := Function.update s.dirs d true }.setProc np { s.proc np with
        pgdir := some d, sz := (s.proc p).sz, parent := some p, state := .runnable }).setCall np .none).setCall p .none) := by
  unfold System.forkCopy at copied
  split at copied
  · contradiction
  · obtain ⟨u, discarded, rfl⟩ := Option.map_eq_some_iff.mp copied
    exact .inl ⟨_, u, rfl, discarded, rfl⟩
  · split at copied
    · contradiction
    · rename_i new
      cases copied
      exact .inr ⟨_, rfl, Bool.eq_false_iff.mpr new, rfl⟩

/-- The rest of `fork`. -/
theorem Grouped.forkCopy (grouped : Grouped s) {result : CopyResult} (call : s.call p = .fork np)
    (copied : s.forkCopy p np result = some t) : Grouped t := by
  have embryo := grouped.forking p np call
  rcases forkCopy_some copied with ⟨_, u, rfl, discarded, rfl⟩ | ⟨pgdir, rfl, _, rfl⟩
  · obtain ⟨groups, calls, slots⟩ := discard_groups discarded
    have still : Grouped (u.setCall p .none) := (grouped.congr groups).congr (.setCall rfl)
    have callers : ∀ q, (u.setCall p .none).call q ≠ .fork np := by
      intro q
      by_cases here : q = p
      · rw [here, System.setCall_self]
        exact Call.noConfusion
      · rw [System.setCall_other _ _ here, calls]
        exact fun forking => here (grouped.forkers q p np forking call)
    refine still.retire (p := np) (r := { u.proc np with kstack := false, state := .unused })
      (still.vacant ?_) rfl RunState.noConfusion (still.fresh np) (absurd rfl)
      (fun whole => ⟨whole, rfl⟩) callers
    change (u.proc np).state.started = false
    rw [slots, embryo]
    rfl
  · have quit : Grouped ((s.setCall np .none).setCall p .none) :=
      (grouped.congr (.setCall rfl)).congr (.setCall rfl)
    have free : ∀ q, ((s.setCall np .none).setCall p .none).call q ≠ .fork np := by
      intro q
      by_cases here : q = p
      · rw [here, System.setCall_self]
        exact Call.noConfusion
      · rw [System.setCall_other _ _ here]
        by_cases there : q = np
        · rw [there, System.setCall_self]
          exact Call.noConfusion
        · rw [System.setCall_other _ _ there]
          exact fun forking => here (grouped.forkers q p np forking call)
    have plain : (((s.setCall np .none).setCall p .none).call np).plain = true := by
      by_cases here : np = p
      · rw [here, System.setCall_self]
        rfl
      · rw [System.setCall_other _ _ here, System.setCall_self]
        rfl
    obtain ⟨whole, master⟩ := grouped.embryo np embryo
    refine (quit.start (p := np) (m := np) (r := { s.proc np with
      pgdir := some pgdir, sz := (s.proc p).sz, parent := some p, state := .runnable }) embryo rfl master
      plain free (.inl ⟨whole, rfl, rfl⟩)).congr ⟨fun _ => .refl _, rfl, rfl, fun _ => .inl rfl⟩

/-- What the rest of `thread_create` does. -/
theorem threadCreate_some {tid : Nat} {outcome : StackOutcome}
    (created : s.threadCreate p tid outcome = some t) :
    ∃ np v w master base, s.freeSlot = some np ∧
      ((s.takeSlot np).initSlot np).returnNode np = some v ∧ (v.proc p).master = some master ∧
      v.takeBase master = (base, w) ∧ t = (w.finishThread p master np tid base outcome).setCall p .none := by
  unfold System.threadCreate at created
  split at created
  · contradiction
  · rename_i np u allocated
    obtain ⟨free, rfl⟩ := allocproc_free allocated
    split at created
    · rename_i v master returned points
      cases taken : v.takeBase master with
      | mk base w =>
        rw [taken] at created
        cases created
        refine ⟨np, v, w, master, base, free, returned, ?_, taken, rfl⟩
        exact ((Sorted.returnNode returned).groups.proc p).master.trans points
    · contradiction

/-- The rest of `thread_create`. -/
theorem Grouped.threadCreate (grouped : Grouped s) {tid : Nat} {outcome : StackOutcome}
    (started : (s.proc p).state.started = true) (call : s.call p = .threadCreate tid)
    (created : s.threadCreate p tid outcome = some t) : Grouped t := by
  obtain ⟨np, v, w, master, base, free, returned, points, taken, rfl⟩ := threadCreate_some created
  have unused := freeSlot_unused free
  have sorted : Sorted (s.takeSlot np) w :=
    ((Sorted.initSlot _ np).trans (.returnNode returned)).trans (.takeBase taken)
  have ready : Grouped w := (grouped.takeSlot unused).congr sorted.groups
  have embryo : (w.proc np).state = .embryo :=
    ((sorted.groups.proc np).state_iff rfl).mpr (takeSlot_embryo s np)
  have stopped : (w.proc np).state.started = false := by
    rw [embryo]
    rfl
  have callers : ∀ q, w.call q ≠ .fork np := by
    intro q
    rw [sorted.call]
    refine grouped.noForker ?_ q
    rw [unused]
    exact RunState.noConfusion
  have apart : p ≠ np := by
    rintro rfl
    rw [unused] at started
    contradiction
  have creator : (s.proc p).SameGroup (w.proc p) := by
    have same := sorted.groups.proc p
    unfold System.takeSlot at same
    rw [System.setProc_other _ _ apart] at same
    exact same
  have running : (w.proc p).state.started = true := by
    rw [creator.started]
    exact started
  have points : (w.proc p).master = some master :=
    ((Sorted.takeBase taken).groups.proc p).master.trans points
  have gaveUp : ∀ {u : System}, Grouped u → (u.proc np).state = .embryo → (∀ q, u.call q ≠ .fork np) →
      Grouped (u.setProc np { u.proc np with state := .unused }) := by
    intro u given still free
    refine given.retire (given.vacant ?_) rfl RunState.noConfusion (given.fresh np) (absurd rfl)
      (fun whole => ⟨whole, rfl⟩) free
    rw [still]
    rfl
  have finished : Grouped (w.finishThread p master np tid base outcome) := by
    cases outcome with
    | noMemory => exact gaveUp ready embryo callers
    | noCopy =>
      have pushed : Calm w (w.setProc master { w.proc master with stack := base :: (w.proc master).stack }) :=
        .setProc (.of_state (.inl rfl) ⟨rfl, rfl, rfl, rfl, rfl, rfl, rfl⟩)
      exact gaveUp (ready.congr pushed.groups) (((pushed.groups.proc np).state_iff rfl).mpr embryo) callers
    | mapped =>
      obtain ⟨m, same, whole, pid, alive⟩ := ready.master p running
      rw [points] at same
      cases same
      have quit : Grouped (w.setCall np .none) := ready.congr (.setCall rfl)
      have creating := ready.creating p tid (by rw [sorted.call]; exact call)
      refine quit.start (p := np) (m := master) (s := w.setCall np .none) embryo rfl rfl ?_ ?_ (.inr ⟨?_, whole, pid, alive, ?_⟩)
      · rw [System.setCall_self]
        rfl
      · intro q
        by_cases here : q = np
        · rw [here, System.setCall_self]
          exact Call.noConfusion
        · rw [System.setCall_other _ _ here]
          exact callers q
      · change tid ≠ 1
        omega
      · rintro q leaving alive' rfl
        have away : master ≠ np := by
          rintro rfl
          rw [System.setCall_self] at leaving
          contradiction
        rw [System.setCall_other _ _ away] at leaving
        have distinct : p ≠ master := by
          rintro rfl
          rw [sorted.call] at leaving
          rw [show (s.takeSlot np).call p = s.call p from rfl, call] at leaving
          contradiction
        exact (ready.leaving master false leaving alive').2 rfl p distinct running points
  exact finished.congr (.setCall rfl)

/-- Killing the other LWPs of a group is calm. -/
theorem Calm.killOthers (s : System) (p : Lwp) : Calm s (s.killOthers p) := by
  have alike : ∀ q, (s.proc q).Alike ((s.killOthers p).proc q) := by
    intro q
    unfold System.killOthers
    simp only
    by_cases mine : (s.proc q).master = (s.proc p).master ∧ q ≠ p
    · rw [if_pos mine]
      refine .of_state ?_ ⟨rfl, rfl, rfl, rfl, rfl, rfl, rfl⟩
      by_cases asleep : (s.proc q).state = .sleeping
      · simp only [asleep, if_true]
        exact .inr ⟨rfl, rfl⟩
      · simp only [asleep, if_false]
        exact .inl trivial
    · rw [if_neg mine]
      exact .of_state (.inl rfl) ⟨rfl, rfl, rfl, rfl, rfl, rfl, rfl⟩
  exact ⟨⟨fun q => (alike q).toSameGroup, rfl, rfl, fun _ => .inl rfl⟩,
    ⟨fun q => (alike q).toSameClass, rfl, fun _ => rfl, fun _ => rfl⟩, ⟨fun q => (alike q).pgdir, rfl, rfl⟩⟩

/-- An LWP that is no master enters `exec`. -/
theorem Grouped.detach (grouped : Grouped s) (started : (s.proc p).state.started = true)
    (call : s.call p = .none) (thread : (s.proc p).tid ≠ 1) :
    Grouped ((s.execDeleteThread p).setCall p (.exec false)) := by
  have killed := Calm.killOthers s p
  have before := killed.groups.proc p
  have alone : Alone (s.killOthers p) p := (grouped.alone thread).congr killed.groups
  have left : Grouped ((s.killOthers p).leaveGroup p) := by
    refine (grouped.congr killed.groups).leaveGroup ?_ call ?_
    · rw [before.started]
      exact started
    · rw [before.tid]
      exact thread
  have sorted := Sorted.pushMlfq ((s.killOthers p).leaveGroup p)
    (((s.killOthers p).leaveGroup p).proc p).pid 0
  refine (left.congr sorted.groups).enter nofun nofun nofun ?_
  intro isMaster same
  refine ⟨?_, fun _ => ?_⟩
  · change ((s.execDeleteThread p).proc p).tid = 1
    unfold System.execDeleteThread
    rw [(sorted.groups.proc p).tid]
    unfold System.leaveGroup
    rw [System.setProc_self]
  · refine Alone.congr sorted.groups ?_
    intro q other started
    unfold System.leaveGroup at started ⊢
    rw [System.setProc_other _ _ other] at started ⊢
    exact alone q other started

/-- The commit of `exec` changes no group. -/
theorem execCommit_groups {isMaster : Bool} {pgdir sz : Nat}
    (committed : s.execCommit p isMaster pgdir sz = some t) : SameGroups s t := by
  have allocated : SameGroups s { s with dirs := Function.update s.dirs pgdir true } :=
    ⟨fun _ => .refl _, rfl, rfl, fun _ => .inl rfl⟩
  have moved := allocated.trans (.setProc (p := p) (q := { s.proc p with pgdir := some pgdir, sz })
    ⟨rfl, rfl, rfl, .inl rfl⟩)
  unfold System.execCommit at committed
  split at committed
  · contradiction
  · simp only at committed
    split at committed
    · cases committed
      exact moved.trans (.setCall rfl)
    · contradiction
    · cases committed
      have left : ∀ s : System, SameGroups s (s.setCall p .none) := fun _ => .setCall rfl
      exact moved.trans ⟨fun _ => .refl _, rfl, rfl, (left _).call⟩

/-- Every step in which a master calls `thread_exit` only when it is alone keeps the groups. -/
theorem Grouped.step (grouped : Grouped s) {event : Event} (effect : Effect s event t)
    (alone : ∀ p retval, event = .threadExit p retval → (s.proc p).tid = 1 → Alone s p) : Grouped t := by
  cases effect with
  | calm _ calm => exact grouped.congr calm.groups
  | fork p kalloc _ _ => exact grouped.fork p kalloc
  | forkCopy p np pgdir _ call copied => exact grouped.forkCopy call copied
  | threadChoose p running call =>
    refine grouped.enter nofun ?_ nofun nofun
    intro tid same
    cases same
    exact nextTid_least s p
  | threadCreate p tid outcome running call created =>
    exact grouped.threadCreate (System.started_of_running running) call created
  | threadExit p retval u running call before after =>
    have same := before.groups.proc p
    refine ((grouped.congr before.groups).zombie ?_ ?_).congr after.groups
    · rw [same.started]
      exact System.started_of_running running
    · intro whole
      rw [same.tid] at whole
      exact (alone p retval rfl whole).congr before.groups
  | reaps p _ running _ reaps => exact grouped.reaps reaps
  | exit p _ u running which reaps gone after =>
    have given := grouped.reaps reaps
    have started : (u.proc p).state.started = true := by
      rw [(reaps.started (System.started_of_running running)).started]
      exact System.started_of_running running
    refine (given.zombie started ?_).congr after.groups
    intro whole q other alive master
    have ended := gone whole q other (master.trans (given.own started whole).symm)
    rw [ended] at alive
    contradiction
  | detach p running call thread =>
    exact grouped.detach (System.started_of_running running) call thread
  | exec p running call whole =>
    refine grouped.enter nofun nofun nofun ?_
    intro isMaster same
    cases same
    exact ⟨whole, nofun⟩
  | execFail p begun _ discarded =>
    exact (grouped.congr (discard_groups discarded).1).congr (.setCall rfl)
  | execCommit p isMaster pgdir sz _ _ committed => exact grouped.congr (execCommit_groups committed)
  | shareCheck p master inquire minPass running call found _ =>
    refine grouped.enter nofun nofun ?_ nofun
    intro m _ _ same
    cases same
    exact grouped.findMaster (System.started_of_running running) found
  | shareUpdate p master inquire minPass _ _ updated =>
    exact (grouped.congr (Sorted.shareUpdate updated).groups).congr (.setCall rfl)
  | tick p yields _ ticked => exact grouped.congr (Sorted.addTick ticked).groups

end Invariant

/-! ## Ranks -/

/-- The slot is the master of a group. -/
def Leads (s : System) (m : Lwp) : Prop := (s.proc m).tid = 1 ∧ (s.proc m).state ≠ .unused

/-- What the scheduler's tables rely on of groups; it also holds when masters leave others behind. -/
structure Ranked (s : System) : Prop where
  /-- Pids were handed out. -/
  fresh : ∀ p, (s.proc p).pid < s.nextpid
  /-- A taken slot has a pid. -/
  positive : ∀ p, (s.proc p).state ≠ .unused → 0 < (s.proc p).pid
  /-- A pid has one master. -/
  masters : ∀ p q, Leads s p → Leads s q → (s.proc p).pid = (s.proc q).pid → p = q
  /-- A started LWP points to the master of its pid, if there is one left. -/
  leader : ∀ m q, Leads s m → (s.proc q).state.started = true → (s.proc q).pid = (s.proc m).pid →
    (s.proc q).master = some m
  /-- The slot that `fork` prepares is an embryo. -/
  forking : ∀ p np, s.call p = .fork np → (s.proc np).state = .embryo
  /-- `next_tid` is not the tid of a master. -/
  creating : ∀ p tid, s.call p = .threadCreate tid → 2 ≤ tid

section Ranks

variable {s t : System} {p : Lwp}

/-- Groups without orphans are ranked. -/
theorem Grouped.ranked (grouped : Grouped s) : Ranked s where
  fresh := grouped.fresh
  positive := grouped.positive
  masters p q first second same := grouped.masters p q first.1 second.1 same
  leader m q leads started same := by
    obtain ⟨m', master, tid, pid, _⟩ := grouped.master q started
    rw [master, grouped.masters m' m tid leads.1 (pid.trans same)]
  forking := grouped.forking
  creating := grouped.creating

/-- Nothing of the groups changed. -/
theorem Ranked.congr (ranked : Ranked s) (same : SameGroups s t) : Ranked t := by
  have call : ∀ p, (t.call p).plain = false → t.call p = s.call p :=
    fun p special => (same.call p).resolve_right (by rw [special]; exact Bool.false_ne_true)
  have leads : ∀ m, Leads t m → Leads s m := by
    rintro m ⟨whole, taken⟩
    exact ⟨(same.proc m).tid.symm.trans whole, fun unused => taken (((same.proc m).state_iff rfl).mpr unused)⟩
  refine ⟨?_, ?_, ?_, ?_, ?_, ?_⟩
  · intro p
    rw [(same.proc p).pid, same.nextpid]
    exact ranked.fresh p
  · intro p taken
    rw [(same.proc p).pid]
    exact ranked.positive p fun unused => taken (((same.proc p).state_iff rfl).mpr unused)
  · intro p q first second
    rw [(same.proc p).pid, (same.proc q).pid]
    exact ranked.masters p q (leads p first) (leads q second)
  · intro m q leader started
    rw [(same.proc q).started] at started
    rw [(same.proc q).pid, (same.proc m).pid, (same.proc q).master]
    exact ranked.leader m q (leads m leader) started
  · intro p np forking
    rw [call p (by rw [forking]; rfl)] at forking
    exact ((same.proc np).state_iff rfl).mpr (ranked.forking p np forking)
  · intro p tid creating
    rw [call p (by rw [creating]; rfl)] at creating
    exact ranked.creating p tid creating

/-- A zombie is deleted. -/
theorem Ranked.deleteThread (ranked : Ranked s) (zombie : (s.proc p).state = .zombie)
    (deleted : s.deleteThread p = some t) : Ranked t := by
  obtain ⟨unused, pid, tid, _, _⟩ := System.deleteThread_self deleted
  obtain ⟨nextpid, _, call⟩ := System.deleteThread_rest deleted
  have others : ∀ q, q ≠ p → (s.proc q).SameGroup (t.proc q) := by
    intro q other
    obtain ⟨stack, slot⟩ := System.deleteThread_other deleted other
    rw [slot]
    exact ⟨rfl, rfl, rfl, .inl rfl⟩
  have kept : ∀ q, (t.proc q).state ≠ .unused → q ≠ p ∧ (s.proc q).state ≠ .unused := by
    intro q taken
    have other : q ≠ p := by
      rintro rfl
      exact taken unused
    exact ⟨other, fun free => taken (((others q other).state_iff rfl).mpr free)⟩
  have leads : ∀ m, Leads t m → m ≠ p ∧ Leads s m := by
    rintro m ⟨whole, taken⟩
    obtain ⟨other, before⟩ := kept m taken
    exact ⟨other, (others m other).tid.symm.trans whole, before⟩
  refine ⟨?_, ?_, ?_, ?_, ?_, ?_⟩
  · intro q
    rw [nextpid]
    by_cases here : q = p
    · rw [here, pid]
      exact Nat.lt_of_le_of_lt (Nat.zero_le _) (ranked.fresh p)
    · rw [(others q here).pid]
      exact ranked.fresh q
  · intro q taken
    obtain ⟨other, before⟩ := kept q taken
    rw [(others q other).pid]
    exact ranked.positive q before
  · intro m m' first second
    obtain ⟨other, before⟩ := leads m first
    obtain ⟨other', before'⟩ := leads m' second
    rw [(others m other).pid, (others m' other').pid]
    exact ranked.masters m m' before before'
  · intro m q leader started
    obtain ⟨other, before⟩ := leads m leader
    have there : q ≠ p := by
      rintro rfl
      rw [unused] at started
      contradiction
    rw [(others q there).started] at started
    rw [(others q there).pid, (others m other).pid, (others q there).master]
    exact ranked.leader m q before started
  · intro q np forking
    rw [call] at forking
    have embryo := ranked.forking q np forking
    have other : np ≠ p := by
      rintro rfl
      rw [zombie] at embryo
      contradiction
    exact ((others np other).state_iff rfl).mpr embryo
  · intro q tid creating
    rw [call] at creating
    exact ranked.creating q tid creating

/-- Zombies are deleted. -/
theorem Ranked.reaps (ranked : Ranked s) (reaps : Reaps s t) : Ranked t := by
  induction reaps with
  | calm calm => exact ranked.congr calm.groups
  | reap q before zombie deleted _ ih => exact ih ((ranked.congr before.groups).deleteThread zombie deleted)

end Ranks

/-! ## The first process -/

/-- `allocproc` gives the first process the first slot. -/
theorem allocproc_first : (System.emptyTables.allocproc true).2 = (System.emptyTables.takeSlot 0).initSlot 0 := by
  unfold System.allocproc
  rw [show firstSlot (fun p => (System.emptyTables.proc p).state == .unused) = some 0 from by decide]
  rfl

/-- The empty tables have no groups. -/
theorem Grouped.emptyTables : Grouped System.emptyTables where
  fresh _ := Nat.zero_lt_one
  positive _ taken := absurd rfl taken
  masters _ _ whole := absurd whole Nat.zero_ne_one
  master _ started := absurd started Bool.false_ne_true
  embryo _ state := absurd state RunState.noConfusion
  forking _ _ call := absurd call Call.noConfusion
  forkers _ _ _ call := absurd call Call.noConfusion
  creating _ _ call := absurd call Call.noConfusion
  sharing _ _ _ _ call := absurd call Call.noConfusion
  leaving _ _ call := absurd call Call.noConfusion

/-- The first process is a group of its own. -/
theorem Grouped.userinit (d : Nat) : Grouped (System.userinit d) := by
  have sorted := Sorted.initSlot (System.emptyTables.takeSlot 0) 0
  have ready := (Grouped.emptyTables.takeSlot rfl).congr sorted.groups
  have embryo := ((sorted.groups.proc 0).state_iff rfl).mpr (takeSlot_embryo _ 0)
  obtain ⟨whole, master⟩ := ready.embryo 0 embryo
  have calls : ∀ q, ((System.emptyTables.takeSlot 0).initSlot 0).call q = .none :=
    fun q => congrFun sorted.call q
  have started := ready.start (r := { ((System.emptyTables.takeSlot 0).initSlot 0).proc 0 with
      pgdir := some d, sz := PGSIZE, state := .runnable }) embryo rfl master
    (congrArg Call.plain (calls 0)) (fun q forking => Call.noConfusion ((calls q).symm.trans forking))
    (.inl ⟨whole, rfl, rfl⟩)
  unfold System.userinit
  rw [allocproc_first]
  exact started.congr ⟨fun _ => .refl _, rfl, rfl, fun _ => .inl rfl⟩

end Xv6
