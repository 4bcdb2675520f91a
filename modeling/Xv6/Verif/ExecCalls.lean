import Xv6.Exec
import Xv6.Verif.Conservation
import Xv6.Verif.Endings
import Xv6.Verif.Followers

/-!
# `exec` and the group of its caller

An LWP that is no master leaves its group at the entry of `exec`, before anything can fail, and ends
the others there. A master leaves the others of its group running.
-/

namespace Xv6

/-- The LWPs that share a pid share a master. -/
def Cohort (s : System) : Prop :=
  ∀ p q, (s.proc p).state ≠ .unused → (s.proc q).state ≠ .unused → (s.proc p).pid = (s.proc q).pid →
    (s.proc p).master = (s.proc q).master

section Cohorts

variable {s t : System} {p q : Lwp} {event : Event}

/-- A slot with a new pid is the only one. -/
theorem Placing.founder (first : Placing s p t event) (second : Placing s q t event) (fresh : ∀ r, (s.proc r).pid < s.nextpid)
    (new : (t.proc p).pid = s.nextpid) (same : (t.proc p).pid = (t.proc q).pid) : p = q := by
  have old : ∀ r r', (t.proc r').pid = s.nextpid → (t.proc r').pid ≠ (s.proc r).pid := by
    intro r r' given equal
    have below := fresh r
    omega
  cases first with
  | kept _ pid _ _ => exact absurd pid (old p p new)
  | joins r _ _ _ _ _ _ pid _ _ _ => exact absurd pid (old r p new)
  | founds _ _ _ _ which =>
    cases second with
    | kept _ pid _ _ => exact absurd pid (old q q (same.symm.trans new))
    | joins r _ _ _ _ _ _ pid _ _ _ => exact absurd pid (old r q (same.symm.trans new))
    | founds _ _ _ _ which' =>
      rcases which with ⟨free, _, fork⟩ | leave <;> rcases which' with ⟨free', _, fork'⟩ | leave'
      · exact Option.some.inj (free.symm.trans free')
      · exact Event.noConfusion (fork.symm.trans leave')
      · exact Event.noConfusion (leave.symm.trans fork')
      · exact Event.exec.inj (leave.symm.trans leave')

/-- Every step keeps the cohorts. -/
theorem Cohort.step (cohort : Cohort s) (lineage : Lineage s) (taken : s.step event = some t) : Cohort t := by
  intro p q busy busy' same
  have slots := step_slot lineage.positive taken
  have first := (slots p).placing lineage busy
  have second := (slots q).placing lineage busy'
  by_cases here : p = q
  · rw [here]
  · have old : ∀ {r}, Placing s r t event → (t.proc r).pid ≠ s.nextpid → (t.proc r).state ≠ .unused →
        ∃ r', (s.proc r').state ≠ .unused ∧ (t.proc r).pid = (s.proc r').pid ∧ (t.proc r).master = (s.proc r').master := by
      intro r placing given _
      cases placing with
      | kept was pid _ master => exact ⟨r, was, pid, master⟩
      | founds new _ _ _ _ => exact absurd new given
      | joins p' _ created running _ free state _ _ _ _ =>
        rw [created] at taken
        obtain ⟨_, pid, master⟩ := lineage.published taken (freeSlot_unused free) state
        exact ⟨p', taken_of_state running nofun, pid, master⟩
    have given : (t.proc p).pid ≠ s.nextpid := fun new => here (first.founder second lineage.fresh new same)
    obtain ⟨p', was, pid, master⟩ := old first given busy
    obtain ⟨q', was', pid', master'⟩ := old second (same ▸ given) busy'
    rw [master, master']
    exact cohort p' q' was was' (pid.symm.trans (same.trans pid'))

/-- The first process is alone. -/
theorem Cohort.userinit (d : Nat) : Cohort (System.userinit d) := by
  have only := userinit_only d
  intro p q busy busy' _
  rw [only p busy, only q busy']

end Cohorts

/-! ## The entry of `exec` -/

section Entry

variable {k : KernelImage} {s t u : System} {m m' : Memory} {p q : Lwp} {file : Option Contents}
  {argv : List (List UInt8)} {result : Int}

/-- What `exec` returns with. -/
theorem exec_returns (returned : Program.run (Memory.handler k) (Vm.exec k s p file argv) m = .ok ((result, t), m')) :
    result = -1 ∧ t = s.execEntry p ∨ result = 0 ∧ ∃ image, t = (s.execEntry p).commitImage p image := by
  unfold Vm.exec at returned
  cases file with
  | none =>
    cases returned
    exact .inl ⟨rfl, rfl⟩
  | some readi =>
    obtain ⟨loaded, m₁, _, rest⟩ := Program.run_bind_eq_ok returned
    cases loaded with
    | none =>
      cases rest
      exact .inl ⟨rfl, rfl⟩
    | some image =>
      obtain ⟨_, m₂, _, ended⟩ := Program.run_bind_eq_ok rest
      cases ended
      exact .inr ⟨rfl, image, rfl⟩

/-- A master enters `exec` as it is. -/
theorem execEntry_master (whole : (s.proc p).tid = 1) : s.execEntry p = s := if_neg fun thread => thread whole

/-- An LWP that is no master leaves its group and ends the others. -/
theorem execEntry_thread (thread : (s.proc p).tid ≠ 1) : s.execEntry p = s.execDeleteThread p := if_pos thread

/-- `push_mlfq` changes only the classes and the nodes of the slots. -/
theorem pushMlfq_slot (s : System) (pid : Nat) (prior : Fin 3) (q : Lwp) :
    ∃ schedstate pmlfqNode, (s.pushMlfq pid prior).proc q = { s.proc q with schedstate, pmlfqNode } := by
  unfold System.pushMlfq
  split
  · exact ⟨_, _, rfl⟩
  · rename_i i _
    show ∃ schedstate pmlfqNode, (if (s.proc q).pid = pid then
      { s.proc q with schedstate := .mlfq, pmlfqNode := some (prior, i) } else s.proc q) = _
    split
    · exact ⟨_, _, rfl⟩
    · exact ⟨_, _, rfl⟩

/-- The caller after it has left its group: it has a new pid and is its own master. -/
theorem execDeleteThread_self (s : System) (p : Lwp) : ∃ schedstate pmlfqNode, (s.execDeleteThread p).proc p =
    { s.proc p with schedstate, pmlfqNode, pstride := none, pid := s.nextpid, tid := 1, parent := some s.initproc,
                    master := some p } := by
  obtain ⟨schedstate, pmlfqNode, slot⟩ := pushMlfq_slot ((s.killOthers p).leaveGroup p)
    (((s.killOthers p).leaveGroup p).proc p).pid 0 p
  have kept : (s.killOthers p).proc p = s.proc p := if_neg fun other => other.2 rfl
  refine ⟨schedstate, pmlfqNode, slot.trans ?_⟩
  unfold System.leaveGroup
  rw [System.setProc_self, kept]
  rfl

/-- The others after the caller has left: those that share its master are killed and awake. -/
theorem execDeleteThread_other (s : System) (other : q ≠ p) : ∃ schedstate pmlfqNode, (s.execDeleteThread p).proc q =
    { s.proc q with schedstate, pmlfqNode,
                    killed := (s.proc q).killed || decide ((s.proc q).master = (s.proc p).master),
                    state := if (s.proc q).master = (s.proc p).master ∧ (s.proc q).state = .sleeping then .runnable
                      else (s.proc q).state } := by
  obtain ⟨schedstate, pmlfqNode, slot⟩ := pushMlfq_slot ((s.killOthers p).leaveGroup p)
    (((s.killOthers p).leaveGroup p).proc p).pid 0 q
  refine ⟨schedstate, pmlfqNode, slot.trans ?_⟩
  unfold System.leaveGroup
  rw [System.setProc_other _ _ other]
  unfold System.killOthers
  dsimp only
  by_cases same : (s.proc q).master = (s.proc p).master
  · rw [if_pos ⟨same, other⟩]
    simp [same]
  · rw [if_neg fun both => same both.1]
    simp [same]

end Entry

/-! ## A call that fails -/

/-- What a failed `exec` must leave as it was: the caller and the others of its group. -/
structure Unchanged (s : System) (p : Lwp) (t : System) : Prop where
  pid : (t.proc p).pid = (s.proc p).pid
  tid : (t.proc p).tid = (s.proc p).tid
  parent : (t.proc p).parent = (s.proc p).parent
  master : (t.proc p).master = (s.proc p).master
  schedstate : (t.proc p).schedstate = (s.proc p).schedstate
  pstride : (t.proc p).pstride = (s.proc p).pstride
  pmlfqNode : (t.proc p).pmlfqNode = (s.proc p).pmlfqNode
  pgdir : (t.proc p).pgdir = (s.proc p).pgdir
  sz : (t.proc p).sz = (s.proc p).sz
  /-- The others of the group. -/
  others : ∀ q, q ≠ p → (s.proc q).pid = (s.proc p).pid →
    (t.proc q).killed = (s.proc q).killed ∧ (t.proc q).state = (s.proc q).state

section Calls

variable {k : KernelImage} {s t u : System} {m m' : Memory} {p q : Lwp} {file : Option Contents}
  {argv : List (List UInt8)} {d pgdir sz : Nat} {events : List Event}

/-- Whatever makes `exec` fail, it has changed nothing of its group if and only if its caller is a
master. -/
theorem exec_failed_iff (failed : Program.run (Memory.handler k) (Vm.exec k s p file argv) m = .ok ((-1, t), m')) :
    Unchanged s p t ↔ (s.proc p).tid = 1 := by
  obtain ⟨_, rfl⟩ | ⟨zero, _⟩ := exec_returns failed
  · constructor
    · intro unchanged
      by_contra thread
      obtain ⟨_, _, slot⟩ := execDeleteThread_self s p
      have same := unchanged.tid
      rw [execEntry_thread thread, slot] at same
      exact thread same.symm
    · intro whole
      rw [execEntry_master whole]
      exact ⟨rfl, rfl, rfl, rfl, rfl, rfl, rfl, rfl, rfl, fun _ _ _ => ⟨rfl, rfl⟩⟩
  · contradiction

/-- A file with an ELF header that announces a program header behind its end. -/
def truncatedFile : Contents := fun off n =>
  some (((wordBytes ELF_MAGIC ++ List.replicate 24 0 ++ wordBytes 52 ++ List.replicate 12 0 ++ [1] ++
    List.replicate 7 0).drop off).take n)

/-- A master of two LWPs: `exec` makes a directory and frees it when the program header is missing. -/
theorem exec_failed_master : ∃ s d m m', Run (fun s event t => s.step event = some t) (System.userinit 0)
    [.run 0, .threadChoose 0, .threadCreate 0 .mapped] s ∧ (s.proc 1).master = some 0 ∧
    Program.run (Memory.handler smallKernel) (Vm.setupkvm smallKernel) (blank (List.range' 0x110 200)) = .ok (some d, m) ∧
    Program.run (Memory.handler smallKernel) (Vm.exec smallKernel s 0 (some truncatedFile) [])
      (blank (List.range' 0x110 200)) = .ok ((-1, s.execEntry 0), m') ∧ Unchanged s 0 (s.execEntry 0) := by
  have outcome : (Run.exec System.step [.run 0, .threadChoose 0, .threadCreate 0 .mapped] (System.userinit 0)).map
      (fun s => ((s.proc 0).tid, (s.proc 1).master)) = some (1, some 0) := by
    decide +kernel
  obtain ⟨s, executed, summary⟩ := Option.map_eq_some_iff.mp outcome
  obtain ⟨whole, points⟩ := Prod.mk.inj summary
  have length : (blank (List.range' 0x110 200)).free.length = 200 := List.length_range'
  obtain ⟨d, m, owner, made, _, owners, live⟩ := setupkvm_succeeds (@blank_stock 200 (by decide)) (by rw [length]; decide)
  obtain ⟨_, m', freed, _⟩ := (freevm_frees owners live).ok
  have abandoned : Program.run (Memory.handler smallKernel) (Vm.freevm d >>= fun _ => pure (none : Option ExecImage)) m =
      .ok (none, m') := Program.run_bind_ok freed
  have loaded : Program.run (Memory.handler smallKernel) (Vm.loadImage smallKernel truncatedFile [])
      (blank (List.range' 0x110 200)) = .ok (none, m') := (Program.run_bind_ok made).trans abandoned
  have failed : Program.run (Memory.handler smallKernel) (Vm.exec smallKernel s 0 (some truncatedFile) [])
      (blank (List.range' 0x110 200)) = .ok ((-1, s.execEntry 0), m') := Program.run_bind_ok loaded
  exact ⟨s, d, m, m', Run.of_exec executed, points, made, failed, (exec_failed_iff failed).mpr whole⟩

/-- An LWP that is no master looks for a file that does not exist: it has left its group, and the
master is killed. -/
theorem exec_failed_leaves : ∃ s, Run (fun s event t => s.step event = some t) (System.userinit 0)
    [.run 0, .threadChoose 0, .threadCreate 0 .mapped, .run 1] s ∧
    Program.run (Memory.handler smallKernel) (Vm.exec smallKernel s 1 none []) (blank []) =
      .ok ((-1, s.execEntry 1), blank []) ∧ (s.proc 1).pid = 1 ∧ ((s.execEntry 1).proc 1).pid = 3 ∧
    ((s.execEntry 1).proc 0).killed = true ∧ ¬Unchanged s 1 (s.execEntry 1) := by
  have outcome : (Run.exec System.step [.run 0, .threadChoose 0, .threadCreate 0 .mapped, .run 1] (System.userinit 0)).map
      (fun s => ((s.proc 1).pid, ((s.execEntry 1).proc 1).pid, ((s.execEntry 1).proc 0).killed)) = some (1, 3, true) := by
    decide +kernel
  obtain ⟨s, executed, summary⟩ := Option.map_eq_some_iff.mp outcome
  simp only [Prod.mk.injEq] at summary
  obtain ⟨before, after, killed⟩ := summary
  refine ⟨s, Run.of_exec executed, rfl, before, after, killed, fun unchanged => ?_⟩
  have same := unchanged.pid
  rw [before, after] at same
  contradiction

end Calls

/-! ## A call that succeeds -/

/-- What a successful `exec` must leave of the group: the caller alone. -/
structure TakesOver (s : System) (p : Lwp) (t : System) : Prop where
  /-- The others that have not exited are killed and awake. -/
  others : ∀ q, q ≠ p → (s.proc q).pid = (s.proc p).pid → (s.proc q).state.live = true → (t.proc q).state.live = true →
    (t.proc q).Stopping
  /-- The caller is alone with its pid. -/
  only : ∀ q, (t.proc q).pid = (t.proc p).pid → (t.proc q).state.live = true → q = p
  tid : (t.proc p).tid = 1
  master : (t.proc p).master = some p

section Successes

variable {s t u : System} {p q : Lwp} {d pgdir sz : Nat} {events : List Event}

/-- The process table after the entry of `exec`. -/
theorem exec_enters (entered : s.step (.exec p) = some u) : (s.proc p).state = .running ∧ u.proc = (s.execEntry p).proc := by
  obtain ⟨running, _, entry⟩ := System.inside_some entered
  refine ⟨running, ?_⟩
  cases entry
  unfold System.exec System.execEntry
  by_cases thread : (s.proc p).tid ≠ 1
  · rw [if_pos thread, if_pos thread]
    rfl
  · rw [if_neg thread, if_neg thread]
    rfl

/-- The image of a running LWP. -/
theorem commitImage_running (running : (u.proc p).state = .running) (image : ExecImage) :
    (u.commitImage p image).proc = Function.update u.proc p { u.proc p with pgdir := some image.pgdir, sz := image.sz } := by
  have state : (if (u.proc p).state = .sleeping then .runnable else (u.proc p).state) = (u.proc p).state :=
    if_neg fun asleep => by rw [running] at asleep; contradiction
  unfold System.commitImage
  rw [state]
  rfl

/-- The process table after the commit of `exec`. -/
theorem execCommit_image (running : (u.proc p).state = .running) (committed : u.step (.execCommit p pgdir sz) = some t)
    (entry sp : Nat) : t.proc = (u.commitImage p ⟨pgdir, sz, entry, sp⟩).proc := by
  rw [commitImage_running running]
  unfold System.step at committed
  dsimp only at committed
  split at committed
  · obtain ⟨_, _, result⟩ := System.inside_some committed
    unfold System.execCommit at result
    split at result
    · contradiction
    · dsimp only at result
      split at result
      · cases result
        rfl
      · contradiction
      · cases result
        rfl
  · contradiction

/-- The slots after a successful `exec`. -/
theorem exec_slots (entered : s.step (.exec p) = some u) (committed : u.step (.execCommit p pgdir sz) = some t) :
    (t.proc p = { (s.execEntry p).proc p with pgdir := some pgdir, sz }) ∧
      ∀ q, q ≠ p → t.proc q = (s.execEntry p).proc q := by
  obtain ⟨running, same⟩ := exec_enters entered
  have still : (u.proc p).state = .running := by
    rw [same]
    unfold System.execEntry
    split
    · obtain ⟨_, _, slot⟩ := execDeleteThread_self s p
      rw [slot]
      exact running
    · exact running
  rw [execCommit_image still committed 0 0, commitImage_running still, ← same]
  exact ⟨Function.update_self .., fun q other => Function.update_of_ne other ..⟩

end Successes

end Xv6
