import Xv6.GroupMemory
import Xv6.Verif.Lineage
import Xv6.Verif.Paging

/-!
# Groups and their memory

The tables with their page directories refine the memory of a group: every step of an LWP is a run
of the tables and a change of the memory of its group, and what all changes keep of the memory
holds in every run of the group.
-/

namespace Xv6

/-! ## Groups -/

/-- A group whose LWPs share the directory of their master `m`. -/
structure GroupOf (s : System) (m : Lwp) : Prop where
  /-- The master has not been deleted. -/
  taken : (s.proc m).state ≠ .unused
  whole : (s.proc m).tid = 1
  /-- It has a directory. -/
  home : (s.proc m).pgdir ≠ none
  /-- No other slot has its pid and tid 1. -/
  only : ∀ q, (s.proc q).tid = 1 → (s.proc q).pid = (s.proc m).pid → q = m
  /-- The LWPs that point to it have its pid and its directory. -/
  members : ∀ q, (s.proc q).state ≠ .unused → (s.proc q).master = some m →
    (s.proc q).pid = (s.proc m).pid ∧ (s.proc q).pgdir = (s.proc m).pgdir
  /-- The LWPs that have its pid point to it. -/
  lwps : ∀ q, (s.proc q).state ≠ .unused → (s.proc q).pid = (s.proc m).pid → (s.proc q).master = some m

/-! ## Frames -/

/-- The slot holds the same LWP. -/
structure Proc.SameLwp (q r : Proc) : Prop where
  pid : r.pid = q.pid
  tid : r.tid = q.tid
  master : r.master = q.master
  pgdir : r.pgdir = q.pgdir
  /-- The slot is as unused as before. -/
  unused : r.state = .unused ↔ q.state = .unused

/-- The slot holds the same LWP with the same memory, as alive as before. -/
structure Proc.Still (q r : Proc) : Prop extends Proc.SameLwp q r where
  sz : r.sz = q.sz
  base : r.base = q.base
  stack : r.stack = q.stack
  /-- The LWP is as started as before. -/
  started : r.state.started = q.state.started

/-- Every slot is still. -/
def Still (s t : System) : Prop := ∀ q, (s.proc q).Still (t.proc q)

section StillFunctions

variable {q r v : Proc} {s t u : System} {p m : Lwp}

/-- Nothing changed. -/
theorem Proc.Still.refl (q : Proc) : q.Still q := ⟨⟨rfl, rfl, rfl, rfl, Iff.rfl⟩, rfl, rfl, rfl, rfl⟩

/-- Two changes. -/
theorem Proc.SameLwp.trans (first : q.SameLwp r) (second : r.SameLwp v) : q.SameLwp v :=
  ⟨second.pid.trans first.pid, second.tid.trans first.tid, second.master.trans first.master,
    second.pgdir.trans first.pgdir, second.unused.trans first.unused⟩

/-- Two changes. -/
theorem Proc.Still.trans (first : q.Still r) (second : r.Still v) : q.Still v :=
  ⟨first.toSameLwp.trans second.toSameLwp, second.sz.trans first.sz, second.base.trans first.base,
    second.stack.trans first.stack, second.started.trans first.started⟩

/-- A change of what no memory depends on, with a state that is as alive. -/
theorem Proc.Still.of_state (state : r.state = q.state ∨ q.state.started = true ∧ r.state.started = true)
    (same : r.pid = q.pid ∧ r.tid = q.tid ∧ r.master = q.master)
    (memory : r.pgdir = q.pgdir ∧ r.sz = q.sz ∧ r.base = q.base ∧ r.stack = q.stack) : q.Still r := by
  have group : q.SameGroup r := ⟨same.1, same.2.1, same.2.2, state⟩
  exact ⟨⟨same.1, same.2.1, same.2.2, memory.1, group.state_iff rfl⟩, memory.2.1, memory.2.2.1, memory.2.2.2,
    group.started⟩

/-- An LWP keeps its stack. -/
theorem Proc.Still.threadStack (still : q.Still r) (m : Lwp) : r.threadStack m = q.threadStack m := by
  unfold Proc.threadStack
  simp only [ne_eq, still.unused, still.master, still.base, still.sz, still.started]

/-- Nothing changed. -/
theorem Still.refl (s : System) : Still s s := fun _ => .refl _

/-- Two changes. -/
theorem Still.trans (first : Still s t) (second : Still t u) : Still s u := fun q => (first q).trans (second q)

/-- Replacing one slot. -/
theorem Still.setProc (still : (s.proc p).Still q) : Still s (s.setProc p q) := by
  intro r
  by_cases here : r = p
  · rw [here, System.setProc_self]
    exact still
  · rw [System.setProc_other _ _ here]
    exact .refl _

/-- `wakeup1`. -/
theorem Still.wakeup1 (s : System) (chan : Option Chan) : Still s (s.wakeup1 chan) := by
  intro q
  show (s.proc q).Still (if (s.proc q).state = .sleeping ∧ (s.proc q).chan = chan then _ else _)
  by_cases asleep : (s.proc q).state = .sleeping ∧ (s.proc q).chan = chan
  · rw [if_pos asleep]
    refine .of_state (.inr ⟨?_, rfl⟩) ⟨rfl, rfl, rfl⟩ ⟨rfl, rfl, rfl, rfl⟩
    rw [asleep.1]
    rfl
  · rw [if_neg asleep]
    exact .refl _

/-- The loops that pass children to init. -/
theorem Still.passToInit (s : System) (child : Proc → Bool) : Still s (s.passToInit child) := by
  have passed : Still s (s.mapProc fun q => if child q then { q with parent := some s.initproc } else q) := by
    intro q
    show (s.proc q).Still (if child (s.proc q) then _ else _)
    split
    · exact .of_state (.inl rfl) ⟨rfl, rfl, rfl⟩ ⟨rfl, rfl, rfl, rfl⟩
    · exact .refl _
  unfold System.passToInit
  simp only
  split
  · exact passed.trans (.wakeup1 _ _)
  · exact passed

/-- A started process runs, waits for a processor or sleeps. -/
theorem Still.setState (started : (s.proc p).state.started = true) {state : RunState} (chan : Option Chan)
    (after : state.started = true) : Still s (s.setProc p { s.proc p with state, chan }) :=
  .setProc (.of_state (.inr ⟨started, after⟩) ⟨rfl, rfl, rfl⟩ ⟨rfl, rfl, rfl, rfl⟩)

/-- What `thread_exit` leaves of the slots. -/
theorem threadExit_still (s : System) (p : Lwp) (retval : Nat) :
    (∀ q, q ≠ p → (s.proc q).Still ((s.threadExit p retval).proc q)) ∧ ∃ r, (s.proc p).Still r ∧
      (s.threadExit p retval).proc p = { r with state := .zombie } := by
  let u := s.setProc p { s.proc p with retVal := retval }
  let v := u.wakeup1 ((u.proc p).master.map .proc)
  let child := fun q : Proc => decide (q.parent = some p) || decide (q.master = some p)
  have ended : s.threadExit p retval = (v.passToInit child).zombie p := rfl
  have stored : Still s u := .setProc (.of_state (.inl rfl) ⟨rfl, rfl, rfl⟩ ⟨rfl, rfl, rfl, rfl⟩)
  have still : Still s (v.passToInit child) := (stored.trans (.wakeup1 u _)).trans (.passToInit v child)
  rw [ended]
  refine ⟨fun q other => ?_, _, still p, System.setProc_self _ _ _⟩
  unfold System.zombie
  rw [System.setProc_other _ _ other]
  exact still q

end StillFunctions

/-! ## The group after a step -/

/-- What a step does to a slot, as far as the group of `m` is concerned. -/
inductive Membership (s : System) (m q : Lwp) (t : System) : Prop where
  /-- It holds the same LWP. -/
  | same : (s.proc q).SameLwp (t.proc q) → Membership s m q t
  /-- It is unused and no master of the group. -/
  | outside : (t.proc q).state = .unused → ((t.proc q).tid = 1 → (t.proc q).pid ≠ (s.proc m).pid) →
      Membership s m q t
  /-- It holds a new LWP of the group. -/
  | joined : (t.proc q).pid = (s.proc m).pid → (t.proc q).tid ≠ 1 → (t.proc q).master = some m →
      (t.proc q).pgdir = (s.proc m).pgdir → Membership s m q t

section Keeping

variable {s t : System} {m p q : Lwp}

/-- The group after a step that keeps its master. -/
theorem GroupOf.step (group : GroupOf s m) (master : (s.proc m).SameLwp (t.proc m))
    (slots : ∀ q, Membership s m q t) : GroupOf t m where
  taken := master.unused.not.mpr group.taken
  whole := master.tid.trans group.whole
  home := by
    rw [master.pgdir]
    exact group.home
  only := by
    intro q whole pid
    rw [master.pid] at pid
    cases slots q with
    | same same => exact group.only q (same.tid.symm.trans whole) (same.pid.symm.trans pid)
    | outside _ apart => exact absurd pid (apart whole)
    | joined _ thread _ _ => exact absurd whole thread
  members := by
    intro q taken points
    rw [master.pid, master.pgdir]
    cases slots q with
    | same same =>
      rw [same.pid, same.pgdir]
      exact group.members q (same.unused.not.mp taken) (same.master.symm.trans points)
    | outside unused _ => exact absurd unused taken
    | joined pid _ _ pgdir => exact ⟨pid, pgdir⟩
  lwps := by
    intro q taken pid
    rw [master.pid] at pid
    cases slots q with
    | same same => exact same.master.trans (group.lwps q (same.unused.not.mp taken) (same.pid.symm.trans pid))
    | outside unused _ => exact absurd unused taken
    | joined _ _ points _ => exact points

/-- The group after a step that keeps every LWP. -/
theorem GroupOf.congr (group : GroupOf s m) (same : ∀ q, (s.proc q).SameLwp (t.proc q)) : GroupOf t m :=
  group.step (same m) fun q => .same (same q)

/-- An LWP of the group with tid 1 is the master. -/
theorem GroupOf.master (group : GroupOf s m) (taken : (s.proc p).state ≠ .unused) (points : (s.proc p).master = some m)
    (whole : (s.proc p).tid = 1) : p = m := group.only p whole (group.members p taken points).1

/-- The master is its own master. -/
theorem GroupOf.own (group : GroupOf s m) : (s.proc m).master = some m := group.lwps m group.taken rfl

end Keeping

/-! ## Steps of the tables -/

section Tables

variable {x y : Space} {p : Lwp}

/-- What `thread_create` does to the tables. -/
theorem Space.threadCreate_system {tid room : Nat} (created : x.threadCreate p tid room = some y) :
    ∃ outcome, x.sys.threadCreate p tid outcome = some y.sys := by
  unfold Space.threadCreate at created
  split at created
  · cases created
  · split at created
    · cases created
    · simp only at created
      split at created
      · cases created
      · split at created
        · cases created
        · obtain ⟨sys, made, same⟩ := Option.map_eq_some_iff.mp created
          exact ⟨.noMemory, by rw [made, ← same]; rfl⟩
        · split at created
          · obtain ⟨sys, made, same⟩ := Option.map_eq_some_iff.mp created
            exact ⟨.mapped, by rw [made, ← same]; rfl⟩
          · split at created
            · rename_i made
              cases created
              exact ⟨.noCopy, made⟩
            · cases created

/-- What a pass of `thread_join` does to the tables. -/
theorem Space.joinPass_system {thread : Nat} (passed : x.joinPass p thread = some y) :
    System.afterPass (x.sys.joinPass p thread) = some y.sys := by
  unfold Space.joinPass at passed
  split at passed
  · contradiction
  · rename_i q value sys done
    unfold Space.unmap at passed
    split at passed
    · contradiction
    · obtain ⟨_, _, rfl⟩ := Option.map_eq_some_iff.mp passed
      rw [done]
      rfl
  · rename_i done
    cases passed
    rw [done]
    rfl

/-- What `growproc` does to the tables. -/
theorem Space.growproc_system {n : Int} {room : Nat} (grown : x.growproc p n room = some y) :
    y.sys = x.sys ∨ ∃ sz, (x.sys.proc p).master.map (fun master =>
      x.sys.setProc master { x.sys.proc master with sz }) = some y.sys := by
  unfold Space.growproc at grown
  split at grown
  · contradiction
  · rename_i master points
    split at grown
    · contradiction
    · simp only at grown
      split at grown
      · contradiction
      · rename_i newsz pages _
        split at grown
        · cases grown
          exact .inl rfl
        · cases grown
          refine .inr ⟨newsz, ?_⟩
          rw [points]
          rfl

/-- The commit of `exec` ends the call, whether it was entered or not. -/
theorem execCommit_entered (s : System) (p : Lwp) (pgdir sz : Nat) :
    (s.setCall p (.exec true)).execCommit p true pgdir sz = s.execCommit p true pgdir sz := by
  unfold System.execCommit
  by_cases allocated : s.dirs pgdir = true
  · rw [if_pos allocated]
    exact if_pos allocated
  · rw [if_neg allocated]
    refine (if_neg allocated).trans ?_
    cases home : (s.proc p).pgdir with
    | none => simp only [System.setCall, home]
    | some oldpgdir =>
      simp only [System.setCall, System.setProc, System.freevm, System.users, home, Function.update_idem]

/-- How `exec` ends. -/
theorem Space.exec_cases {pgdir : Nat} {ends : List Nat} (loaded : x.exec p pgdir ends = some y) :
    y = x ∨ ∃ sz pages oldpgdir sys, sz ≠ 0 ∧ Space.loadImage ends = some (sz, pages) ∧
      (x.sys.proc p).pgdir = some oldpgdir ∧ x.sys.execCommit p true pgdir sz = some sys ∧
      y = ({ x with sys }.setPages oldpgdir fun _ => none).setPages pgdir pages := by
  unfold Space.exec at loaded
  cases image : Space.loadImage ends with
  | none =>
    rw [image] at loaded
    cases loaded
  | some result =>
    obtain ⟨sz, pages⟩ := result
    rw [image] at loaded
    cases sz with
    | zero =>
      cases loaded
      exact .inl rfl
    | succ sz =>
      cases home : (x.sys.proc p).pgdir with
      | none =>
        simp only [home] at loaded
        cases loaded
      | some oldpgdir =>
        simp only [home] at loaded
        obtain ⟨sys, committed, rfl⟩ := Option.map_eq_some_iff.mp loaded
        exact .inr ⟨sz + 1, pages, oldpgdir, sys, Nat.succ_ne_zero sz, rfl, rfl, committed, rfl⟩

/-- A step of a running LWP. -/
theorem Space.inside_some {call : Call} {next : Option Space} (taken : x.inside p call next = some y) :
    (x.sys.proc p).state = .running ∧ x.sys.call p = call ∧ next = some y := by
  unfold Space.inside at taken
  split at taken
  · rename_i here
    exact ⟨here.1, here.2, taken⟩
  · contradiction

/-- A step of a running LWP. -/
theorem System.inside_of {s : System} {call : Call} {next : Option System} (running : (s.proc p).state = .running)
    (same : s.call p = call) : s.inside p call next = next := if_pos ⟨running, same⟩

/-- Every step on the memory is a run of the tables. -/
theorem Space.step_run {event : SpaceEvent} (taken : x.step event = some y) :
    ∃ events, Run (fun s event t => s.step event = some t) x.sys events y.sys := by
  have single : ∀ event : Event, x.sys.step event = some y.sys →
      ∃ events, Run (fun s event t => s.step event = some t) x.sys events y.sys :=
    fun event step => ⟨[event], .cons step (.nil _)⟩
  have table : ∀ event : Event, x.table event = some y →
      ∃ events, Run (fun s event t => s.step event = some t) x.sys events y.sys := by
    intro event step
    obtain ⟨sys, done, rfl⟩ := Option.map_eq_some_iff.mp step
    exact ⟨[event], .cons done (.nil _)⟩
  cases event with
  | run p => exact table _ taken
  | yield p => exact table _ taken
  | choose p => exact table _ taken
  | threadExit p retval => exact table _ taken
  | create p room =>
    unfold Space.step at taken
    simp only at taken
    split at taken
    · rename_i tid call
      obtain ⟨running, _, created⟩ := Space.inside_some taken
      obtain ⟨outcome, made⟩ := Space.threadCreate_system created
      refine single (.threadCreate p outcome) ?_
      unfold System.step
      simp only [call]
      rw [System.inside_of running call]
      exact made
    · contradiction
  | join p thread =>
    obtain ⟨running, call, joined⟩ := Space.inside_some taken
    split at joined
    · cases joined
      exact ⟨[], .nil _⟩
    · rename_i whole
      refine single (.threadJoin p thread) ?_
      unfold System.step
      simp only
      rw [System.inside_of running call, System.threadJoin, if_neg whole]
      exact Space.joinPass_system joined
  | rejoin p =>
    unfold Space.step at taken
    simp only at taken
    split at taken
    · rename_i thread call
      obtain ⟨running, _, joined⟩ := Space.inside_some taken
      refine single (.resume p) ?_
      unfold System.step System.resume
      simp only [call]
      rw [System.inside_of running call]
      exact Space.joinPass_system joined
    · contradiction
  | sbrk p n room =>
    obtain ⟨running, call, grown⟩ := Space.inside_some taken
    rcases Space.growproc_system grown with same | ⟨sz, stored⟩
    · rw [same]
      exact ⟨[], .nil _⟩
    · refine single (.growproc p sz) ?_
      unfold System.step
      simp only
      rw [System.inside_of running call]
      exact stored
  | exec p pgdir ends =>
    obtain ⟨running, call, loaded⟩ := Space.inside_some taken
    split at loaded
    · contradiction
    · rename_i whole
      rcases Space.exec_cases loaded with rfl | ⟨sz, pages, oldpgdir, sys, _, _, _, committed, rfl⟩
      · exact ⟨[], .nil _⟩
      · have enters : x.sys.step (.exec p) = some (x.sys.setCall p (.exec true)) := by
          unfold System.step System.exec
          simp only
          rw [System.inside_of running call, if_neg whole]
        have commits : (x.sys.setCall p (.exec true)).step (.execCommit p pgdir sz) = some sys := by
          have still : ((x.sys.setCall p (.exec true)).proc p).state = .running := running
          unfold System.step
          simp only [System.setCall_self]
          rw [System.inside_of still (System.setCall_self _ _ _), execCommit_entered]
          exact committed
        exact ⟨[.exec p, .execCommit p pgdir sz], .cons enters (.cons commits (.nil _))⟩

end Tables

/-! ## `thread_create` -/

/-- The slot of a master after a base is taken from it. -/
def Proc.takeBase (r : Proc) : Proc :=
  match r.stack with
  | _ :: rest => { r with stack := rest }
  | [] => { r with sz := r.sz + 2 * PGSIZE }

/-- What `thread_create` does to the slots, `m` the master and `np` the new slot. -/
structure Takes (s : System) (p m np : Lwp) (tid : Nat) (outcome : StackOutcome) (t : System) : Prop where
  unused : (s.proc np).state = .unused
  others : ∀ q, q ≠ np → q ≠ m → t.proc q = s.proc q
  master : t.proc m = (s.proc m).takeBase
  /-- The slot is given up. -/
  refused : outcome = .noMemory → (t.proc np).state = .unused ∧ (t.proc np).pid = s.nextpid
  /-- The slot holds the new LWP. -/
  joined : outcome = .mapped → (t.proc np).state = .runnable ∧ (t.proc np).pid = (s.proc p).pid ∧
    (t.proc np).tid = tid ∧ (t.proc np).master = some m ∧ (t.proc np).pgdir = (s.proc m).pgdir ∧
    (t.proc np).base = s.nextBase m ∧ (t.proc np).sz = s.nextBase m + 2 * PGSIZE

section Creating

variable {x y : Space} {s t u v : System} {p m np : Lwp}

/-- The base of a stack and the master it is taken from. -/
theorem takeBase_slot (s : System) (m : Lwp) :
    ∃ t, s.takeBase m = (s.nextBase m, t) ∧ t.proc = (s.setProc m (s.proc m).takeBase).proc := by
  cases held : (s.proc m).stack with
  | nil =>
    simp only [System.takeBase, System.nextBase, Proc.takeBase, held]
    exact ⟨_, rfl, rfl⟩
  | cons base rest =>
    simp only [System.takeBase, System.nextBase, Proc.takeBase, held]
    exact ⟨_, rfl, rfl⟩

/-- What `thread_create` does to the slots. -/
theorem threadCreate_takes (fresh : ∀ q, (s.proc q).pid < s.nextpid) {tid : Nat} {outcome : StackOutcome}
    (copied : outcome ≠ .noCopy) (running : (s.proc p).state = .running) (points : (s.proc p).master = some m)
    (taken : (s.proc m).state ≠ .unused) (created : s.threadCreate p tid outcome = some t) :
    ∃ np, Takes s p m np tid outcome t := by
  obtain ⟨np, v, w, master, base, free, returned, points', based, rfl⟩ := threadCreate_some created
  have unused := freeSlot_unused free
  obtain ⟨founds, _⟩ := allocproc_founds fresh np
  have slots : v.proc = ((s.takeSlot np).initSlot np).proc := by
    unfold System.returnNode at returned
    split at returned
    · contradiction
    · cases returned
      rfl
  have others : ∀ q, q ≠ np → v.proc q = s.proc q := fun q other => by rw [slots, founds.others q other]
  have apart : p ≠ np := by
    rintro rfl
    rw [unused] at running
    contradiction
  have aside : m ≠ np := fun same => taken (same ▸ unused)
  rw [others p apart, points] at points'
  cases points'
  obtain ⟨w', based', slots'⟩ := takeBase_slot v m
  rw [based] at based'
  cases based'
  have master : v.proc m = s.proc m := others m aside
  have next : v.nextBase m = s.nextBase m := by
    unfold System.nextBase
    rw [master]
  have still : ∀ q, q ≠ np → q ≠ m → w.proc q = s.proc q := by
    intro q other lwp
    rw [slots', System.setProc_other _ _ lwp, others q other]
  have based : w.proc m = (s.proc m).takeBase := by
    rw [slots', System.setProc_self, master]
  have new : w.proc np = v.proc np := by
    rw [slots', System.setProc_other _ _ (Ne.symm aside)]
  refine ⟨np, unused, ?_, ?_, ?_, ?_⟩
  · intro q other lwp
    cases outcome with
    | noMemory => exact (System.setProc_other _ _ other).trans (still q other lwp)
    | noCopy => exact absurd rfl copied
    | mapped => exact (System.setProc_other w _ other).trans (still q other lwp)
  · cases outcome with
    | noMemory => exact (System.setProc_other _ _ aside).trans based
    | noCopy => exact absurd rfl copied
    | mapped => exact (System.setProc_other w _ aside).trans based
  · rintro rfl
    have self : ((w.finishThread p m np tid (v.nextBase m) .noMemory).setCall p .none).proc np =
        { w.proc np with state := .unused } := System.setProc_self _ _ _
    rw [self]
    refine ⟨rfl, ?_⟩
    rw [new, slots, founds.pid]
  · rintro rfl
    have self : ((w.finishThread p m np tid (v.nextBase m) .mapped).setCall p .none).proc np = { w.proc np with
        tid, pid := (w.proc p).pid, base := v.nextBase m, pgdir := (w.proc m).pgdir, sz := v.nextBase m + 2 * PGSIZE,
        parent := some p, master := some m, schedstate := (w.proc m).schedstate,
        pstride := (w.proc m).pstride, pmlfqNode := (w.proc m).pmlfqNode, state := .runnable } :=
      System.setProc_self w np _
    rw [self]
    have pid : (w.proc p).pid = (s.proc p).pid := by
      by_cases here : p = m
      · subst here
        rw [based]
        unfold Proc.takeBase
        split <;> rfl
      · rw [still p apart here]
    have pgdir : (w.proc m).pgdir = (s.proc m).pgdir := by
      rw [based]
      unfold Proc.takeBase
      split <;> rfl
    exact ⟨rfl, pid, rfl, rfl, pgdir, next, congrArg (· + 2 * PGSIZE) next⟩

/-- How `thread_create` ends: there is no memory for the stack, or it is mapped and written. -/
theorem Space.threadCreate_cases {tid room d : Nat} (points : (x.sys.proc p).master = some m)
    (home : (x.sys.proc m).pgdir = some d) (created : x.threadCreate p tid room = some y) :
    ∃ pages sys,
      (allocuvm (x.pages d) (x.sys.nextBase m) (x.sys.nextBase m + 2 * PGSIZE) room = some (0, pages) ∧
        x.sys.threadCreate p tid .noMemory = some sys ∧ y = { x with sys }.setPages d pages) ∨
      (allocuvm (x.pages d) (x.sys.nextBase m) (x.sys.nextBase m + 2 * PGSIZE) room =
          some (x.sys.nextBase m + 2 * PGSIZE, pages) ∧
        x.sys.threadCreate p tid .mapped = some sys ∧
        y = { x with sys }.setPages d (clearpteu pages (x.sys.nextBase m))) := by
  unfold Space.threadCreate at created
  simp only [points, home] at created
  split at created
  · cases created
  · cases allocated : allocuvm (x.pages d) (x.sys.nextBase m) (x.sys.nextBase m + 2 * PGSIZE) room with
    | none =>
      rw [allocated] at created
      cases created
    | some result =>
      obtain ⟨sz, pages⟩ := result
      rw [allocated] at created
      cases sz with
      | zero =>
        obtain ⟨sys, made, same⟩ := Option.map_eq_some_iff.mp created
        exact ⟨pages, sys, .inl ⟨rfl, made, same.symm⟩⟩
      | succ size =>
        simp only at created
        have ends := (stack_allocated allocated).resolve_left (Nat.succ_ne_zero size)
        rw [ends.1, Nat.add_sub_cancel, stack_written ends.2, if_pos rfl] at created
        obtain ⟨sys, made, same⟩ := Option.map_eq_some_iff.mp created
        rw [ends.1]
        exact ⟨pages, sys, .inr ⟨rfl, made, same.symm⟩⟩

end Creating

/-! ## Steps of the memory -/

section Memory

variable {x y : Space} {s t : System} {m p q np : Lwp} {d : Nat}

/-- The pages of a directory. -/
theorem Space.directory_of (home : (x.sys.proc m).pgdir = some d) : x.directory m = x.pages d := by
  unfold Space.directory
  rw [home]

/-- The directory that a step has changed. -/
theorem Space.directory_set {sys : System} {pages : PageMap} (home : (sys.proc m).pgdir = some d) :
    ({ x with sys }.setPages d pages).directory m = pages := by
  have here : ({ x with sys }.setPages d pages).directory m = ({ x with sys }.setPages d pages).pages d :=
    Space.directory_of home
  rw [here]
  exact Function.update_self _ _ _

/-- The master has no stack of its own in the memory. -/
theorem Space.memory_master (x : Space) (m : Lwp) : (x.memory m).threads m = none := if_pos rfl

/-- The stack of another slot. -/
theorem Space.memory_other (x : Space) (other : q ≠ m) :
    (x.memory m).threads q = (x.sys.proc q).threadStack m := if_neg other

/-- An LWP of the group has a stack. -/
theorem Proc.threadStack_member {r : Proc} (taken : r.state ≠ .unused) (points : r.master = some m) :
    r.threadStack m = some ⟨r.base, r.sz, r.state.started⟩ := if_pos ⟨taken, points⟩

/-- An unused slot has none. -/
theorem Proc.threadStack_unused {r : Proc} (unused : r.state = .unused) : r.threadStack m = none :=
  if_neg fun taken => taken.1 unused

/-- A step that leaves the slots still leaves the memory alone. -/
theorem Space.memory_still (still : Still x.sys y.sys) (pages : y.pages = x.pages) : y.memory m = x.memory m := by
  refine GroupMemory.ext (still m).sz (still m).stack (funext fun q => ?_) ?_
  · by_cases here : q = m
    · rw [here, y.memory_master, x.memory_master]
    · rw [y.memory_other here, x.memory_other here]
      exact (still q).threadStack m
  · show y.directory m = x.directory m
    unfold Space.directory
    rw [(still m).pgdir, pages]

/-- A still step. -/
theorem GroupOf.rests (group : GroupOf x.sys m) (still : Still x.sys y.sys) (pages : y.pages = x.pages) :
    GroupOf y.sys m ∧ (x.memory m).Changes .rest (y.memory m) := by
  refine ⟨group.congr fun q => (still q).toSameLwp, ?_⟩
  rw [Space.memory_still still pages]
  exact .rested

/-- `thread_exit` of an LWP of the group. -/
theorem GroupOf.exits (group : GroupOf x.sys m) (taken : (x.sys.proc p).state ≠ .unused)
    (points : (x.sys.proc p).master = some m) {retval : Nat} (exits : y.sys = x.sys.threadExit p retval)
    (pages : y.pages = x.pages) : GroupOf y.sys m ∧ (x.memory m).Changes .rest (y.memory m) := by
  obtain ⟨others, r, still, self⟩ := threadExit_still x.sys p retval
  rw [← exits] at others self
  have ended : (x.sys.proc p).SameLwp (y.sys.proc p) := by
    rw [self]
    exact ⟨still.pid, still.tid, still.master, still.pgdir, ⟨RunState.noConfusion, fun unused => absurd unused taken⟩⟩
  have same : ∀ q, (x.sys.proc q).SameLwp (y.sys.proc q) := by
    intro q
    by_cases here : q = p
    · rw [here]
      exact ended
    · exact (others q here).toSameLwp
  have directory : y.directory m = x.directory m := by
    unfold Space.directory
    rw [(same m).pgdir, pages]
  have sizes : (y.sys.proc m).sz = (x.sys.proc m).sz ∧ (y.sys.proc m).stack = (x.sys.proc m).stack := by
    by_cases here : m = p
    · subst here
      rw [self]
      exact ⟨still.sz, still.stack⟩
    · exact ⟨(others m here).sz, (others m here).stack⟩
  have threads : ∀ q, q ≠ p → (y.memory m).threads q = (x.memory m).threads q := by
    intro q other
    by_cases here : q = m
    · rw [here, y.memory_master, x.memory_master]
    · rw [y.memory_other here, x.memory_other here]
      exact (others q other).threadStack m
  refine ⟨group.congr same, ?_⟩
  by_cases here : p = m
  · have unchanged : y.memory m = x.memory m := by
      refine GroupMemory.ext sizes.1 sizes.2 (funext fun q => ?_) directory
      by_cases master : q = p
      · rw [master, here, y.memory_master, x.memory_master]
      · exact threads q master
    rw [unchanged]
    exact .rested
  · have before : (x.memory m).threads p = some ⟨(x.sys.proc p).base, (x.sys.proc p).sz, (x.sys.proc p).state.started⟩ := by
      rw [x.memory_other here]
      exact Proc.threadStack_member taken points
    have after : (y.memory m).threads p = some ⟨(x.sys.proc p).base, (x.sys.proc p).sz, false⟩ := by
      have zombie : ({ r with state := .zombie } : Proc).threadStack m = some ⟨r.base, r.sz, false⟩ :=
        Proc.threadStack_member RunState.noConfusion (still.master.trans points)
      rw [y.memory_other here, self, zombie, still.base, still.sz]
    have changed : y.memory m = { x.memory m with
        threads := Function.update (x.memory m).threads p (some ⟨(x.sys.proc p).base, (x.sys.proc p).sz, false⟩) } := by
      refine GroupMemory.ext sizes.1 sizes.2 (funext fun q => ?_) directory
      show _ = Function.update (x.memory m).threads p _ q
      by_cases mine : q = p
      · rw [mine, after, Function.update_self]
      · rw [threads q mine, Function.update_of_ne mine]
    rw [changed]
    exact .exited p _ before

/-- Taking a base from the slot of the master takes it from the memory. -/
theorem Space.memory_takeBase (x : Space) (m : Lwp) :
    (x.memory m).takeBase.sz = (x.sys.proc m).takeBase.sz ∧ (x.memory m).takeBase.free = (x.sys.proc m).takeBase.stack ∧
      (x.memory m).takeBase.threads = (x.memory m).threads := by
  cases held : (x.sys.proc m).stack with
  | nil =>
    have free : (x.memory m).free = [] := held
    simp only [GroupMemory.takeBase, Proc.takeBase, held, free]
    exact ⟨rfl, trivial, trivial⟩
  | cons base rest =>
    have free : (x.memory m).free = base :: rest := held
    simp only [GroupMemory.takeBase, Proc.takeBase, held, free]
    exact ⟨rfl, trivial, trivial⟩

/-- Taking a base changes nothing else of the slot. -/
theorem Proc.takeBase_same (r : Proc) : r.SameLwp r.takeBase := by
  unfold Proc.takeBase
  split
  · exact ⟨rfl, rfl, rfl, rfl, Iff.rfl⟩
  · exact ⟨rfl, rfl, rfl, rfl, Iff.rfl⟩

/-- The slots after `thread_create`, as far as the group is concerned. -/
theorem GroupOf.takes (group : GroupOf s m) (fresh : (s.proc m).pid < s.nextpid) {tid : Nat} {outcome : StackOutcome}
    (least : 2 ≤ tid) (member : (s.proc p).pid = (s.proc m).pid) (copied : outcome ≠ .noCopy)
    (takes : Takes s p m np tid outcome t) : GroupOf t m := by
  have master : (s.proc m).SameLwp (t.proc m) := by
    rw [takes.master]
    exact Proc.takeBase_same _
  refine group.step master fun q => ?_
  by_cases here : q = np
  · rw [here]
    cases outcome with
    | noMemory =>
      obtain ⟨unused, pid⟩ := takes.refused rfl
      exact .outside unused fun _ => by omega
    | noCopy => exact absurd rfl copied
    | mapped =>
      obtain ⟨_, pid, tid, points, pgdir, _, _⟩ := takes.joined rfl
      exact .joined (pid.trans member) (by omega) points pgdir
  · by_cases lwp : q = m
    · rw [lwp]
      exact .same master
    · refine .same ?_
      rw [takes.others q here lwp]
      exact (Proc.Still.refl _).toSameLwp

/-- The memory after `thread_create`. -/
theorem Takes.memory (group : GroupOf x.sys m) (home : (x.sys.proc m).pgdir = some d) {tid : Nat}
    {outcome : StackOutcome} {sys : System} (takes : Takes x.sys p m np tid outcome sys) (pages : PageMap) :
    (x.memory m).threads np = none ∧ ({ x with sys }.setPages d pages).memory m = { (x.memory m).takeBase with
      threads := Function.update (x.memory m).threads np ((sys.proc np).threadStack m)
      pages } := by
  have aside : np ≠ m := fun same => group.taken (same ▸ takes.unused)
  obtain ⟨size, free, threads⟩ := x.memory_takeBase m
  have home' : (sys.proc m).pgdir = some d := by
    rw [takes.master, (Proc.takeBase_same _).pgdir, home]
  refine ⟨?_, GroupMemory.ext ?_ ?_ (funext fun q => ?_) (Space.directory_set home')⟩
  · rw [x.memory_other aside]
    exact Proc.threadStack_unused takes.unused
  · exact (congrArg Proc.sz takes.master).trans size.symm
  · exact (congrArg Proc.stack takes.master).trans free.symm
  · show _ = Function.update (x.memory m).threads np _ q
    by_cases here : q = np
    · rw [here, Function.update_self, Space.memory_other _ aside]
      rfl
    · rw [Function.update_of_ne here]
      by_cases lwp : q = m
      · rw [lwp, Space.memory_master, Space.memory_master]
      · rw [Space.memory_other _ lwp, x.memory_other lwp]
        exact congrArg (Proc.threadStack · m) (takes.others q here lwp)

/-- `thread_create` of an LWP of the group. -/
theorem GroupOf.creates (group : GroupOf x.sys m) (fresh : ∀ q, (x.sys.proc q).pid < x.sys.nextpid)
    (running : (x.sys.proc p).state = .running) (points : (x.sys.proc p).master = some m) {tid room : Nat}
    (least : 2 ≤ tid) (created : x.threadCreate p tid room = some y) :
    GroupOf y.sys m ∧ (x.memory m).Changes (.create room) (y.memory m) := by
  have taken : (x.sys.proc p).state ≠ .unused := by
    rw [running]
    exact RunState.noConfusion
  have member := (group.members p taken points).1
  obtain ⟨d, home⟩ := Option.ne_none_iff_exists'.mp group.home
  have directory : x.pages d = (x.memory m).pages := (Space.directory_of home).symm
  have base : x.sys.nextBase m = (x.memory m).nextBase := rfl
  obtain ⟨pages, sys, ⟨allocated, made, rfl⟩ | ⟨allocated, made, rfl⟩⟩ :=
    Space.threadCreate_cases points home created
  · obtain ⟨np, takes⟩ := threadCreate_takes fresh StackOutcome.noConfusion running points group.taken made
    obtain ⟨absent, changed⟩ := takes.memory group home pages
    refine ⟨group.takes (fresh m) least member StackOutcome.noConfusion takes, ?_⟩
    rw [changed, Proc.threadStack_unused (takes.refused rfl).1, ← absent, Function.update_eq_self,
      ← (x.memory_takeBase m).2.2]
    rw [directory, base] at allocated
    exact .uncreated room pages allocated
  · obtain ⟨np, takes⟩ := threadCreate_takes fresh StackOutcome.noConfusion running points group.taken made
    obtain ⟨absent, changed⟩ := takes.memory group home (clearpteu pages (x.sys.nextBase m))
    obtain ⟨runnable, _, _, master, _, start, size⟩ := takes.joined rfl
    refine ⟨group.takes (fresh m) least member StackOutcome.noConfusion takes, ?_⟩
    have occupied : (sys.proc np).state ≠ .unused := by
      rw [runnable]
      exact RunState.noConfusion
    rw [changed, Proc.threadStack_member occupied master, runnable, start, size]
    rw [directory, base] at allocated
    exact .created room np pages absent allocated

/-- How a pass of `thread_join` ends: it finds no zombie, or it deletes the one it finds. -/
theorem Space.joinPass_cases {thread : Nat} (running : (x.sys.proc p).state = .running)
    (passed : x.joinPass p thread = some y) :
    x.exited p thread = none ∧ Still x.sys y.sys ∧ y.pages = x.pages ∨
      ∃ q t, x.exited p thread = some q ∧ x.sys.deleteThread q = some t ∧ x.unmap q (t.setCall p .none) = some y := by
  have started := System.started_of_running running
  unfold Space.joinPass System.joinPass at passed
  simp only at passed
  cases found : x.exited p thread with
  | some q =>
    unfold Space.exited at found
    rw [found] at passed
    cases deleted : x.sys.deleteThread q with
    | none =>
      simp only [deleted, Option.map_none] at passed
      cases passed
    | some t =>
      simp only [deleted, Option.map_some] at passed
      exact .inr ⟨q, t, rfl, deleted, passed⟩
  | none =>
    unfold Space.exited at found
    rw [found] at passed
    simp only at passed
    refine .inl ⟨rfl, ?_⟩
    by_cases ends : (firstSlot fun q => decide ((x.sys.proc q).pid = (x.sys.proc p).pid ∧
        (x.sys.proc q).tid = thread)).isNone = true ∨ (x.sys.proc p).killed = true
    · rw [if_pos ends] at passed
      cases passed
      exact ⟨.refl _, rfl⟩
    · rw [if_neg ends] at passed
      cases points : (x.sys.proc p).master with
      | none =>
        simp only [points] at passed
        cases passed
      | some master =>
        simp only [points] at passed
        cases passed
        exact ⟨.setState started _ rfl, rfl⟩

/-- The slots other than the one that is cleared. -/
theorem System.clearSlot_group (s : System) (aside : q ≠ m) :
    (∀ r, r ≠ q → r ≠ m → (s.clearSlot q m).proc r = s.proc r) ∧
      (s.clearSlot q m).proc m = { s.proc m with stack := (s.proc q).base :: (s.proc m).stack } := by
  unfold System.clearSlot
  simp only
  refine ⟨fun r other lwp => ?_, ?_⟩
  · rw [System.setProc_other _ _ other, System.setProc_other _ _ lwp, System.setProc_other _ _ other]
  · rw [System.setProc_other _ _ (Ne.symm aside), System.setProc_self, System.setProc_other _ _ (Ne.symm aside),
      System.setProc_self]

/-- `thread_join` deletes an LWP of the group. -/
theorem GroupOf.collects (group : GroupOf x.sys m) {thread : Nat} (running : (x.sys.proc m).state = .running)
    (found : x.exited m thread = some q) (deleted : x.sys.deleteThread q = some t)
    (unmapped : x.unmap q (t.setCall m .none) = some y) :
    GroupOf y.sys m ∧ (x.memory m).Changes (.collect q) (y.memory m) := by
  have wanted := firstSlot_some found
  rw [Bool.and_eq_true, decide_eq_true_eq, decide_eq_true_eq] at wanted
  obtain ⟨⟨pid, _⟩, zombie⟩ := wanted
  have aside : q ≠ m := by
    rintro rfl
    rw [running] at zombie
    contradiction
  have taken : (x.sys.proc q).state ≠ .unused := by
    rw [zombie]
    exact RunState.noConfusion
  have points := group.lwps q taken pid
  obtain ⟨d, home⟩ := Option.ne_none_iff_exists'.mp group.home
  have home' : (x.sys.proc q).pgdir = some d := (group.members q taken points).2.trans home
  obtain ⟨master, u, master', rfl, whole⟩ := System.deleteThread_some deleted
  have same : master = m := by
    have known := firstSlot_some master'
    rw [Bool.and_eq_true, beq_iff_eq, beq_iff_eq] at known
    exact group.only master known.2 (known.1.trans pid)
  have rest : u = x.sys := by
    rcases whole with ⟨first, _⟩ | ⟨_, same⟩
    · exact absurd (group.only q first pid) aside
    · exact same
  rw [same, rest] at unmapped deleted
  obtain ⟨others, self⟩ := x.sys.clearSlot_group aside
  obtain ⟨unused, _, tid, _, _⟩ := System.deleteThread_self deleted
  unfold Space.unmap at unmapped
  rw [home'] at unmapped
  obtain ⟨⟨sz, pages⟩, freed, rfl⟩ := Option.map_eq_some_iff.mp unmapped
  have kept : (x.sys.proc m).SameLwp ((x.sys.clearSlot q m).proc m) := by
    rw [self]
    exact ⟨rfl, rfl, rfl, rfl, Iff.rfl⟩
  have after : GroupOf (x.sys.clearSlot q m) m := by
    refine group.step kept fun r => ?_
    by_cases here : r = q
    · rw [here]
      refine .outside unused fun first => ?_
      rw [tid] at first
      contradiction
    · by_cases lwp : r = m
      · rw [lwp]
        exact .same kept
      · refine .same ?_
        rw [others r here lwp]
        exact (Proc.Still.refl _).toSameLwp
  refine ⟨⟨after.taken, after.whole, after.home, after.only, after.members, after.lwps⟩, ?_⟩
  have held : (x.memory m).threads q = some ⟨(x.sys.proc q).base, (x.sys.proc q).sz, (x.sys.proc q).state.started⟩ := by
    rw [x.memory_other aside]
    exact Proc.threadStack_member taken points
  have changed : ({ x with sys := (x.sys.clearSlot q m).setCall m .none }.setPages d pages).memory m = { x.memory m with
      free := (x.sys.proc q).base :: (x.memory m).free
      threads := Function.update (x.memory m).threads q none
      pages } := by
    have size : ((x.sys.clearSlot q m).proc m).sz = (x.sys.proc m).sz := by rw [self]
    have free : ((x.sys.clearSlot q m).proc m).stack = (x.sys.proc q).base :: (x.sys.proc m).stack := by rw [self]
    refine GroupMemory.ext size free (funext fun r => ?_)
      (Space.directory_set (kept.pgdir.trans home))
    show _ = Function.update (x.memory m).threads q none r
    by_cases here : r = q
    · rw [here, Function.update_self, Space.memory_other _ aside]
      exact Proc.threadStack_unused unused
    · rw [Function.update_of_ne here]
      by_cases lwp : r = m
      · rw [lwp, Space.memory_master, Space.memory_master]
      · rw [Space.memory_other _ lwp, x.memory_other lwp]
        exact congrArg (Proc.threadStack · m) (others r here lwp)
  rw [← Space.directory_of home] at freed
  rw [changed]
  exact .collected q _ sz pages held freed

/-- The memory after the master gets a new size and new pages. -/
theorem GroupOf.resizes (group : GroupOf x.sys m) (home : (x.sys.proc m).pgdir = some d) (sz : Nat) (pages : PageMap) :
    let sys := x.sys.setProc m { x.sys.proc m with sz }
    GroupOf sys m ∧ ({ x with sys }.setPages d pages).memory m = { x.memory m with sz, pages } := by
  intro sys
  have self : sys.proc m = { x.sys.proc m with sz } := System.setProc_self _ _ _
  have others : ∀ q, q ≠ m → sys.proc q = x.sys.proc q := fun q other => System.setProc_other _ _ other
  refine ⟨group.congr fun q => ?_, ?_⟩
  · by_cases here : q = m
    · rw [here, self]
      exact ⟨rfl, rfl, rfl, rfl, Iff.rfl⟩
    · rw [others q here]
      exact (Proc.Still.refl _).toSameLwp
  · have home' : (sys.proc m).pgdir = some d := by
      rw [self]
      exact home
    have free : (sys.proc m).stack = (x.sys.proc m).stack := by rw [self]
    refine GroupMemory.ext (congrArg Proc.sz self) free (funext fun q => ?_) (Space.directory_set home')
    by_cases here : q = m
    · rw [here, Space.memory_master]
      exact (x.memory_master m).symm
    · rw [Space.memory_other _ here]
      exact (congrArg (Proc.threadStack · m) (others q here)).trans (x.memory_other here).symm

/-- The memory after new pages. -/
theorem Space.memory_setPages (home : (x.sys.proc m).pgdir = some d) (pages : PageMap) :
    (x.setPages d pages).memory m = { x.memory m with pages } :=
  GroupMemory.ext rfl rfl rfl (Space.directory_set home)

/-- How `growproc` ends. -/
theorem Space.growproc_cases (points : (x.sys.proc p).master = some m) (home : (x.sys.proc m).pgdir = some d) {n : Int}
    {room : Nat} (grown : x.growproc p n room = some y) :
    ∃ sz pages, (x.memory m).growth n room = some (sz, pages) ∧
      ((n ≠ 0 ∧ sz = 0) ∧ y = x.setPages d pages ∨ ¬(n ≠ 0 ∧ sz = 0) ∧
        y = { x with sys := x.sys.setProc m { x.sys.proc m with sz } }.setPages d pages) := by
  unfold Space.growproc at grown
  split at grown
  · cases grown
  · rename_i master points'
    rw [points] at points'
    cases points'
    split at grown
    · cases grown
    · rename_i pgdir home'
      rw [home] at home'
      cases home'
      rw [← Space.directory_of home] at grown
      simp only at grown
      split at grown
      · cases grown
      · rename_i sz pages result
        refine ⟨sz, pages, result, ?_⟩
        by_cases failed : n ≠ 0 ∧ sz = 0
        · rw [if_pos failed] at grown
          exact .inl ⟨failed, (Option.some.inj grown).symm⟩
        · rw [if_neg failed] at grown
          exact .inr ⟨failed, (Option.some.inj grown).symm⟩

/-- `sbrk` by an LWP of the group. -/
theorem GroupOf.grows (group : GroupOf x.sys m) (points : (x.sys.proc p).master = some m) {n : Int} {room : Nat}
    (grown : x.growproc p n room = some y) :
    GroupOf y.sys m ∧ (x.memory m).Changes (.sbrk n room) (y.memory m) := by
  obtain ⟨d, home⟩ := Option.ne_none_iff_exists'.mp group.home
  obtain ⟨sz, pages, result, ⟨failed, rfl⟩ | ⟨stored, rfl⟩⟩ := Space.growproc_cases points home grown
  · refine ⟨group, ?_⟩
    rw [failed.2] at result
    rw [Space.memory_setPages home]
    exact .ungrown n room pages result failed.1
  · obtain ⟨after, changed⟩ := group.resizes home sz pages
    refine ⟨after, ?_⟩
    rw [changed]
    exact .grown n room sz pages result stored

/-- The slots after the commit of `exec`. -/
theorem execCommit_slots {isMaster : Bool} {pgdir sz : Nat} (committed : s.execCommit p isMaster pgdir sz = some t) :
    (∀ q, q ≠ p → t.proc q = s.proc q) ∧ t.proc p = { s.proc p with pgdir := some pgdir, sz } := by
  unfold System.execCommit at committed
  split at committed
  · cases committed
  · simp only at committed
    split at committed
    · cases committed
      exact ⟨fun q other => System.setProc_other _ _ other, System.setProc_self _ _ _⟩
    · cases committed
    · cases committed
      exact ⟨fun q other => System.setProc_other _ _ other, System.setProc_self _ _ _⟩

/-- `exec` by the master when it is the only LWP of the group. -/
theorem GroupOf.loads (group : GroupOf x.sys m) (alone : ∀ q, (x.memory m).threads q = none) {pgdir : Nat}
    {ends : List Nat} (loaded : x.exec m pgdir ends = some y) :
    GroupOf y.sys m ∧ (x.memory m).Changes (.exec ends) (y.memory m) := by
  rcases Space.exec_cases loaded with rfl | ⟨sz, pages, oldpgdir, sys, positive, image, _, committed, rfl⟩
  · exact ⟨group, .unloaded ends⟩
  · obtain ⟨others, self⟩ := execCommit_slots committed
    have only : ∀ q, (x.sys.proc q).state ≠ .unused → (x.sys.proc q).master = some m → q = m := by
      intro q taken points
      by_contra other
      have absent := alone q
      rw [x.memory_other other, Proc.threadStack_member taken points] at absent
      contradiction
    have same : ∀ q, q ≠ m → (sys.proc q).state ≠ .unused → (sys.proc q).master ≠ some m := by
      intro q other taken points
      rw [others q other] at taken points
      exact other (only q taken points)
    have after : GroupOf sys m := by
      refine ⟨?_, ?_, ?_, fun q first pid => ?_, fun q taken points => ?_, fun q taken pid => ?_⟩
      · rw [self]
        exact group.taken
      · rw [self]
        exact group.whole
      · rw [self]
        exact Option.some_ne_none _
      · by_contra other
        rw [others q other] at first pid
        rw [self] at pid
        exact other (group.only q first pid)
      · by_cases here : q = m
        · rw [here]
          exact ⟨rfl, rfl⟩
        · exact absurd points (same q here taken)
      · by_cases here : q = m
        · rw [here, self]
          exact group.own
        · rw [others q here] at taken pid
          rw [self] at pid
          exact absurd (only q taken (group.lwps q taken pid)) here
    refine ⟨after, ?_⟩
    have size : (sys.proc m).sz = sz := by rw [self]
    have free : (sys.proc m).stack = (x.sys.proc m).stack := by rw [self]
    have home : (sys.proc m).pgdir = some pgdir := by rw [self]
    have changed : (({ x with sys }.setPages oldpgdir fun _ => none).setPages pgdir pages).memory m =
        { x.memory m with sz, pages } := by
      refine GroupMemory.ext size free (funext fun q => ?_) ?_
      · rw [alone q]
        by_cases here : q = m
        · rw [here, Space.memory_master]
        · rw [Space.memory_other _ here]
          exact if_neg fun member => same q here member.1 member.2
      · refine (Space.directory_of home).trans ?_
        exact Function.update_self _ _ _
    rw [changed]
    exact .replaced ends sz pages positive image

/-- A pass of `thread_join` by the master. -/
theorem GroupOf.joins (group : GroupOf x.sys m) (running : (x.sys.proc m).state = .running) {thread : Nat}
    (passed : x.joinPass m thread = some y) :
    GroupOf y.sys m ∧ (x.memory m).Changes (x.joinAction m thread) (y.memory m) := by
  unfold Space.joinAction
  rcases Space.joinPass_cases running passed with ⟨missing, still, pages⟩ | ⟨q, t, found, deleted, unmapped⟩
  · rw [missing]
    exact group.rests still pages
  · rw [found]
    exact group.collects running found deleted unmapped

/-- Every step of an LWP of the group is a change of its memory, and the group stays one. A master
calls `exec` only when it is alone. -/
theorem GroupOf.changes (lineage : Lineage x.sys) (group : GroupOf x.sys m) {event : SpaceEvent}
    (points : (x.sys.proc event.lwp).master = some m)
    (alone : ∀ p pgdir ends, event = .exec p pgdir ends → ∀ q, (x.memory m).threads q = none)
    (taken : x.step event = some y) :
    GroupOf y.sys m ∧ (x.memory m).Changes (x.action event) (y.memory m) := by
  have lwp : ∀ {p : Lwp}, (x.sys.proc p).state = .running → (x.sys.proc p).master = some m →
      (x.sys.proc p).tid = 1 → p = m := by
    intro p running points
    refine group.master ?_ points
    rw [running]
    exact RunState.noConfusion
  cases event with
  | run p =>
    obtain ⟨sys, step, rfl⟩ := Option.map_eq_some_iff.mp taken
    unfold System.step at step
    simp only at step
    split at step
    · rename_i runnable
      cases step
      exact group.rests (.setState (by rw [runnable]; rfl) none rfl) rfl
    · contradiction
  | yield p =>
    obtain ⟨sys, step, rfl⟩ := Option.map_eq_some_iff.mp taken
    obtain ⟨running, _, done⟩ := System.inside_some step
    cases done
    exact group.rests (.setState (System.started_of_running running) (x.sys.proc p).chan rfl) rfl
  | choose p =>
    obtain ⟨sys, step, rfl⟩ := Option.map_eq_some_iff.mp taken
    obtain ⟨_, _, done⟩ := System.inside_some step
    cases done
    exact group.rests (.refl _) rfl
  | create p room =>
    unfold Space.step at taken
    simp only at taken
    split at taken
    · rename_i tid call
      obtain ⟨running, _, created⟩ := Space.inside_some taken
      exact group.creates lineage.fresh running points (lineage.creating p tid call) created
    · contradiction
  | threadExit p retval =>
    obtain ⟨sys, step, rfl⟩ := Option.map_eq_some_iff.mp taken
    obtain ⟨running, _, done⟩ := System.inside_some step
    cases done
    have occupied : (x.sys.proc p).state ≠ .unused := by
      rw [running]
      exact RunState.noConfusion
    exact group.exits occupied points rfl rfl
  | join p thread =>
    obtain ⟨running, _, joined⟩ := Space.inside_some taken
    unfold Space.action
    by_cases whole : (x.sys.proc p).tid = 1
    · rw [if_neg (not_not_intro whole)] at joined
      simp only [if_pos whole]
      have here := lwp running points whole
      rw [here] at running joined ⊢
      exact group.joins running joined
    · rw [if_pos whole] at joined
      cases joined
      simp only [if_neg whole]
      exact group.rests (.refl _) rfl
  | rejoin p =>
    unfold Space.step at taken
    simp only at taken
    split at taken
    · rename_i thread call
      obtain ⟨running, _, joined⟩ := Space.inside_some taken
      unfold Space.action
      simp only [call]
      have here := lwp running points (lineage.joining p thread (System.started_of_running running) call)
      rw [here] at running joined ⊢
      exact group.joins running joined
    · contradiction
  | sbrk p n room =>
    obtain ⟨_, _, grown⟩ := Space.inside_some taken
    exact group.grows points grown
  | exec p pgdir ends =>
    obtain ⟨running, _, loaded⟩ := Space.inside_some taken
    by_cases whole : (x.sys.proc p).tid = 1
    · rw [if_neg (not_not_intro whole), lwp running points whole] at loaded
      exact group.loads (alone p pgdir ends rfl) loaded
    · rw [if_pos whole] at loaded
      contradiction

end Memory

/-! ## Sizes -/

/-- A started LWP of the group of `m`. -/
def Space.IsLwp (x : Space) (m q : Lwp) : Prop :=
  (x.sys.proc q).state.started = true ∧ (x.sys.proc q).master = some m

namespace GroupMemory

variable {g : GroupMemory} {threads : Lwp → Option ThreadStack} {q : Lwp} {new : Option ThreadStack} {sz : Nat}

/-- A base is recycled. -/
theorem next_recycled {base : Nat} {rest : List Nat} (held : g.free = base :: rest) :
    g.nextBase = base ∧ g.takeBase = { g with free := rest } := by
  simp only [nextBase, takeBase, held]
  exact ⟨trivial, trivial⟩

/-- A base is the end of memory. -/
theorem next_fresh (held : g.free = []) : g.nextBase = g.sz ∧ g.takeBase = { g with sz := g.sz + 2 * PGSIZE } := by
  simp only [nextBase, takeBase, held]
  exact ⟨trivial, trivial⟩

/-- The sizes of started LWPs. -/
theorem mem_startedSizes :
    sz ∈ startedSizes threads ↔ ∃ q stack, threads q = some stack ∧ stack.started = true ∧ stack.sz = sz := by
  unfold startedSizes
  rw [List.mem_filterMap]
  constructor
  · rintro ⟨q, _, kept⟩
    split at kept
    · rename_i stack found
      split at kept
      · rename_i started
        exact ⟨q, stack, found, started, Option.some.inj kept⟩
      · contradiction
    · contradiction
  · rintro ⟨q, stack, found, started, rfl⟩
    refine ⟨q, List.mem_finRange q, ?_⟩
    simp only [found, started, if_true]

/-- A size after one stack changed. -/
theorem startedSizes_update (member : sz ∈ startedSizes (Function.update threads q new)) :
    sz ∈ startedSizes threads ∨ ∃ stack, new = some stack ∧ stack.started = true ∧ stack.sz = sz := by
  obtain ⟨r, stack, found, started, size⟩ := mem_startedSizes.mp member
  by_cases here : r = q
  · rw [here, Function.update_self] at found
    exact .inr ⟨stack, found, started, size⟩
  · rw [Function.update_of_ne here] at found
    exact .inl (mem_startedSizes.mpr ⟨r, stack, found, started, size⟩)

/-- No LWP but the master has a size. -/
theorem startedSizes_alone (alone : ∀ q, threads q = none) : startedSizes threads = [] := by
  refine List.eq_nil_iff_forall_not_mem.mpr fun sz member => ?_
  obtain ⟨q, stack, found, _⟩ := mem_startedSizes.mp member
  rw [alone q] at found
  contradiction

/-- What an LWP of the group is: the master or a started LWP. -/
theorem startedSizes_of_member {x : Space} {m q : Lwp} (lwp : x.IsLwp m q) :
    q = m ∨ (x.sys.proc q).sz ∈ startedSizes (x.memory m).threads := by
  obtain ⟨started, points⟩ := lwp
  by_cases here : q = m
  · exact .inl here
  · have taken : (x.sys.proc q).state ≠ .unused := by
      intro unused
      rw [unused] at started
      contradiction
    let stack : ThreadStack := ⟨(x.sys.proc q).base, (x.sys.proc q).sz, (x.sys.proc q).state.started⟩
    refine .inr (mem_startedSizes.mpr ⟨q, stack, ?_, started, rfl⟩)
    rw [x.memory_other here]
    exact Proc.threadStack_member taken points

end GroupMemory

/-! ## Runs of a group -/

/-- A step of an LWP of the group of `m`, if it meets a condition on the memory. -/
def Space.groupStep (m : Lwp) (allowed : GroupMemory → MemoryAction → Bool) (x : Space) (event : SpaceEvent) : Option Space :=
  if (x.sys.proc event.lwp).master = some m ∧ allowed (x.memory m) (x.action event) = true then x.step event else none

/-- The steps of the LWPs of a group that meet a condition on the memory. -/
def GroupStep (m : Lwp) (allowed : GroupMemory → MemoryAction → Bool) (x : Space) (event : SpaceEvent) (y : Space) : Prop :=
  x.groupStep m allowed event = some y

/-- A process with a single LWP, in tables that the first process leads to. -/
structure SingleLwp (s : System) (m : Lwp) : Prop where
  /-- The tables are reached. -/
  reached : ∃ d events, Run (fun s event t => s.step event = some t) (System.userinit d) events s
  /-- The process has not been deleted. -/
  taken : (s.proc m).state ≠ .unused
  whole : (s.proc m).tid = 1
  /-- It has a directory. -/
  home : (s.proc m).pgdir ≠ none
  /-- No other slot has its pid. -/
  pid : ∀ q, q ≠ m → (s.proc q).pid ≠ (s.proc m).pid
  /-- No other LWP points to it. -/
  alone : ∀ q, q ≠ m → (s.proc q).state ≠ .unused → (s.proc q).master ≠ some m

section Runs

variable {x y : Space} {m : Lwp} {events : List SpaceEvent}

/-- What the tables keep. -/
theorem Lineage.run {s t : System} {events : List Event} (lineage : Lineage s)
    (run : Run (fun s event t => s.step event = some t) s events t) : Lineage t :=
  run.invariant Lineage (fun _ _ _ lineage taken => lineage.step taken) lineage

/-- What holds of the tables of a process with a single LWP. -/
theorem SingleLwp.lineage {s : System} (single : SingleLwp s m) : Lineage s := by
  obtain ⟨d, events, run⟩ := single.reached
  exact (Lineage.userinit d).run run

/-- It is a group. -/
theorem SingleLwp.group {s : System} (single : SingleLwp s m) : GroupOf s m := by
  have only : ∀ q, (s.proc q).pid = (s.proc m).pid → q = m := by
    intro q pid
    by_contra other
    exact single.pid q other pid
  refine ⟨single.taken, single.whole, single.home, fun q _ pid => only q pid, fun q taken points => ?_, fun q _ pid => ?_⟩
  · have here : q = m := by
      by_contra other
      exact single.alone q other taken points
    rw [here]
    exact ⟨rfl, rfl⟩
  · rw [only q pid]
    exact single.lineage.own m single.taken single.whole

/-- It has no stacks but its own. -/
theorem SingleLwp.threads (single : SingleLwp x.sys m) (q : Lwp) : (x.memory m).threads q = none := by
  by_cases here : q = m
  · rw [here]
    exact x.memory_master m
  · rw [x.memory_other here]
    exact if_neg fun member => single.alone q here member.1 member.2

/-- What a step of the group is. -/
theorem GroupStep.taken {allowed : GroupMemory → MemoryAction → Bool} {event : SpaceEvent}
    (step : GroupStep m allowed x event y) : (x.sys.proc event.lwp).master = some m ∧
      allowed (x.memory m) (x.action event) = true ∧ x.step event = some y := by
  unfold GroupStep Space.groupStep at step
  split at step
  · rename_i met
    exact ⟨met.1, met.2, step⟩
  · contradiction

/-- What every change keeps of the memory, every run of the group keeps. -/
theorem GroupOf.run {allowed : GroupMemory → MemoryAction → Bool} (holds : GroupMemory → Prop)
    (alone : ∀ g ends, allowed g (.exec ends) = true → ∀ q, g.threads q = none)
    (keeps : ∀ g action g', holds g → allowed g action = true → g.Changes action g' → holds g')
    (single : SingleLwp x.sys m) (start : holds (x.memory m)) (run : Run (GroupStep m allowed) x events y) :
    Lineage y.sys ∧ GroupOf y.sys m ∧ holds (y.memory m) := by
  refine run.invariant (fun x => Lineage x.sys ∧ GroupOf x.sys m ∧ holds (x.memory m)) ?_
    ⟨single.lineage, single.group, start⟩
  rintro x event y ⟨lineage, group, known⟩ step
  obtain ⟨points, met, taken⟩ := step.taken
  have lone : ∀ p pgdir ends, event = .exec p pgdir ends → ∀ q, (x.memory m).threads q = none := by
    rintro p pgdir ends rfl
    exact alone _ ends met
  obtain ⟨kept, changes⟩ := group.changes lineage points lone taken
  obtain ⟨labels, steps⟩ := Space.step_run taken
  exact ⟨lineage.run steps, kept, keeps _ _ _ known met changes⟩

end Runs

/-! ## The first process -/

/-- The first process with one mapped page, for runs on fixed inputs. -/
def firstSpace : Space where
  sys := System.userinit 0
  pages pgdir := fun page => if pgdir = 0 ∧ page = 0 then some true else none

/-- It has a single LWP. -/
theorem firstSpace_single : SingleLwp firstSpace.sys 0 := by
  obtain ⟨runnable, whole, _⟩ := userinit_first 0
  refine ⟨⟨0, [], .nil _⟩, ?_, whole, ?_, fun q other => ?_, fun q other taken => ?_⟩
  · show ((System.userinit 0).proc 0).state ≠ .unused
    rw [runnable]
    exact RunState.noConfusion
  · decide +kernel
  · show ((System.userinit 0).proc q).pid ≠ ((System.userinit 0).proc 0).pid
    rw [userinit_other 0 other]
    decide +kernel
  · change ((System.userinit 0).proc q).state ≠ .unused at taken
    rw [userinit_other 0 other] at taken
    exact absurd rfl taken

end Xv6
