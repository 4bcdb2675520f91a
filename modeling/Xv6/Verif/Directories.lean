import Xv6.Lib.Runs
import Xv6.Verif.Groups

/-!
# Page directories

The LWPs of a group share its master's page directory, and nobody counts them. A master gives
its directory up when it commits to a new image in `exec` and when it becomes a zombie: whoever
reaps it frees the directory. If every master that does so is the last one on its directory,
no directory is freed while another live slot has it.
-/

namespace Xv6

/-- By this event the LWP gives up its directory: it commits to a new image as a master, or it
ends by `thread_exit` or by an `exit` that waits for nobody. -/
def GivesUp (s : System) (p : Lwp) : Event → Prop
  | .execCommit q _ _ => q = p ∧ s.call p = .exec true
  | .threadExit q _ => q = p
  | .exit q => q = p ∧ ∀ r, r ≠ p → (s.proc r).state.live = true → (s.proc r).master ≠ some p
  | .resume q => q = p ∧ s.call p = .exit ∧
      ∀ r, r ≠ p → (s.proc r).state.live = true → (s.proc r).master ≠ some p
  | _ => False

/-- No other live slot has the directory of this one. -/
def LastUser (s : System) (p : Lwp) : Prop :=
  ∀ q, q ≠ p → (s.proc q).state.live = true → (s.proc q).pgdir ≠ (s.proc p).pgdir

/-- A step in which a master gives up its directory only as its last user. -/
def tidyStep (s : System) (event : Event) (t : System) : Prop :=
  s.step event = some t ∧ ∀ p, (s.proc p).tid = 1 → GivesUp s p event → LastUser s p

/-- The invariant. -/
structure Housed (s : System) : Prop extends Grouped s where
  /-- A started LWP has an allocated directory. -/
  home : ∀ p, (s.proc p).state.started = true → ∃ d, (s.proc p).pgdir = some d ∧ s.dirs d = true
  /-- It is the directory of its master. -/
  shared : ∀ p m, (s.proc p).state.started = true → (s.proc p).master = some m →
    (s.proc m).pgdir = (s.proc p).pgdir
  /-- An embryo has no directory yet. -/
  unborn : ∀ p, (s.proc p).state = .embryo → (s.proc p).pgdir = none
  /-- The directory of a zombie master is allocated and nobody else's. -/
  left : ∀ p, (s.proc p).state = .zombie → (s.proc p).tid = 1 → ∃ d, (s.proc p).pgdir = some d ∧
    s.dirs d = true ∧ ∀ q, q ≠ p →
      (s.proc q).state.started = true ∨ (s.proc q).state = .zombie ∧ (s.proc q).tid = 1 →
      (s.proc q).pgdir ≠ some d
  /-- No directory was freed while it was used. -/
  unused : ∀ freevm ∈ s.freed, freevm.users = []

section Directories

variable {s t u : System} {p q np : Lwp}

/-- A change of nothing that groups or directories depend on. -/
theorem Housed.congr (housed : Housed s) (groups : SameGroups s t) (dirs : SameDirs s t) : Housed t where
  toGrouped := housed.toGrouped.congr groups
  home p started := by
    rw [(groups.proc p).started] at started
    rw [dirs.pgdir p, dirs.dirs]
    exact housed.home p started
  shared p m started master := by
    rw [(groups.proc p).started] at started
    rw [(groups.proc p).master] at master
    rw [dirs.pgdir p, dirs.pgdir m]
    exact housed.shared p m started master
  unborn p embryo := by
    rw [dirs.pgdir p]
    exact housed.unborn p (((groups.proc p).state_iff rfl).mp embryo)
  left p zombie whole := by
    rw [(groups.proc p).tid] at whole
    obtain ⟨d, pgdir, allocated, others⟩ := housed.left p (((groups.proc p).state_iff rfl).mp zombie) whole
    refine ⟨d, (dirs.pgdir p).trans pgdir, ?_, ?_⟩
    · rw [dirs.dirs]
      exact allocated
    · intro q other busy
      rw [dirs.pgdir q]
      refine others q other ?_
      rw [(groups.proc q).started, (groups.proc q).tid, (groups.proc q).state_iff rfl] at busy
      exact busy
  unused := by
    rw [dirs.freed]
    exact housed.unused

/-- A zombie master's directory is not that of a live slot. -/
theorem Housed.left_live (housed : Housed s) {d : Nat} (zombie : (s.proc p).state = .zombie)
    (whole : (s.proc p).tid = 1) (pgdir : (s.proc p).pgdir = some d) (other : q ≠ p)
    (live : (s.proc q).state.live = true) : (s.proc q).pgdir ≠ some d := by
  obtain ⟨d', same, _, others⟩ := housed.left p zombie whole
  rw [pgdir] at same
  cases same
  rcases RunState.live_cases live with started | embryo
  · exact others q other (.inl started)
  · rw [housed.unborn q embryo]
    exact Option.some_ne_none d |>.symm

/-! ## Deleting a slot -/

/-- Deleting a slot changes no `pgdir`. -/
theorem deleteThread_pgdir (deleted : s.deleteThread p = some t) (q : Lwp) :
    (t.proc q).pgdir = (s.proc q).pgdir := by
  by_cases here : q = p
  · obtain ⟨master, u, _, rfl, whole⟩ := System.deleteThread_some deleted
    obtain ⟨stack, cleared⟩ := u.clearSlot_self p master
    rw [here, cleared]
    rcases whole with ⟨_, dropped⟩ | ⟨_, rfl⟩
    · obtain ⟨v, d, given, _, rfl⟩ := System.dropMaster_some dropped
      change ((v.setProc p _).proc p).pgdir = _
      rw [System.setProc_self]
    · rfl
  · obtain ⟨stack, slot⟩ := System.deleteThread_other deleted here
    rw [slot]

/-- Deleting an LWP that is no master frees no directory. -/
theorem deleteThread_dirs (deleted : s.deleteThread p = some t) (thread : (s.proc p).tid ≠ 1) :
    t.dirs = s.dirs ∧ t.freed = s.freed := by
  obtain ⟨master, u, _, rfl, ⟨whole, _⟩ | ⟨_, rfl⟩⟩ := System.deleteThread_some deleted
  · exact absurd whole thread
  · exact ⟨rfl, rfl⟩

/-- Deleting a master frees its directory. -/
theorem deleteThread_frees (deleted : s.deleteThread p = some t) (whole : (s.proc p).tid = 1) :
    ∃ d users, (s.proc p).pgdir = some d ∧ t.dirs = Function.update s.dirs d false ∧
      t.freed = s.freed ++ [⟨d, users⟩] ∧
      ∀ q ∈ users, q ≠ p ∧ (s.proc q).state.live = true ∧ (s.proc q).pgdir = some d := by
  obtain ⟨master, u, _, rfl, ⟨_, dropped⟩ | ⟨thread, _⟩⟩ := System.deleteThread_some deleted
  · obtain ⟨v, d, given, pgdir, rfl⟩ := System.dropMaster_some dropped
    obtain ⟨slots, _, _, _, dirs, freed⟩ := System.dropClass_some given
    refine ⟨d, (v.setProc p { s.proc p with
      stack := [], schedstate := .mlfq, pstride := none, pmlfqNode := none }).users p d, pgdir, ?_, ?_, ?_⟩
    · change Function.update v.dirs d false = _
      rw [dirs]
    · change v.freed ++ _ = _
      rw [freed]
    · intro q member
      unfold System.users at member
      rw [List.mem_filter, Bool.and_eq_true, Bool.and_eq_true, decide_eq_true_eq, beq_iff_eq] at member
      obtain ⟨_, ⟨other, live⟩, same⟩ := member
      rw [System.setProc_other _ _ other, slots] at live same
      exact ⟨other, live, same⟩
  · exact absurd whole thread

/-- A zombie is deleted. -/
theorem Housed.deleteThread (housed : Housed s) (zombie : (s.proc p).state = .zombie)
    (deleted : s.deleteThread p = some t) : Housed t := by
  have grouped := housed.toGrouped.deleteThread zombie deleted
  have gone := (System.deleteThread_self deleted).1
  have slot : ∀ q, q ≠ p → (s.proc q).SameGroup (t.proc q) := by
    intro q other
    obtain ⟨stack, same⟩ := System.deleteThread_other deleted other
    rw [same]
    exact ⟨rfl, rfl, rfl, .inl rfl⟩
  have away : ∀ q, (t.proc q).state ≠ .unused → q ≠ p := by
    rintro q taken rfl
    exact taken gone
  have started : ∀ q, (t.proc q).state.started = true → q ≠ p ∧ (s.proc q).state.started = true := by
    intro q alive
    have other := away q (fun unused => by rw [unused] at alive; contradiction)
    rw [(slot q other).started] at alive
    exact ⟨other, alive⟩
  -- the directories that stay allocated
  have kept : ∀ d, s.dirs d = true → ((s.proc p).tid = 1 → (s.proc p).pgdir ≠ some d) → t.dirs d = true := by
    intro d allocated spared
    by_cases whole : (s.proc p).tid = 1
    · obtain ⟨freed, _, pgdir, dirs, _, _⟩ := deleteThread_frees deleted whole
      have distinct : d ≠ freed := by
        rintro rfl
        exact spared whole pgdir
      rw [dirs, Function.update_of_ne distinct]
      exact allocated
    · rw [(deleteThread_dirs deleted whole).1]
      exact allocated
  have spared : ∀ q d, q ≠ p → (s.proc q).state.started = true ∨ (s.proc q).state = .zombie ∧ (s.proc q).tid = 1 →
      (s.proc q).pgdir = some d → (s.proc p).tid = 1 → (s.proc p).pgdir ≠ some d := by
    intro q d other busy pgdir whole same
    obtain ⟨d', own, _, others⟩ := housed.left p zombie whole
    rw [same] at own
    cases own
    exact others q other busy pgdir
  refine ⟨grouped, ?_, ?_, ?_, ?_, ?_⟩
  · intro q alive
    obtain ⟨other, alive⟩ := started q alive
    obtain ⟨d, pgdir, allocated⟩ := housed.home q alive
    exact ⟨d, (deleteThread_pgdir deleted q).trans pgdir,
      kept d allocated (spared q d other (.inl alive) pgdir)⟩
  · intro q m alive master
    obtain ⟨other, alive⟩ := started q alive
    rw [(slot q other).master] at master
    rw [deleteThread_pgdir deleted q, deleteThread_pgdir deleted m]
    exact housed.shared q m alive master
  · intro q embryo
    have other := away q (by rw [embryo]; exact RunState.noConfusion)
    rw [deleteThread_pgdir deleted q]
    exact housed.unborn q (((slot q other).state_iff rfl).mp embryo)
  · intro q still whole
    have other := away q (by rw [still]; exact RunState.noConfusion)
    rw [(slot q other).tid] at whole
    have before := ((slot q other).state_iff rfl).mp still
    obtain ⟨d, pgdir, allocated, others⟩ := housed.left q before whole
    refine ⟨d, (deleteThread_pgdir deleted q).trans pgdir,
      kept d allocated (spared q d other (.inr ⟨before, whole⟩) pgdir), ?_⟩
    intro r distinct busy
    have there : r ≠ p := by
      refine away r fun unused => ?_
      rw [unused] at busy
      rcases busy with alive | ⟨dead, _⟩ <;> contradiction
    rw [(slot r there).started, (slot r there).tid, (slot r there).state_iff rfl] at busy
    rw [deleteThread_pgdir deleted r]
    exact others r distinct busy
  · intro freevm member
    by_cases whole : (s.proc p).tid = 1
    · obtain ⟨d, users, pgdir, _, freed, use⟩ := deleteThread_frees deleted whole
      rw [freed, List.mem_append, List.mem_singleton] at member
      rcases member with before | rfl
      · exact housed.unused freevm before
      · refine List.eq_nil_iff_forall_not_mem.mpr fun q used => ?_
        obtain ⟨other, live, same⟩ := use q used
        exact housed.left_live zombie whole pgdir other live same
    · rw [(deleteThread_dirs deleted whole).2] at member
      exact housed.unused freevm member

/-- Zombies are deleted. -/
theorem Housed.reaps (housed : Housed s) (reaps : Reaps s t) : Housed t := by
  induction reaps with
  | calm calm => exact housed.congr calm.groups calm.dirs
  | reap q before zombie deleted _ ih =>
    exact ih ((housed.congr before.groups before.dirs).deleteThread zombie deleted)

/-- Reaping changes no `pgdir`. -/
theorem Reaps.pgdir (reaps : Reaps s t) (q : Lwp) : (t.proc q).pgdir = (s.proc q).pgdir := by
  induction reaps with
  | calm calm => exact calm.dirs.pgdir q
  | reap r before _ deleted _ ih =>
    exact ih.trans ((deleteThread_pgdir deleted q).trans (before.dirs.pgdir q))

/-! ## Steps -/

/-- A started LWP becomes a zombie, a master as the last user of its directory. -/
theorem Housed.zombie (housed : Housed s) (started : (s.proc p).state.started = true)
    (last : (s.proc p).tid = 1 → LastUser s p) : Housed (s.zombie p) := by
  have alone : (s.proc p).tid = 1 → Alone s p := by
    intro whole q other alive master
    exact last whole q other (RunState.live_of_started alive) (housed.shared q p alive master).symm
  have slot : ∀ q, q ≠ p → (s.zombie p).proc q = s.proc q := fun q other => System.setProc_other _ _ other
  have self : (s.zombie p).proc p = { s.proc p with state := .zombie } := System.setProc_self _ _ _
  have pgdir : ∀ q, ((s.zombie p).proc q).pgdir = (s.proc q).pgdir := by
    intro q
    by_cases here : q = p
    · rw [here, self]
    · rw [slot q here]
  have away : ∀ q, ((s.zombie p).proc q).state ≠ .zombie → q ≠ p := by
    rintro q busy rfl
    exact busy (by rw [self])
  have others : ∀ q, ((s.zombie p).proc q).state.started = true → q ≠ p ∧ (s.proc q).state.started = true := by
    intro q alive
    have other := away q (RunState.not_zombie alive)
    rw [slot q other] at alive
    exact ⟨other, alive⟩
  refine ⟨housed.toGrouped.zombie started alone, ?_, ?_, ?_, ?_, housed.unused⟩
  · intro q alive
    rw [pgdir q]
    exact housed.home q (others q alive).2
  · intro q m alive master
    obtain ⟨other, alive⟩ := others q alive
    rw [slot q other] at master
    rw [pgdir q, pgdir m]
    exact housed.shared q m alive master
  · intro q embryo
    have other := away q (by rw [embryo]; exact RunState.noConfusion)
    rw [slot q other] at embryo
    rw [pgdir q]
    exact housed.unborn q embryo
  · intro q still whole
    by_cases here : q = p
    · rw [here, self] at whole
      obtain ⟨d, own, allocated⟩ := housed.home p started
      refine ⟨d, (pgdir q).trans (by rw [here]; exact own), allocated, ?_⟩
      intro r other busy
      rw [here] at other
      rw [slot r other] at busy
      rw [pgdir r, ← own]
      rcases busy with alive | ⟨dead, master⟩
      · exact last whole r other (RunState.live_of_started alive)
      · intro same
        exact housed.left_live dead master (same.trans own) other.symm (RunState.live_of_started started) own
    · rw [slot q here] at still whole
      obtain ⟨d, own, allocated, alone⟩ := housed.left q still whole
      refine ⟨d, (pgdir q).trans own, allocated, ?_⟩
      intro r other busy
      rw [pgdir r]
      refine alone r other ?_
      by_cases there : r = p
      · rw [there]
        exact .inl started
      · rw [slot r there] at busy
        exact busy

/-- A slot that is neither started nor a zombie master changes to one that is not either. -/
theorem Housed.quietSlot (housed : Housed s) {r : Proc} (grouped : Grouped t)
    (proc : t.proc = (s.setProc p r).proc) (dirs : t.dirs = s.dirs) (freed : t.freed = s.freed)
    (stopped : (s.proc p).state.started = false) (idle : r.state = .embryo ∧ r.pgdir = none ∨ r.state = .unused) :
    Housed t := by
  have self : t.proc p = r := by
    rw [proc, System.setProc_self]
  have slot : ∀ q, q ≠ p → t.proc q = s.proc q := by
    intro q other
    rw [proc, System.setProc_other _ _ other]
  have away : ∀ q, (t.proc q).state.started = true ∨ (t.proc q).state = .zombie → q ≠ p := by
    rintro q busy rfl
    rw [self] at busy
    rcases idle with ⟨state, _⟩ | state
    · rw [state] at busy
      rcases busy with alive | dead <;> contradiction
    · rw [state] at busy
      rcases busy with alive | dead <;> contradiction
  refine ⟨grouped, ?_, ?_, ?_, ?_, ?_⟩
  · intro q alive
    have other := away q (.inl alive)
    rw [slot q other] at alive ⊢
    rw [dirs]
    exact housed.home q alive
  · intro q m alive master
    have other := away q (.inl alive)
    rw [slot q other] at alive master ⊢
    have there : m ≠ p := by
      rintro rfl
      exact housed.vacant stopped q other alive master
    rw [slot m there]
    exact housed.shared q m alive master
  · intro q embryo
    by_cases here : q = p
    · rw [here, self] at embryo ⊢
      rcases idle with ⟨_, none⟩ | unused
      · exact none
      · rw [unused] at embryo
        contradiction
    · rw [slot q here] at embryo ⊢
      exact housed.unborn q embryo
  · intro q dead whole
    have other := away q (.inr dead)
    rw [slot q other] at dead whole ⊢
    rw [dirs]
    obtain ⟨d, own, allocated, alone⟩ := housed.left q dead whole
    refine ⟨d, own, allocated, fun q' distinct busy => ?_⟩
    have there := away q' (busy.imp id And.left)
    rw [slot q' there] at busy ⊢
    exact alone q' distinct busy
  · rw [freed]
    exact housed.unused

/-- An embryo is started on a directory of its own or on that of its master. -/
theorem Housed.start (housed : Housed s) {r : Proc} {m : Lwp} {d : Nat} (grouped : Grouped (s.setProc p r))
    (embryo : (s.proc p).state = .embryo) (started : r.state.started = true) (master : r.master = some m)
    (pgdir : r.pgdir = some d) (allocated : s.dirs d = true)
    (home : m = p ∨ m ≠ p ∧ (s.proc m).pgdir = some d)
    (fresh : ∀ q, (s.proc q).state = .zombie → (s.proc q).tid = 1 → (s.proc q).pgdir ≠ some d) :
    Housed (s.setProc p r) := by
  have stopped : (s.proc p).state.started = false := by
    rw [embryo]
    rfl
  refine ⟨grouped, ?_, ?_, ?_, ?_, housed.unused⟩
  · intro q alive
    by_cases here : q = p
    · rw [here, System.setProc_self]
      exact ⟨d, pgdir, allocated⟩
    · rw [System.setProc_other _ _ here] at alive ⊢
      exact housed.home q alive
  · intro q m' alive points
    by_cases here : q = p
    · rw [here, System.setProc_self] at points ⊢
      rw [master] at points
      cases points
      rcases home with rfl | ⟨other, same⟩
      · rw [System.setProc_self]
      · rw [System.setProc_other _ _ other, same, pgdir]
    · rw [System.setProc_other _ _ here] at alive points ⊢
      have there : m' ≠ p := by
        rintro rfl
        exact housed.vacant stopped q here alive points
      rw [System.setProc_other _ _ there]
      exact housed.shared q m' alive points
  · intro q still
    by_cases here : q = p
    · rw [here, System.setProc_self] at still
      rw [still] at started
      contradiction
    · rw [System.setProc_other _ _ here] at still ⊢
      exact housed.unborn q still
  · intro q dead whole
    have other : q ≠ p := by
      rintro rfl
      rw [System.setProc_self] at dead
      rw [dead] at started
      contradiction
    rw [System.setProc_other _ _ other] at dead whole ⊢
    obtain ⟨d', own, kept, alone⟩ := housed.left q dead whole
    refine ⟨d', own, kept, fun q' distinct busy => ?_⟩
    by_cases there : q' = p
    · rw [there, System.setProc_self, pgdir]
      intro same
      exact fresh q dead whole (own.trans same.symm)
    · rw [System.setProc_other _ _ there] at busy ⊢
      exact alone q' distinct busy

/-- The locked part of `allocproc`. -/
theorem Housed.takeSlot (housed : Housed s) (unused : (s.proc np).state = .unused) :
    Housed (s.takeSlot np) := by
  refine housed.quietSlot (housed.toGrouped.takeSlot unused) rfl rfl rfl ?_ (.inl ⟨rfl, rfl⟩)
  rw [unused]
  rfl

/-- `fork` up to the return of `allocproc`. -/
theorem Housed.fork (housed : Housed s) (p : Lwp) (kalloc : Bool) : Housed (s.fork p kalloc) := by
  have grouped := housed.toGrouped.fork p kalloc
  rcases fork_cases s p kalloc with same | ⟨np, free, _, same⟩ | ⟨np, free, _, same⟩
  · rw [same]
    exact housed
  · rw [same] at grouped ⊢
    refine (housed.takeSlot (freeSlot_unused free)).quietSlot grouped rfl rfl rfl ?_ (.inr rfl)
    rw [takeSlot_embryo]
    rfl
  · rw [same] at grouped ⊢
    have sorted := Sorted.initSlot (s.takeSlot np) np
    have ready := (housed.takeSlot (freeSlot_unused free)).congr sorted.groups sorted.dirs
    exact ⟨grouped, ready.home, ready.shared, ready.unborn, ready.left, ready.unused⟩

/-- A directory that no started LWP and no zombie master has is freed. -/
theorem Housed.freevm (housed : Housed s) {d : Nat}
    (free : ∀ q, (s.proc q).state.started = true ∨ (s.proc q).state = .zombie ∧ (s.proc q).tid = 1 →
      (s.proc q).pgdir ≠ some d) : Housed (s.freevm p d) := by
  have kept : ∀ q d', (s.proc q).state.started = true ∨ (s.proc q).state = .zombie ∧ (s.proc q).tid = 1 →
      (s.proc q).pgdir = some d' → s.dirs d' = true → (s.freevm p d).dirs d' = true := by
    intro q d' busy pgdir allocated
    have distinct : d' ≠ d := by
      rintro rfl
      exact free q busy pgdir
    change Function.update s.dirs d false d' = true
    rw [Function.update_of_ne distinct]
    exact allocated
  refine ⟨housed.toGrouped.congr ⟨fun _ => .refl _, rfl, rfl, fun _ => .inl rfl⟩, ?_, housed.shared, housed.unborn, ?_, ?_⟩
  · intro q alive
    obtain ⟨d', pgdir, allocated⟩ := housed.home q alive
    exact ⟨d', pgdir, kept q d' (.inl alive) pgdir allocated⟩
  · intro q dead whole
    obtain ⟨d', pgdir, allocated, others⟩ := housed.left q dead whole
    exact ⟨d', pgdir, kept q d' (.inr ⟨dead, whole⟩) pgdir allocated, others⟩
  · intro freevm member
    change freevm ∈ s.freed ++ [⟨d, s.users p d⟩] at member
    rw [List.mem_append, List.mem_singleton] at member
    rcases member with before | rfl
    · exact housed.unused freevm before
    · refine List.eq_nil_iff_forall_not_mem.mpr fun q used => ?_
      change q ∈ s.users p d at used
      unfold System.users at used
      rw [List.mem_filter, Bool.and_eq_true, Bool.and_eq_true, beq_iff_eq] at used
      obtain ⟨_, ⟨_, live⟩, same⟩ := used
      rcases RunState.live_cases live with alive | embryo
      · exact free q (.inl alive) same
      · rw [housed.unborn q embryo] at same
        contradiction

/-- Nobody has a directory that is not allocated. -/
theorem Housed.untaken (housed : Housed s) {d : Nat} (new : s.dirs d = false) (q : Lwp)
    (busy : (s.proc q).state.started = true ∨ (s.proc q).state = .zombie ∧ (s.proc q).tid = 1) :
    (s.proc q).pgdir ≠ some d := by
  intro same
  rcases busy with alive | ⟨dead, whole⟩
  · obtain ⟨d', pgdir, allocated⟩ := housed.home q alive
    rw [same] at pgdir
    cases pgdir
    rw [new] at allocated
    contradiction
  · obtain ⟨d', pgdir, allocated, _⟩ := housed.left q dead whole
    rw [same] at pgdir
    cases pgdir
    rw [new] at allocated
    contradiction

/-- A directory that was begun is given up. -/
theorem Housed.discard (housed : Housed s) {begun : Option Nat} (discarded : s.discard p begun = some t) :
    Housed t := by
  unfold System.discard at discarded
  split at discarded
  · cases discarded
    exact housed
  · split at discarded
    · contradiction
    · rename_i new
      cases discarded
      exact housed.freevm (housed.untaken (Bool.not_eq_true _ ▸ new))

/-- A directory is allocated. -/
theorem Housed.allocate (housed : Housed s) (d : Nat) :
    Housed { s with dirs := Function.update s.dirs d true } := by
  have kept : ∀ d', s.dirs d' = true → Function.update s.dirs d true d' = true := by
    intro d' allocated
    by_cases here : d' = d
    · rw [here, Function.update_self]
    · rw [Function.update_of_ne here]
      exact allocated
  refine ⟨housed.toGrouped.congr ⟨fun _ => .refl _, rfl, rfl, fun _ => .inl rfl⟩, ?_, housed.shared, housed.unborn, ?_, housed.unused⟩
  · intro q alive
    obtain ⟨d', pgdir, allocated⟩ := housed.home q alive
    exact ⟨d', pgdir, kept d' allocated⟩
  · intro q dead whole
    obtain ⟨d', pgdir, allocated, others⟩ := housed.left q dead whole
    exact ⟨d', pgdir, kept d' allocated, others⟩

/-- The rest of `fork`. -/
theorem Housed.forkCopy (housed : Housed s) {result : CopyResult} (call : s.call p = .fork np)
    (copied : s.forkCopy p np result = some t) : Housed t := by
  have grouped := housed.toGrouped.forkCopy call copied
  have embryo := housed.forking p np call
  have stopped : (s.proc np).state.started = false := by
    rw [embryo]
    rfl
  rcases forkCopy_some copied with ⟨_, u, rfl, discarded, rfl⟩ | ⟨d, rfl, new, rfl⟩
  · refine (housed.discard discarded).quietSlot grouped rfl rfl rfl ?_ (.inr rfl)
    rw [(discard_groups discarded).2.2]
    exact stopped
  · have quit : Housed (({ s with dirs := Function.update s.dirs d true }.setCall np .none).setCall p .none) :=
      ((housed.allocate d).congr (.setCall rfl) ⟨fun _ => rfl, rfl, rfl⟩).congr (.setCall rfl) ⟨fun _ => rfl, rfl, rfl⟩
    refine quit.start (p := np) (m := np) (d := d) grouped embryo rfl (housed.embryo np embryo).2 rfl ?_ (.inl rfl) ?_
    · exact Function.update_self _ _ _
    · intro q dead whole
      exact housed.untaken new q (.inr ⟨dead, whole⟩)

/-- The rest of `thread_create`. -/
theorem Housed.threadCreate (housed : Housed s) {tid : Nat} {outcome : StackOutcome}
    (started : (s.proc p).state.started = true) (call : s.call p = .threadCreate tid)
    (created : s.threadCreate p tid outcome = some t) : Housed t := by
  have grouped := housed.toGrouped.threadCreate started call created
  obtain ⟨np, v, w, master, base, free, returned, points, taken, rfl⟩ := threadCreate_some created
  have unused := freeSlot_unused free
  have sorted : Sorted (s.takeSlot np) w :=
    ((Sorted.initSlot _ np).trans (.returnNode returned)).trans (.takeBase taken)
  have ready : Housed w := (housed.takeSlot unused).congr sorted.groups sorted.dirs
  have embryo : (w.proc np).state = .embryo :=
    ((sorted.groups.proc np).state_iff rfl).mpr (takeSlot_embryo s np)
  have stopped : (w.proc np).state.started = false := by
    rw [embryo]
    rfl
  have points : (w.proc p).master = some master :=
    ((Sorted.takeBase taken).groups.proc p).master.trans points
  cases outcome with
  | noMemory => exact ready.quietSlot grouped rfl rfl rfl stopped (.inr rfl)
  | noCopy =>
    have pushed : Calm w (w.setProc master { w.proc master with stack := base :: (w.proc master).stack }) :=
      .setProc (.of_state (.inl rfl) ⟨rfl, rfl, rfl, rfl, rfl, rfl, rfl⟩)
    refine (ready.congr pushed.groups pushed.dirs).quietSlot grouped rfl rfl rfl ?_ (.inr rfl)
    rw [(pushed.groups.proc np).started]
    exact stopped
  | mapped =>
    have apart : p ≠ np := by
      rintro rfl
      rw [unused] at started
      contradiction
    have running : (w.proc p).state.started = true := by
      have same := (sorted.groups.proc p).started
      unfold System.takeSlot at same
      rw [System.setProc_other _ _ apart] at same
      rw [same]
      exact started
    obtain ⟨d, pgdir, allocated⟩ := ready.home p running
    have home : (w.proc master).pgdir = some d := (ready.shared p master running points).trans pgdir
    have quit : Housed ((w.setCall np .none).setCall p .none) :=
      (ready.congr (.setCall rfl) ⟨fun _ => rfl, rfl, rfl⟩).congr (.setCall rfl) ⟨fun _ => rfl, rfl, rfl⟩
    refine quit.start (p := np) (m := master) (d := d) grouped embryo rfl rfl home allocated (.inr ⟨?_, home⟩) ?_
    · rintro rfl
      exact ready.vacant stopped p apart running points
    · intro q dead whole same
      have distinct : p ≠ q := by
        rintro rfl
        exact RunState.not_zombie running dead
      exact ready.left_live dead whole same distinct (RunState.live_of_started running) pgdir

/-- An LWP that is no master enters `exec`. -/
theorem Housed.detach (housed : Housed s) (started : (s.proc p).state.started = true)
    (call : s.call p = .none) (thread : (s.proc p).tid ≠ 1) :
    Housed ((s.execDeleteThread p).setCall p (.exec false)) := by
  have grouped := housed.toGrouped.detach started call thread
  have killed := Calm.killOthers s p
  have before := housed.congr killed.groups killed.dirs
  have alone : Alone (s.killOthers p) p := (housed.alone thread).congr killed.groups
  have running : ((s.killOthers p).proc p).state.started = true := by
    rw [(killed.groups.proc p).started]
    exact started
  have sorted := Sorted.pushMlfq ((s.killOthers p).leaveGroup p)
    (((s.killOthers p).leaveGroup p).proc p).pid 0
  have dirs := sorted.dirs
  have slot : ∀ q, q ≠ p → ((s.killOthers p).proc q).SameGroup ((s.execDeleteThread p).proc q) := by
    intro q other
    have same := sorted.groups.proc q
    have kept : ((s.killOthers p).leaveGroup p).proc q = (s.killOthers p).proc q := System.setProc_other _ _ other
    rw [kept] at same
    exact same
  have self : (((s.killOthers p).leaveGroup p).proc p).SameGroup ((s.execDeleteThread p).proc p) :=
    sorted.groups.proc p
  have leader : ((s.killOthers p).leaveGroup p).proc p = { (s.killOthers p).proc p with
      schedstate := .used, pmlfqNode := none, pstride := none, pid := (s.killOthers p).nextpid, tid := 1,
      parent := some (s.killOthers p).initproc, master := some p } := System.setProc_self _ _ _
  have pgdir : ∀ q, ((s.execDeleteThread p).proc q).pgdir = ((s.killOthers p).proc q).pgdir := by
    intro q
    refine (dirs.pgdir q).trans ?_
    by_cases here : q = p
    · rw [here, leader]
    · exact congrArg Proc.pgdir (System.setProc_other _ _ here)
  have moving : ∀ q, ((s.execDeleteThread p).proc q).state.started = ((s.killOthers p).proc q).state.started := by
    intro q
    by_cases here : q = p
    · rw [here, self.started, leader]
    · exact (slot q here).started
  have away : ∀ q, ((s.execDeleteThread p).proc q).state.started = false → q ≠ p := by
    rintro q idle rfl
    rw [moving, running] at idle
    contradiction
  refine ⟨grouped, ?_, ?_, ?_, ?_, ?_⟩
  · intro q alive
    obtain ⟨d, own, allocated⟩ := before.home q ((moving q).symm.trans alive)
    exact ⟨d, (pgdir q).trans own, (congrFun dirs.dirs d).trans allocated⟩
  · intro q m alive master
    refine (pgdir m).trans (.trans ?_ (pgdir q).symm)
    by_cases here : q = p
    · rw [here] at master ⊢
      have own := self.master.trans (congrArg Proc.master leader)
      cases own.symm.trans master
      rfl
    · exact before.shared q m ((moving q).symm.trans alive) ((slot q here).master.symm.trans master)
  · intro q embryo
    have other := away q (by rw [show ((s.execDeleteThread p).proc q).state = _ from embryo]; rfl)
    exact (pgdir q).trans (before.unborn q (((slot q other).state_iff rfl).mp embryo))
  · intro q dead whole
    have other := away q (by rw [show ((s.execDeleteThread p).proc q).state = _ from dead]; rfl)
    obtain ⟨d, own, allocated, others⟩ := before.left q (((slot q other).state_iff rfl).mp dead)
      ((slot q other).tid.symm.trans whole)
    refine ⟨d, (pgdir q).trans own, (congrFun dirs.dirs d).trans allocated, ?_⟩
    intro r distinct busy
    change ((s.execDeleteThread p).proc r).pgdir ≠ some d
    rw [pgdir r]
    refine others r distinct ?_
    by_cases there : r = p
    · rw [there]
      exact .inl running
    · rcases busy with alive | ⟨ended, master⟩
      · exact .inl ((moving r).symm.trans alive)
      · exact .inr ⟨((slot r there).state_iff rfl).mp ended, (slot r there).tid.symm.trans master⟩
  · change ∀ freevm ∈ (s.execDeleteThread p).freed, freevm.users = []
    rw [show (s.execDeleteThread p).freed = (s.killOthers p).freed from dirs.freed]
    exact before.unused

/-- The last user of a directory is alone in its group. -/
theorem Housed.alone_of_last (housed : Housed s) (last : LastUser s p) : Alone s p := by
  intro q other alive master
  exact last q other (RunState.live_of_started alive) (housed.shared q p alive master).symm

/-- A master that is alone moves to a new directory. -/
theorem Housed.move (housed : Housed s) {d : Nat} (started : (s.proc p).state.started = true)
    (whole : (s.proc p).tid = 1) (alone : Alone s p) (new : s.dirs d = false) (sz : Nat) :
    Housed ({ s with dirs := Function.update s.dirs d true }.setProc p { s.proc p with pgdir := some d, sz }) := by
  have before := housed.allocate d
  have same : SameGroups { s with dirs := Function.update s.dirs d true }
      ({ s with dirs := Function.update s.dirs d true }.setProc p { s.proc p with pgdir := some d, sz }) :=
    .setProc ⟨rfl, rfl, rfl, .inl rfl⟩
  have self := System.setProc_self { s with dirs := Function.update s.dirs d true } p
    { s.proc p with pgdir := some d, sz }
  have slot : ∀ q, q ≠ p → ({ s with dirs := Function.update s.dirs d true }.setProc p
      { s.proc p with pgdir := some d, sz }).proc q = s.proc q := fun q other => System.setProc_other _ _ other
  refine ⟨before.toGrouped.congr same, ?_, ?_, ?_, ?_, housed.unused⟩
  · intro q alive
    by_cases here : q = p
    · rw [here, self]
      exact ⟨d, rfl, Function.update_self _ _ _⟩
    · rw [slot q here] at alive ⊢
      exact before.home q alive
  · intro q m alive master
    by_cases here : q = p
    · rw [here, self] at master ⊢
      cases (housed.own started whole).symm.trans master
      rw [self]
    · rw [slot q here] at alive master ⊢
      have there : m ≠ p := by
        rintro rfl
        exact alone q here alive master
      rw [slot m there]
      exact housed.shared q m alive master
  · intro q embryo
    have other : q ≠ p := by
      rintro rfl
      rw [self] at embryo
      rw [show (s.proc q).state = .embryo from embryo] at started
      contradiction
    rw [slot q other] at embryo ⊢
    exact housed.unborn q embryo
  · intro q dead master
    have other : q ≠ p := by
      rintro rfl
      rw [self] at dead
      exact RunState.not_zombie started dead
    rw [slot q other] at dead master ⊢
    obtain ⟨d', own, allocated, others⟩ := before.left q dead master
    refine ⟨d', own, allocated, fun r distinct busy => ?_⟩
    by_cases there : r = p
    · rw [there, self]
      rintro same
      cases same
      exact housed.untaken new q (.inr ⟨dead, master⟩) own
    · rw [slot r there] at busy ⊢
      exact others r distinct busy

/-- `exec` commits to a new image, a master as the last user of its directory. -/
theorem Housed.execCommit (housed : Housed s) {isMaster : Bool} {d sz : Nat}
    (started : (s.proc p).state.started = true) (call : s.call p = .exec isMaster)
    (last : isMaster = true → LastUser s p) (committed : s.execCommit p isMaster d sz = some t) :
    Housed t := by
  obtain ⟨whole, left⟩ := housed.leaving p isMaster call started
  have alone : Alone s p := by
    cases isMaster with
    | false => exact left rfl
    | true => exact housed.alone_of_last (last rfl)
  unfold System.execCommit at committed
  split at committed
  · contradiction
  · rename_i new
    have new := Bool.eq_false_iff.mpr new
    have moved := housed.move started whole alone new sz
    simp only at committed
    split at committed
    · cases committed
      exact moved.congr (.setCall rfl) ⟨fun _ => rfl, rfl, rfl⟩
    · contradiction
    · rename_i old pgdir
      cases committed
      refine (moved.freevm (p := p) ?_).congr (.setCall rfl) ⟨fun _ => rfl, rfl, rfl⟩
      intro q busy
      by_cases here : q = p
      · rw [here, System.setProc_self]
        intro same
        cases same
        exact housed.untaken new p (.inl started) pgdir
      · rw [System.setProc_other _ _ here] at busy ⊢
        rcases busy with alive | ⟨dead, master⟩
        · rw [← pgdir]
          exact last rfl q here (RunState.live_of_started alive)
        · intro same
          have distinct : p ≠ q := fun same => here same.symm
          exact housed.left_live dead master same distinct (RunState.live_of_started started) pgdir

/-- The last user of its directory is the last one after reaping. -/
theorem LastUser.reaps (last : LastUser s p) (reaps : Reaps s t) : LastUser t p := by
  intro q other live
  rw [reaps.pgdir q, reaps.pgdir p]
  refine last q other ?_
  rcases reaps.proc q with same | ⟨_, unused⟩
  · rw [← same.live]
    exact live
  · rw [unused] at live
    contradiction

/-- `exit` ends an LWP, a master as the last user of its directory. -/
theorem Housed.exit (housed : Housed s) {event : Event} (running : (s.proc p).state = .running)
    (which : event = .exit p ∧ s.call p = .none ∨ event = .resume p ∧ s.call p = .exit)
    (tidy : ∀ p, (s.proc p).tid = 1 → GivesUp s p event → LastUser s p) (reaps : Reaps s u)
    (gone : (u.proc p).tid = 1 → ∀ q, q ≠ p → (u.proc q).master = (u.proc p).master →
      (u.proc q).state = .unused) : Housed (u.zombie p) := by
  have started := System.started_of_running running
  have given := housed.reaps reaps
  have self := reaps.started started
  have alive : (u.proc p).state.started = true := by
    rw [self.started]
    exact started
  refine given.zombie alive fun whole => LastUser.reaps (tidy p (self.tid.symm.trans whole) ?_) reaps
  have ended : ∀ r, r ≠ p → (s.proc r).state.live = true → (s.proc r).master ≠ some p := by
    intro r other live master
    rcases reaps.proc r with same | ⟨zombie, _⟩
    · have dead := gone whole r other ((same.master.trans master).trans (given.own alive whole).symm)
      rw [← same.live, dead] at live
      contradiction
    · rw [zombie] at live
      contradiction
  rcases which with ⟨rfl, _⟩ | ⟨rfl, call⟩
  · exact ⟨rfl, ended⟩
  · exact ⟨rfl, call, ended⟩

/-- A step in which masters give up their directories as the last users keeps the invariant. -/
theorem Housed.step (housed : Housed s) {event : Event} (tidy : tidyStep s event t) : Housed t := by
  obtain ⟨taken, tidy⟩ := tidy
  have effect := step_effect taken
  have alone : ∀ p retval, event = .threadExit p retval → (s.proc p).tid = 1 → Alone s p := by
    rintro p retval rfl whole
    exact housed.alone_of_last (tidy p whole rfl)
  have grouped := housed.toGrouped.step effect alone
  cases effect with
  | calm _ calm => exact housed.congr calm.groups calm.dirs
  | fork p kalloc _ _ => exact housed.fork p kalloc
  | forkCopy p np result _ call copied => exact housed.forkCopy call copied
  | threadChoose p running call => exact ⟨grouped, housed.home, housed.shared, housed.unborn, housed.left, housed.unused⟩
  | threadCreate p tid outcome running call created =>
    exact housed.threadCreate (System.started_of_running running) call created
  | threadExit p retval u running call before after =>
    have same := before.groups.proc p
    refine ((housed.congr before.groups before.dirs).zombie ?_ ?_).congr after.groups after.dirs
    · rw [same.started]
      exact System.started_of_running running
    · intro whole
      rw [same.tid] at whole
      exact (tidy p whole rfl).reaps (.calm before)
  | reaps p _ running _ reaps => exact housed.reaps reaps
  | exit p _ u running which reaps gone after =>
    exact (housed.exit running which tidy reaps gone).congr after.groups after.dirs
  | detach p running call thread => exact housed.detach (System.started_of_running running) call thread
  | exec p running call whole => exact ⟨grouped, housed.home, housed.shared, housed.unborn, housed.left, housed.unused⟩
  | execFail p begun _ discarded =>
    exact (housed.discard discarded).congr (.setCall rfl) ⟨fun _ => rfl, rfl, rfl⟩
  | execCommit p isMaster d sz running call committed =>
    refine housed.execCommit (System.started_of_running running) call ?_ committed
    rintro rfl
    exact tidy p (housed.leaving p true call (System.started_of_running running)).1 ⟨rfl, call⟩
  | shareCheck p master inquire minPass running call found _ =>
    exact ⟨grouped, housed.home, housed.shared, housed.unborn, housed.left, housed.unused⟩
  | shareUpdate p master inquire minPass _ _ updated =>
    have sorted := Sorted.shareUpdate updated
    exact (housed.congr sorted.groups sorted.dirs).congr (.setCall rfl) ⟨fun _ => rfl, rfl, rfl⟩
  | tick p yields _ ticked =>
    have sorted := Sorted.addTick ticked
    exact housed.congr sorted.groups sorted.dirs

end Directories

/-! ## Runs -/

/-- The empty tables use no directory. -/
theorem Housed.emptyTables : Housed System.emptyTables where
  toGrouped := .emptyTables
  home _ started := absurd started Bool.false_ne_true
  shared _ _ started := absurd started Bool.false_ne_true
  unborn _ state := absurd state RunState.noConfusion
  left _ state := absurd state RunState.noConfusion
  unused _ member := absurd member List.not_mem_nil

/-- The first process has a directory. -/
theorem Housed.userinit (d : Nat) : Housed (System.userinit d) := by
  have sorted := Sorted.initSlot (System.emptyTables.takeSlot 0) 0
  have ready := (Housed.emptyTables.takeSlot rfl).congr sorted.groups sorted.dirs
  have embryo := ((sorted.groups.proc 0).state_iff rfl).mpr (takeSlot_embryo _ 0)
  have new : ((System.emptyTables.takeSlot 0).initSlot 0).dirs d = false := congrFun sorted.dirs.dirs d
  have grouped := Grouped.userinit d
  unfold System.userinit at grouped ⊢
  rw [allocproc_first] at grouped ⊢
  have started := (ready.allocate d).start (p := 0) (m := 0)
    (r := { ((System.emptyTables.takeSlot 0).initSlot 0).proc 0 with
      pgdir := some d, sz := PGSIZE, state := .runnable })
    (grouped.congr ⟨fun _ => .refl _, rfl, rfl, fun _ => .inl rfl⟩) embryo rfl (ready.embryo 0 embryo).2 rfl
    (Function.update_self _ _ _) (.inl rfl) (fun q dead whole => ready.untaken new q (.inr ⟨dead, whole⟩))
  exact started.congr ⟨fun _ => .refl _, rfl, rfl, fun _ => .inl rfl⟩ ⟨fun _ => rfl, rfl, rfl⟩

/-- When masters give up their directories as the last users, no directory is freed while
another live slot has it, and the directory of a started LWP is allocated. -/
theorem freed_directories_unused {d : Nat} {events : List Event} {t : System}
    (run : Run tidyStep (System.userinit d) events t) :
    (∀ freevm ∈ t.freed, freevm.users = []) ∧
      ∀ p, (t.proc p).state.started = true → ∃ pgdir, (t.proc p).pgdir = some pgdir ∧ t.dirs pgdir = true := by
  have housed := run.invariant Housed (fun _ _ _ housed tidy => housed.step tidy) (Housed.userinit d)
  exact ⟨housed.unused, housed.home⟩

/-- The first process forks a child, which replaces its image. -/
theorem freed_directories_unused_fork_exec :
    ∃ t, Run tidyStep (System.userinit 0)
        [.run 0, .fork 0 true, .forkCopy 0 (.copied 1), .run 1, .exec 1, .execCommit 1 2 PGSIZE] t ∧
      t.freed = [⟨1, []⟩] ∧ ∀ freevm ∈ t.freed, freevm.users = [] := by
  have run : ∃ t, Run tidyStep (System.userinit 0)
      [.run 0, .fork 0 true, .forkCopy 0 (.copied 1), .run 1, .exec 1, .execCommit 1 2 PGSIZE] t ∧
      t.freed = [⟨1, []⟩] := by
    refine ⟨_, .cons ⟨rfl, nofun⟩ (.cons ⟨rfl, nofun⟩ (.cons ⟨rfl, nofun⟩ (.cons ⟨rfl, nofun⟩
      (.cons ⟨rfl, nofun⟩ (.cons ⟨rfl, ?_⟩ (.nil _)))))), ?_⟩
    · rintro p _ ⟨rfl, _⟩
      unfold LastUser
      decide +kernel
    · decide +kernel
  obtain ⟨t, run, freed⟩ := run
  exact ⟨t, run, freed, (freed_directories_unused run).1⟩

/-- A process with a second LWP replaces its image: the directory is freed while slot 2 is
runnable on it. -/
theorem exec_frees_used_directory :
    ∃ t, Run (fun s event t => s.step event = some t) (System.userinit 0)
        [.run 0, .fork 0 true, .forkCopy 0 (.copied 1), .run 1, .threadChoose 1, .threadCreate 1 .mapped,
          .exec 1, .execCommit 1 2 PGSIZE] t ∧
      t.freed = [⟨1, [2]⟩] ∧ (t.proc 2).state = .runnable ∧ (t.proc 2).pgdir = some 1 ∧ t.dirs 1 = false := by
  have outcome : ((Run.exec System.step [.run 0, .fork 0 true, .forkCopy 0 (.copied 1), .run 1, .threadChoose 1,
      .threadCreate 1 .mapped, .exec 1, .execCommit 1 2 PGSIZE] (System.userinit 0)).map fun t =>
        (t.freed, (t.proc 2).state, (t.proc 2).pgdir, t.dirs 1)) =
      some ([⟨1, [2]⟩], .runnable, some 1, false) := by
    decide +kernel
  obtain ⟨t, executed, summary⟩ := Option.map_eq_some_iff.mp outcome
  rw [Prod.mk.injEq, Prod.mk.injEq, Prod.mk.injEq] at summary
  exact ⟨t, Run.of_exec executed, summary⟩

end Xv6
