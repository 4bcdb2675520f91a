import Xv6.Waiting
import Xv6.Verif.Coherence

/-!
# No stranded waiter

A process asleep in `begin_op` is woken by `end_op` and by the end of a commit only. At most one
operation is open, so somebody will wake it as long as an operation is open or a commit in
progress. `begin_op` goes to sleep with neither exactly when `isBufFull` holds: free buffers
come back through `brelse`, which wakes nobody.
-/

namespace Xv6

variable {π : Type}

/-- Every process asleep in `begin_op` will be woken. -/
structure Attended (s : WaitState π) : Prop where
  /-- An operation is open or a commit is in progress. -/
  awaited : ∀ p, s.phase p = .asleep → 0 < s.log.outstanding ∨ s.log.committing = true
  /-- Some process is in that operation or in that commit. -/
  waker : ∀ p, s.phase p = .asleep →
    ∃ q, s.phase q = .inOp ∨ ∃ stage code, s.phase q = .commit stage code

/-- Few buffers may be recycled, and neither an operation nor a commit explains it. -/
def Starved (m : Machine π) : Prop :=
  m.log.outstanding = 0 ∧ m.log.committing = false ∧ m.cache.isBufFull = true

/-- A step, where `begin_op` does not test a starved machine. -/
def attentiveStep [DecidableEq π] (s : WaitState π) (event : WaitEvent π) (t : WaitState π) : Prop :=
  s.step event = some t ∧ ∀ p, event = .test p → ¬Starved s.machine

/-- No process uses the log, which is empty. -/
structure WaitState.Initial (s : WaitState π) : Prop where
  idle : ∀ p, s.phase p = .idle
  empty : s.log.lh = []
  outstanding : s.log.outstanding = 0
  committing : s.log.committing = false

/-- The process is neither in an operation nor in a commit. -/
def WaitPhase.Outside : WaitPhase → Prop
  | .inOp => False
  | .commit _ _ => False
  | _ => True

/-- The process is asleep. -/
def WaitPhase.sleeps : WaitPhase → Bool
  | .asleep => true
  | _ => false

/-- What `sleeps` tells. -/
theorem WaitPhase.asleep_of_sleeps {phase : WaitPhase} (sleeps : phase.sleeps = true) :
    phase = .asleep := by
  cases phase with
  | asleep => rfl
  | idle => contradiction
  | trying => contradiction
  | inOp => contradiction
  | commit stage code => contradiction

/-- The stages of a commit in which the log is empty. -/
def CommitStage.Erased : CommitStage → Prop
  | .eraseHead => True
  | .finish => True
  | _ => False

/-- Who occupies the log: nobody, one operation, or one commit. -/
inductive Occupied (s : WaitState π) : Prop where
  /-- Nobody, and nobody sleeps. -/
  | free (awake : ∀ p, s.phase p = .idle ∨ s.phase p = .trying) (outstanding : s.log.outstanding = 0)
      (committing : s.log.committing = false) (short : s.log.lh.length ≤ MAXOPBLOCKS)
  /-- One operation. -/
  | op (p : π) (mine : s.phase p = .inOp) (others : ∀ q, q ≠ p → (s.phase q).Outside)
      (outstanding : s.log.outstanding = 1) (committing : s.log.committing = false)
  /-- One commit. -/
  | commit (p : π) (stage : CommitStage) (code : Kernel Unit) (mine : s.phase p = .commit stage code)
      (others : ∀ q, q ≠ p → (s.phase q).Outside) (outstanding : s.log.outstanding = 0)
      (committing : s.log.committing = true) (erased : stage.Erased → s.log.lh = [])

/-! ## What the occupancy says -/

section Occupancy

variable {s : WaitState π} {p q : π}

/-- Sleepers are attended to. -/
theorem Occupied.attended (occupied : Occupied s) : Attended s := by
  cases occupied with
  | free awake _ _ _ =>
    have nobody : ∀ p, s.phase p ≠ .asleep := by
      intro p asleep
      rcases awake p with idle | trying
      · rw [idle] at asleep
        contradiction
      · rw [trying] at asleep
        contradiction
    exact ⟨fun p asleep => absurd asleep (nobody p), fun p asleep => absurd asleep (nobody p)⟩
  | op q mine _ outstanding _ =>
    refine ⟨fun _ _ => .inl ?_, fun _ _ => ⟨q, .inl mine⟩⟩
    rw [outstanding]
    decide
  | commit q stage code mine _ _ committing _ =>
    exact ⟨fun _ _ => .inr committing, fun _ _ => ⟨q, .inr ⟨stage, code, mine⟩⟩⟩

/-- A process that is asleep or about to be is outside. -/
theorem Occupied.other (others : ∀ r, r ≠ p → (s.phase r).Outside) (busy : ¬(s.phase q).Outside) :
    q = p := by
  by_contra distinct
  exact busy (others q distinct)

/-- The counters while an operation is open. -/
theorem Occupied.inOp (occupied : Occupied s) (mine : s.phase p = .inOp) :
    s.log.outstanding = 1 ∧ s.log.committing = false ∧ ∀ q, q ≠ p → (s.phase q).Outside := by
  have busy : ¬(s.phase p).Outside := by
    rw [mine]
    exact id
  cases occupied with
  | free awake _ _ _ =>
    rcases awake p with idle | trying
    · rw [mine] at idle
      contradiction
    · rw [mine] at trying
      contradiction
  | op r _ others outstanding committing =>
    rw [Occupied.other others busy]
    exact ⟨outstanding, committing, others⟩
  | commit r stage code theirs others _ _ _ =>
    rw [← Occupied.other others busy, mine] at theirs
    contradiction

/-- The counters during a commit. -/
theorem Occupied.committing (occupied : Occupied s) {stage : CommitStage} {code : Kernel Unit}
    (mine : s.phase p = .commit stage code) :
    s.log.outstanding = 0 ∧ s.log.committing = true ∧ (∀ q, q ≠ p → (s.phase q).Outside) ∧
      (stage.Erased → s.log.lh = []) := by
  have busy : ¬(s.phase p).Outside := by
    rw [mine]
    exact id
  cases occupied with
  | free awake _ _ _ =>
    rcases awake p with idle | trying
    · rw [mine] at idle
      contradiction
    · rw [mine] at trying
      contradiction
  | op r theirs others _ _ =>
    rw [← Occupied.other others busy, mine] at theirs
    contradiction
  | commit r stage' code' theirs others outstanding committing erased =>
    have same := Occupied.other others busy
    rw [← same] at others
    rw [← same, mine] at theirs
    cases theirs
    exact ⟨outstanding, committing, others, erased⟩

/-- With no operation open and no commit in progress nobody sleeps, and the log is short. -/
theorem Occupied.free_of (occupied : Occupied s) (outstanding : s.log.outstanding ≤ 0)
    (committing : s.log.committing = false) :
    (∀ q, s.phase q = .idle ∨ s.phase q = .trying) ∧ s.log.outstanding = 0 ∧
      s.log.lh.length ≤ MAXOPBLOCKS := by
  cases occupied with
  | free awake zero _ short => exact ⟨awake, zero, short⟩
  | op r _ _ one _ => omega
  | commit r _ _ _ _ _ busy _ =>
    rw [committing] at busy
    contradiction

/-- The start is free. -/
theorem WaitState.Initial.occupied (initial : s.Initial) : Occupied s := by
  refine .free (fun p => .inl (initial.idle p)) initial.outstanding initial.committing ?_
  rw [initial.empty]
  exact Nat.zero_le _

end Occupancy

/-! ## Steps -/

section Steps

variable [DecidableEq π] {s t : WaitState π} {p : π}

/-- The phase a process enters. -/
@[simp] theorem WaitState.enter_phase (s : WaitState π) (p : π) (log : Log) (phase : WaitPhase) :
    (s.enter p log phase).phase p = phase := Function.update_self _ _ _

/-- The phases of the others. -/
theorem WaitState.enter_other {q : π} (s : WaitState π) (log : Log) (phase : WaitPhase) (other : q ≠ p) :
    (s.enter p log phase).phase q = s.phase q := Function.update_of_ne other _ _

/-- The others stay outside when a process changes what it is doing. -/
theorem WaitState.enter_outside {log : Log} {phase : WaitPhase}
    (others : ∀ q, q ≠ p → (s.phase q).Outside) :
    ∀ q, q ≠ p → ((s.enter p log phase).phase q).Outside := by
  intro q other
  rw [WaitState.enter_other _ _ _ other]
  exact others q other

/-- After the wakeup at the end of an operation or a commit nobody sleeps. -/
theorem WaitState.wakeup_awake {log : Log} (others : ∀ q, q ≠ p → (s.phase q).Outside) (q : π) :
    (s.enter p log .idle).wakeup.phase q = .idle ∨ (s.enter p log .idle).wakeup.phase q = .trying := by
  change ((s.enter p log .idle).phase q).woken = .idle ∨ ((s.enter p log .idle).phase q).woken = .trying
  by_cases same : q = p
  · rw [same, WaitState.enter_phase]
    exact .inl rfl
  · rw [WaitState.enter_other _ _ _ same]
    have outside := others q same
    cases phase : s.phase q with
    | idle => exact .inl rfl
    | trying => exact .inr rfl
    | asleep => exact .inr rfl
    | inOp =>
      rw [phase] at outside
      exact outside.elim
    | commit stage code =>
      rw [phase] at outside
      exact outside.elim

omit [DecidableEq π] in
/-- The phases stay and the log grows through `log_write` only. -/
theorem Occupied.request (occupied : Occupied s) (phases : t.phase = s.phase)
    (log : t.log = s.log ∨ ∃ blockno, s.log.write blockno = .ok t.log) : Occupied t := by
  have counters : t.log.outstanding = s.log.outstanding ∧ t.log.committing = s.log.committing ∧
      (t.log.lh = s.log.lh ∨ 1 ≤ s.log.outstanding) := by
    rcases log with same | ⟨blockno, accepted⟩
    · rw [same]
      exact ⟨rfl, rfl, .inl rfl⟩
    · obtain ⟨_, _, opened, recorded⟩ := Log.write_ok accepted
      rw [recorded]
      exact ⟨rfl, rfl, .inr opened⟩
  obtain ⟨outstandings, committings, lh⟩ := counters
  cases occupied with
  | free awake outstanding committing short =>
    have kept := lh.resolve_right (by omega)
    refine .free ?_ (outstandings.trans outstanding) (committings.trans committing) ?_
    · rw [phases]
      exact awake
    · rw [kept]
      exact short
  | op q mine others outstanding committing =>
    refine .op q ?_ ?_ (outstandings.trans outstanding) (committings.trans committing)
    · rw [phases]
      exact mine
    · rw [phases]
      exact others
  | commit q stage code mine others outstanding committing erased =>
    have kept := lh.resolve_right (by omega)
    refine .commit q stage code ?_ ?_ (outstandings.trans outstanding) (committings.trans committing) ?_
    · rw [phases]
      exact mine
    · rw [phases]
      exact others
    · rw [kept]
      exact erased

/-- A process outside moves to where it is still outside, to sleep only if it is attended to. -/
theorem Occupied.move (occupied : Occupied s) {phase : WaitPhase} (before : (s.phase p).Outside)
    (after : phase.Outside)
    (attended : phase = .asleep → 0 < s.log.outstanding ∨ s.log.committing = true) :
    Occupied (s.enter p s.log phase) := by
  have stay : ∀ r, ¬(s.phase r).Outside → (s.enter p s.log phase).phase r = s.phase r := by
    intro r busy
    apply WaitState.enter_other
    rintro rfl
    exact busy before
  have others : ∀ r, (∀ q, q ≠ r → (s.phase q).Outside) →
      ∀ q, q ≠ r → ((s.enter p s.log phase).phase q).Outside := by
    intro r outside q other
    by_cases same : q = p
    · rw [same, WaitState.enter_phase]
      exact after
    · rw [WaitState.enter_other _ _ _ same]
      exact outside q other
  cases occupied with
  | free awake outstanding committing short =>
    refine .free ?_ outstanding committing short
    intro q
    by_cases same : q = p
    · rw [same, WaitState.enter_phase]
      cases phase with
      | idle => exact .inl rfl
      | trying => exact .inr rfl
      | asleep =>
        rcases attended rfl with opened | busy
        · omega
        · rw [committing] at busy
          contradiction
      | inOp => exact after.elim
      | commit stage code => exact after.elim
    · rw [WaitState.enter_other _ _ _ same]
      exact awake q
  | op q mine outside outstanding committing =>
    refine .op q ?_ (others q outside) outstanding committing
    rw [stay q (by rw [mine]; exact id)]
    exact mine
  | commit q stage code mine outside outstanding committing erased =>
    refine .commit q stage code ?_ (others q outside) outstanding committing erased
    rw [stay q (by rw [mine]; exact id)]
    exact mine

/-- One pass of the loop of `begin_op`. -/
theorem Occupied.pass (occupied : Occupied s) (trying : s.phase p = .trying)
    (fed : ¬Starved s.machine) : Occupied (s.pass p) := by
  unfold WaitState.pass
  cases admitted : s.machine.beginOp with
  | some machine =>
    obtain ⟨log, began, rfl⟩ := Option.map_eq_some_iff.mp admitted
    obtain ⟨committing, closed, _, rfl⟩ := Log.beginOp_some began
    obtain ⟨awake, zero, _⟩ := occupied.free_of closed committing
    refine .op p (WaitState.enter_phase _ _ _ _) (WaitState.enter_outside ?_) ?_ committing
    · intro q _
      rcases awake q with idle | trying
      · rw [idle]
        exact trivial
      · rw [trying]
        exact trivial
    · change s.log.outstanding + 1 = 1
      omega
  | none =>
    refine occupied.move (by rw [trying]; exact trivial) trivial ?_
    intro _
    by_contra unattended
    rw [not_or, Bool.not_eq_true] at unattended
    obtain ⟨closed, committing⟩ := unattended
    obtain ⟨_, zero, short⟩ := occupied.free_of (Int.not_lt.mp closed) committing
    have refused := Option.map_eq_none_iff.mp admitted
    cases full : s.machine.cache.isBufFull with
    | true => exact fed ⟨zero, committing, full⟩
    | false =>
      rw [full, Log.beginOp_room committing zero short] at refused
      contradiction

/-- The locked part of `end_op`. -/
theorem Occupied.endOp (occupied : Occupied s) (mine : s.phase p = .inOp) {bufFull doCommit : Bool}
    {log : Log} (ended : s.log.endOp bufFull = .ok (log, doCommit)) :
    Occupied (if doCommit then s.enter p log (.commit .test (.done ()))
      else (s.enter p log .idle).wakeup) := by
  obtain ⟨outstanding, committing, others⟩ := occupied.inOp mine
  obtain ⟨doCommit', result, short⟩ := Log.endOp_last committing outstanding bufFull
  rw [ended] at result
  cases result
  cases doCommit with
  | true =>
    exact .commit p .test _ (WaitState.enter_phase _ _ _ _) (WaitState.enter_outside others) rfl rfl False.elim
  | false => exact .free (WaitState.wakeup_awake others) rfl rfl (short rfl)

/-- A request of a commit. -/
theorem Occupied.commitRequest (occupied : Occupied s) {stage : CommitStage} {code code' : Kernel Unit}
    (mine : s.phase p = .commit stage code) {machine : Machine π}
    (log : machine.log = s.log ∨ ∃ blockno, s.log.write blockno = .ok machine.log) :
    Occupied ({ s with machine }.enter p machine.log (.commit stage code')) := by
  obtain ⟨outstanding, committing, others, erased⟩ := occupied.committing mine
  have kept : machine.log = s.log := by
    rcases log with same | ⟨blockno, accepted⟩
    · exact same
    · have opened := (Log.write_ok accepted).2.2.1
      omega
  refine .commit p stage code' (WaitState.enter_phase _ _ _ _) ?_ ?_ ?_ ?_
  · exact WaitState.enter_outside (s := { s with machine }) others
  · change machine.log.outstanding = 0
    rw [kept]
    exact outstanding
  · change machine.log.committing = true
    rw [kept]
    exact committing
  · change stage.Erased → machine.log.lh = []
    rw [kept]
    exact erased

/-- The next stage of a commit. -/
theorem Occupied.commitStage (occupied : Occupied s) {stage : CommitStage} {code : Kernel Unit}
    (mine : s.phase p = .commit stage code) :
    Occupied (match stage.next s.log with
      | some later => s.enter p (stage.log s.log) (.commit later (later.code (stage.log s.log)))
      | none => (s.enter p (stage.log s.log) .idle).wakeup) := by
  obtain ⟨outstanding, committing, others, erased⟩ := occupied.committing mine
  have later : ∀ (next : CommitStage), stage.log s.log = s.log ∨ stage.log s.log = s.log.clear →
      (next.Erased → (stage.log s.log).lh = []) →
      Occupied (s.enter p (stage.log s.log) (.commit next (next.code (stage.log s.log)))) := by
    intro next log empty
    refine .commit p next _ (WaitState.enter_phase _ _ _ _) (WaitState.enter_outside others) ?_ ?_ empty
    · change (stage.log s.log).outstanding = 0
      rcases log with same | cleared
      · rw [same]
        exact outstanding
      · rw [cleared]
        exact outstanding
    · change (stage.log s.log).committing = true
      rcases log with same | cleared
      · rw [same]
        exact committing
      · rw [cleared]
        exact committing
  cases stage with
  | test =>
    by_cases nonempty : 0 < s.log.lh.length
    · simp only [CommitStage.next, if_pos nonempty]
      exact later .writeLog (.inl rfl) False.elim
    · simp only [CommitStage.next, if_neg nonempty]
      exact later .finish (.inl rfl) fun _ => List.eq_nil_of_length_eq_zero (Nat.eq_zero_of_not_pos nonempty)
  | writeLog => exact later .writeHead (.inl rfl) False.elim
  | writeHead => exact later .installTrans (.inl rfl) False.elim
  | installTrans => exact later .clear (.inl rfl) False.elim
  | clear => exact later .eraseHead (.inr rfl) fun _ => rfl
  | eraseHead => exact later .finish (.inl rfl) fun _ => erased trivial
  | finish =>
    refine .free (WaitState.wakeup_awake others) outstanding rfl ?_
    change s.log.lh.length ≤ MAXOPBLOCKS
    rw [erased trivial]
    exact Nat.zero_le _

/-- The data that `bread` returns to a commit. -/
theorem Occupied.returned (occupied : Occupied s) (data : Block) : Occupied (s.returned p data) := by
  unfold WaitState.returned
  split
  · rename_i mine
    have same : s.machine.log = s.log ∨ ∃ blockno, s.log.write blockno = .ok s.machine.log := .inl rfl
    exact occupied.commitRequest mine same
  · exact occupied

/-- A commit goes on. -/
theorem Occupied.advance (occupied : Occupied s) {stage : CommitStage} {code : Kernel Unit}
    (mine : s.phase p = .commit stage code) (taken : s.advance p stage code = some t) : Occupied t := by
  unfold WaitState.advance at taken
  split at taken
  · contradiction
  · split at taken
    · rename_i answered
      cases taken
      refine occupied.commitRequest mine ?_
      rcases Machine.handler_log answered with same | ⟨blockno, _, accepted⟩
      · exact .inl same
      · exact .inr ⟨blockno, accepted⟩
    · contradiction
  · contradiction
  · have next := occupied.commitStage mine
    split at taken
    · rename_i later
      cases taken
      rw [later] at next
      exact next
    · rename_i later
      cases taken
      rw [later] at next
      exact next

/-- A step that tests no starved machine keeps the invariant. -/
theorem Occupied.step (occupied : Occupied s) {event : WaitEvent π} (taken : attentiveStep s event t) :
    Occupied t := by
  obtain ⟨taken, fed⟩ := taken
  cases event with
  | call p =>
    simp only [WaitState.step] at taken
    split at taken
    · rename_i idle _
      cases taken
      exact occupied.move (by rw [idle]; exact trivial) trivial nofun
    · contradiction
  | test p =>
    simp only [WaitState.step] at taken
    split at taken
    · rename_i trying
      cases taken
      exact occupied.pass trying (fed p rfl)
    · contradiction
  | bget p blockno =>
    simp only [WaitState.step] at taken
    split at taken
    · split at taken
      · cases taken
        exact occupied.request rfl (.inl rfl)
      · contradiction
    · contradiction
  | acquire p =>
    simp only [WaitState.step] at taken
    split at taken
    · obtain ⟨cache, _, rfl⟩ := Option.map_eq_some_iff.mp taken
      exact occupied.request rfl (.inl rfl)
    · contradiction
  | fill p =>
    simp only [WaitState.step] at taken
    split at taken
    · split at taken
      · rename_i machine filled
        cases taken
        have kept : Occupied { s with machine, borrow := Function.update s.borrow p .none } :=
          occupied.request rfl (.inl (Machine.fill_log filled))
        exact kept.returned _
      · contradiction
    · contradiction
  | request p op =>
    simp only [WaitState.step] at taken
    split at taken
    · contradiction
    · split at taken
      · rename_i answered
        cases taken
        refine occupied.request rfl ?_
        rcases Machine.handler_log answered with same | ⟨blockno, _, accepted⟩
        · exact .inl same
        · exact .inr ⟨blockno, accepted⟩
      · contradiction
    · contradiction
  | endOp p =>
    simp only [WaitState.step] at taken
    split at taken
    · rename_i mine _
      split at taken
      · rename_i ended
        cases taken
        exact occupied.endOp mine ended
      · rename_i ended
        cases taken
        exact occupied.endOp mine ended
      · contradiction
    · contradiction
  | commit p =>
    simp only [WaitState.step] at taken
    split at taken
    · rename_i mine _
      exact occupied.advance mine taken
    · contradiction

/-- A pass that tests a starved machine leaves the process asleep and unattended. -/
theorem WaitState.pass_starved (starved : Starved s.machine) : ¬Attended (s.pass p) := by
  obtain ⟨outstanding, committing, full⟩ := starved
  have refused : s.machine.beginOp = none := by
    unfold Machine.beginOp Log.beginOp
    rw [committing, full, if_neg Bool.false_ne_true, if_pos (.inr (.inl rfl))]
    rfl
  unfold WaitState.pass
  rw [refused]
  intro attended
  rcases attended.awaited p (WaitState.enter_phase _ _ _ _) with opened | busy
  · exact absurd outstanding (Int.ne_of_gt opened)
  · change s.log.committing = true at busy
    rw [committing] at busy
    contradiction

/-- In every run in which `begin_op` does not test a starved machine every sleeper is attended
to; and a test after such a run leaves a sleeper unattended exactly if the machine is starved. -/
theorem sleepers_attended {events : List (WaitEvent π)} (initial : s.Initial)
    (run : Run attentiveStep s events t) :
    Attended t ∧ ∀ p u, t.step (.test p) = some u → (Attended u ↔ ¬Starved t.machine) := by
  have occupied := run.invariant Occupied (fun _ _ _ before taken => before.step taken) initial.occupied
  refine ⟨occupied.attended, fun p u taken => ⟨?_, ?_⟩⟩
  · intro attended starved
    simp only [WaitState.step] at taken
    split at taken
    · cases taken
      exact WaitState.pass_starved starved attended
    · contradiction
  · intro fed
    exact (occupied.step ⟨taken, fun _ _ => fed⟩).attended

end Steps

/-! ## A sleeper that nobody wakes -/

/-- Twenty processes, an empty log in the area of `mkfs` and a zero disk. -/
def twentyProcesses : WaitState (Fin 20) where
  machine := ⟨binit, fun _ => Block.zero, ⟨2, LOGSIZE, 0, false, []⟩⟩
  phase _ := .idle
  borrow _ := .none

/-- The start is initial. -/
theorem twentyProcesses_initial : twentyProcesses.Initial where
  idle _ := rfl
  empty := rfl
  outstanding := rfl
  committing := rfl

/-- Processes 0 to 18 each read a block of their own, process 19 calls `begin_op`, and the others
release their buffers. -/
def readersAndWriter : List (WaitEvent (Fin 20)) :=
  ((List.finRange 20).take 19).flatMap (fun p => [.bget p (100 + p), .acquire p, .fill p]) ++
    [.call 19, .test 19] ++
    ((List.finRange 20).take 19).map fun p => .request p (.brelse (100 + p))

/-- After the readers have released every buffer, process 19 is still asleep, with no operation
open and no commit in progress. -/
theorem beginOp_stranded :
    ∃ t, Run (fun s event t => s.step event = some t) twentyProcesses readersAndWriter t ∧
      t.phase 19 = .asleep ∧ t.log.outstanding = 0 ∧ t.log.committing = false ∧
      t.machine.cache.isBufFull = false ∧ ¬Attended t := by
  have outcome : ((Run.exec WaitState.step readersAndWriter twentyProcesses).map fun t =>
      ((t.phase 19).sleeps, t.log.outstanding, t.log.committing, t.machine.cache.isBufFull)) = some (true, 0, false, false) := by
    decide +kernel
  obtain ⟨t, executed, summary⟩ := Option.map_eq_some_iff.mp outcome
  rw [Prod.mk.injEq, Prod.mk.injEq, Prod.mk.injEq] at summary
  obtain ⟨sleeping, outstanding, committing, room⟩ := summary
  have asleep := WaitPhase.asleep_of_sleeps sleeping
  refine ⟨t, Run.of_exec executed, asleep, outstanding, committing, room, ?_⟩
  intro attended
  rcases attended.awaited 19 asleep with opened | busy
  · exact absurd outstanding (Int.ne_of_gt opened)
  · exact absurd (committing.symm.trans busy) Bool.false_ne_true

/-- Process 1 waits for the operation of process 0 while process 2 holds a buffer. -/
theorem sleepers_attended_three :
    ∃ t, Run attentiveStep twentyProcesses
        [.bget 2 100, .acquire 2, .call 0, .test 0, .call 1, .test 1] t ∧ Attended t := by
  have fed : ∀ {s : WaitState (Fin 20)} {p q : Fin 20}, s.machine.cache.isBufFull = false →
      WaitEvent.test p = .test q → ¬Starved s.machine := by
    intro s p q room _ starved
    rw [starved.2.2] at room
    contradiction
  have run : ∃ t, Run attentiveStep twentyProcesses
      [.bget 2 100, .acquire 2, .call 0, .test 0, .call 1, .test 1] t := by
    refine ⟨_, .cons ⟨rfl, nofun⟩ (.cons ⟨rfl, nofun⟩ (.cons ⟨rfl, nofun⟩
      (.cons ⟨rfl, fun _ => fed ?_⟩ (.cons ⟨rfl, nofun⟩ (.cons ⟨rfl, fun _ => fed ?_⟩ (.nil _))))))⟩
    · decide +kernel
    · decide +kernel
  obtain ⟨t, run⟩ := run
  exact ⟨t, run, (sleepers_attended twentyProcesses_initial run).1⟩

end Xv6
