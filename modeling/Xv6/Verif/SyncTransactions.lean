import Xv6.Transactions
import Xv6.Verif.Recovery

/-!
# `sync` and transactions

`sync` sets `log.committing` and commits without taking the lock and without waiting for
`log.outstanding` to be zero. Where every `sync` begins with no operation open and no commit in
progress, at most one process at a time is between `begin_op` and the end of a commit. Then a
header covers updates of ended operations only, no recorded update is dropped before it is in
its home block, and `end_op` never finds a commit in progress.
-/

namespace Xv6

open Program Writes

variable {π : Type}

/-- What is promised of transactions in a state. -/
structure Respects (s : TxState π) : Prop where
  /-- A header that is about to be written with `n > 0` covers no update of an open operation. -/
  covered : ∀ p, s.phase p = .commit .writeHead ∨ s.phase p = .commit .eraseHead →
    ∀ q logged blockno, s.phase q = .inOp logged → blockno ∈ logged → blockno ∉ s.log.lh
  /-- What is about to be dropped from the log is in its home block. -/
  installed : ∀ p, s.phase p = .commit .clear →
    ∀ blockno ∈ s.log.lh, s.store.disk blockno = s.recorded blockno
  /-- `end_op` does not find a commit in progress. -/
  quiet : ∀ p logged bufFull, s.phase p = .inOp logged →
    s.log.endOp bufFull ≠ .error (.panic "log.committing")

/-- No process uses the log, which is empty. -/
structure TxState.Initial (s : TxState π) : Prop where
  idle : ∀ p, s.phase p = .idle
  empty : s.log.lh = []
  /-- The log area has a header block. -/
  size : 0 < s.log.size
  outstanding : s.log.outstanding = 0
  committing : s.log.committing = false

/-- A step, where `sync` begins only while no operation is open and no commit is in progress. -/
def exclusiveStep [DecidableEq π] (s : TxState π) (event : TxEvent π) (t : TxState π) : Prop :=
  s.step event = some t ∧
    ∀ p, event = .sync p → s.log.outstanding = 0 ∧ s.log.committing = false

/-- What holds before each step of a commit. -/
def Staged (s : TxState π) : CommitStage → Prop
  | .test => True
  | .writeLog => True
  | .writeHead => ∀ i (inside : i < s.log.lh.length),
      s.store.blocks (s.log.start + (0 + i) + 1) = s.recorded s.log.lh[i]
  | .installTrans => ∀ i (inside : i < s.log.lh.length),
      s.store.blocks (s.log.start + (0 + i) + 1) = s.recorded s.log.lh[i]
  | .clear => ∀ blockno ∈ s.log.lh, s.store.disk blockno = s.recorded blockno
  | .eraseHead => s.log.lh = []
  | .finish => True

/-- Who uses the log: nobody, one operation, or one commit. -/
inductive Turn (s : TxState π) : Prop where
  /-- Nobody. -/
  | free (idle : ∀ p, s.phase p = .idle) (outstanding : s.log.outstanding = 0)
      (committing : s.log.committing = false)
  /-- One operation. -/
  | op (p : π) (logged : List Nat) (mine : s.phase p = .inOp logged)
      (others : ∀ q, q ≠ p → s.phase q = .idle) (outstanding : s.log.outstanding = 1)
      (committing : s.log.committing = false)
  /-- One commit. -/
  | commit (p : π) (stage : CommitStage) (mine : s.phase p = .commit stage)
      (others : ∀ q, q ≠ p → s.phase q = .idle) (outstanding : s.log.outstanding = 0)
      (committing : s.log.committing = true) (staged : Staged s stage)

/-- The invariant. -/
structure Orderly (s : TxState π) : Prop where
  /-- The logged blocks have room and lie outside the log area. -/
  placed : s.log.Placed
  /-- A logged block has the contents that were recorded. -/
  current : ∀ blockno ∈ s.log.lh, s.store.blocks blockno = s.recorded blockno
  turn : Turn s

section Phases

variable {s : TxState π} {p q : π}

/-- The phase a process enters. -/
@[simp] theorem TxState.enter_phase [DecidableEq π] (s : TxState π) (p : π) (log : Log) (phase : TxPhase) :
    (s.enter p log phase).phase p = phase := Function.update_self _ _ _

/-- The phases of the others. -/
theorem TxState.enter_other [DecidableEq π] (s : TxState π) (log : Log) (phase : TxPhase) (other : q ≠ p) :
    (s.enter p log phase).phase q = s.phase q := Function.update_of_ne other _ _

/-- A process that is not idle has its turn, and the others are idle. -/
theorem Turn.others (turn : Turn s) (busy : s.phase p ≠ .idle) (other : q ≠ p) :
    s.phase q = .idle := by
  cases turn with
  | free idle _ _ => exact idle q
  | op r _ _ others _ _ =>
    have mine : p = r := by
      by_contra distinct
      exact busy (others p distinct)
    exact others q (by rw [← mine]; exact other)
  | commit r _ _ others _ _ _ =>
    have mine : p = r := by
      by_contra distinct
      exact busy (others p distinct)
    exact others q (by rw [← mine]; exact other)

/-- The counters while an operation is open. -/
theorem Turn.inOp (turn : Turn s) {logged : List Nat} (phase : s.phase p = .inOp logged) :
    s.log.outstanding = 1 ∧ s.log.committing = false := by
  cases turn with
  | free idle _ _ =>
    rw [idle p] at phase
    contradiction
  | op _ _ _ _ outstanding committing => exact ⟨outstanding, committing⟩
  | commit r _ mine others _ _ _ =>
    by_cases same : p = r
    · rw [same, mine] at phase
      contradiction
    · rw [others p same] at phase
      contradiction

/-- The counters and the stage during a commit. -/
theorem Turn.committing (turn : Turn s) {stage : CommitStage} (phase : s.phase p = .commit stage) :
    s.log.outstanding = 0 ∧ s.log.committing = true ∧ Staged s stage := by
  cases turn with
  | free idle _ _ =>
    rw [idle p] at phase
    contradiction
  | op r _ mine others _ _ =>
    by_cases same : p = r
    · rw [same, mine] at phase
      contradiction
    · rw [others p same] at phase
      contradiction
  | commit r _ mine others outstanding committing staged =>
    by_cases same : p = r
    · rw [same, mine] at phase
      cases phase
      exact ⟨outstanding, committing, staged⟩
    · rw [others p same] at phase
      contradiction

/-- While no operation is open and no commit is in progress everybody is idle. -/
theorem Turn.free_of (turn : Turn s) (outstanding : s.log.outstanding ≤ 0)
    (committing : s.log.committing = false) :
    (∀ p, s.phase p = .idle) ∧ s.log.outstanding = 0 := by
  cases turn with
  | free idle zero _ => exact ⟨idle, zero⟩
  | op _ _ _ _ one _ => omega
  | commit _ _ _ _ _ busy _ =>
    rw [committing] at busy
    contradiction

/-- An orderly state keeps what is promised. -/
theorem Orderly.respects (orderly : Orderly s) : Respects s where
  covered p writing q logged blockno phase _ := by
    exfalso
    have open_ := (orderly.turn.inOp phase).2
    rcases writing with head | head
    · have busy := (orderly.turn.committing head).2.1
      rw [open_] at busy
      contradiction
    · have busy := (orderly.turn.committing head).2.1
      rw [open_] at busy
      contradiction
  installed p clearing := (orderly.turn.committing clearing).2.2
  quiet p logged bufFull phase := by
    have idle := (orderly.turn.inOp phase).2
    intro panics
    unfold Log.endOp at panics
    simp only [idle] at panics
    split at panics
    · contradiction
    · split at panics <;> contradiction

/-- Writes inside the log area leave the logged blocks as recorded. -/
theorem Orderly.outside_kept (orderly : Orderly s) {writes : List (Nat × Block)}
    (inside : ∀ write ∈ writes, s.log.Area write.1) :
    ∀ b ∈ s.log.lh, apply s.store.blocks writes b = s.recorded b := by
  intro b member
  have apart : ∀ write ∈ writes, write.1 ≠ b := by
    rintro write written rfl
    exact orderly.placed.outside _ member (inside write written)
  rw [apply_other apart]
  exact orderly.current b member

/-- The initial state is orderly. -/
theorem TxState.Initial.orderly (initial : s.Initial) : Orderly s where
  placed := by
    refine ⟨?_, ?_⟩
    · rw [initial.empty]
      exact initial.size
    · rw [initial.empty]
      exact fun _ member => absurd member List.not_mem_nil
  current := by
    rw [initial.empty]
    exact fun _ member => absurd member List.not_mem_nil
  turn := .free initial.idle initial.outstanding initial.committing

end Phases

section Steps

variable [DecidableEq π] {s t : TxState π} {p : π}

/-- A change of the counters and of one phase. -/
theorem Orderly.enter (orderly : Orderly s) {log : Log} {phase : TxPhase} (start : log.start = s.log.start)
    (size : log.size = s.log.size) (lh : log.lh = s.log.lh) (turn : Turn (s.enter p log phase)) :
    Orderly (s.enter p log phase) where
  placed := orderly.placed.congr start size lh
  current := by
    change ∀ blockno ∈ log.lh, s.store.blocks blockno = s.recorded blockno
    rw [lh]
    exact orderly.current
  turn := turn

/-- `begin_op`. -/
theorem Orderly.beginOp (orderly : Orderly s) {bufFull : Bool} {log : Log}
    (admitted : s.log.beginOp bufFull = some log) : Orderly (s.enter p log (.inOp [])) := by
  obtain ⟨committing, closed, _, rfl⟩ := Log.beginOp_some admitted
  obtain ⟨idle, zero⟩ := orderly.turn.free_of closed committing
  refine orderly.enter rfl rfl rfl (.op p [] ?_ ?_ ?_ committing)
  · exact TxState.enter_phase _ _ _ _
  · intro q other
    rw [TxState.enter_other _ _ _ other]
    exact idle q
  · change s.log.outstanding + 1 = 1
    omega

/-- `end_op`. -/
theorem Orderly.endOp (orderly : Orderly s) {logged : List Nat} (phase : s.phase p = .inOp logged)
    {bufFull doCommit : Bool} {log : Log} (ended : s.log.endOp bufFull = .ok (log, doCommit)) :
    Orderly (s.enter p log (if doCommit then .commit .test else .idle)) := by
  obtain ⟨_, rfl, _⟩ := Log.endOp_ok ended
  have one := (orderly.turn.inOp phase).1
  have busy : s.phase p ≠ .idle := by
    rw [phase]
    exact TxPhase.noConfusion
  have closed : s.log.outstanding - 1 = 0 := by omega
  refine orderly.enter rfl rfl rfl ?_
  cases doCommit with
  | true =>
    refine .commit p .test (TxState.enter_phase _ _ _ _) ?_ closed rfl trivial
    intro q other
    rw [TxState.enter_other _ _ _ other]
    exact orderly.turn.others busy other
  | false =>
    refine .free ?_ closed rfl
    intro q
    by_cases same : q = p
    · rw [same]
      exact TxState.enter_phase _ _ _ _
    · rw [TxState.enter_other _ _ _ same]
      exact orderly.turn.others busy same

/-- `sync` with no operation open and no commit in progress. -/
theorem Orderly.sync (orderly : Orderly s) (closed : s.log.outstanding = 0)
    (committing : s.log.committing = false) :
    Orderly (s.enter p { s.log with committing := true } (.commit .test)) := by
  obtain ⟨idle, _⟩ := orderly.turn.free_of (Int.le_of_eq closed) committing
  refine orderly.enter rfl rfl rfl (.commit p .test ?_ ?_ closed rfl trivial)
  · exact TxState.enter_phase _ _ _ _
  · intro q other
    rw [TxState.enter_other _ _ _ other]
    exact idle q

/-- What the update of one block that returns does to the store. -/
theorem updateBlock_after {store store' : Store} {blockno : Nat} {contents : Block}
    (returned : store.after (updateBlock blockno contents) = some store') :
    ∃ log, store.log.write blockno = .ok log ∧
      store' = (store.modified blockno fun _ => contents).logged blockno log := by
  have spec : wp (Store.handler checked) (updateBlock blockno contents)
      (fun _ t => ∃ log, store.log.write blockno = .ok log ∧
        t = (store.modified blockno fun _ => contents).logged blockno log) (fun _ => True) store := by
    rw [updateBlock, Store.wp_bread, Store.wp_modify, Store.wp_logWrite]
    cases accepted : checked.write (store.modified blockno fun _ => contents).log blockno with
    | error reason => exact trivial
    | ok log => exact (Store.wp_brelse_last (.inl rfl)).mpr ⟨log, accepted, rfl⟩
  unfold Store.after at returned
  split at returned
  · rename_i result
    cases returned
    exact wp_ok spec result
  · contradiction

/-- `log_write` of a block outside the log area. -/
theorem Orderly.logWrite (orderly : Orderly s) {logged : List Nat} (phase : s.phase p = .inOp logged)
    {blockno : Nat} {contents : Block} {store : Store} (outside : ¬s.log.Area blockno)
    (returned : s.store.after (updateBlock blockno contents) = some store) :
    Orderly { store, phase := Function.update s.phase p (.inOp (blockno :: logged)),
              recorded := Function.update s.recorded blockno contents } := by
  obtain ⟨log, accepted, rfl⟩ := updateBlock_after returned
  obtain ⟨_, below, _, rfl⟩ := Log.write_ok accepted
  change s.log.lh.length < s.log.size - 1 at below
  have longer := s.log.record_length blockno
  have busy : s.phase p ≠ .idle := by
    rw [phase]
    exact TxPhase.noConfusion
  obtain ⟨one, committing⟩ := orderly.turn.inOp phase
  refine ⟨⟨?_, ?_⟩, ?_, .op p (blockno :: logged) ?_ ?_ one committing⟩
  · change (s.log.record blockno).lh.length < s.log.size
    omega
  · intro b member
    rcases Log.mem_record.mp member with before | now
    · exact orderly.placed.outside b before
    · rw [now]
      exact outside
  · intro b member
    change Function.update s.store.blocks blockno contents b = Function.update s.recorded blockno contents b
    by_cases same : b = blockno
    · rw [same, Function.update_self, Function.update_self]
    · rw [Function.update_of_ne same, Function.update_of_ne same]
      exact orderly.current b ((Log.mem_record.mp member).resolve_right same)
  · exact Function.update_self _ _ _
  · intro q other
    exact (Function.update_of_ne other _ _).trans (orderly.turn.others busy other)

/-- Code of the log that the specification allows no stop returns as specified. -/
theorem after_spec {α : Type} {store store' : Store} {code : Kernel α} {post : α → Store → Prop}
    (spec : wp (Store.handler checked) code post (fun _ => False) store)
    (returned : store.after code = some store') : ∃ value, post value store' := by
  unfold Store.after at returned
  split at returned
  · rename_i value t result
    cases returned
    exact ⟨value, wp_ok spec result⟩
  · contradiction

/-- A step of the commit that writes blocks to disk and leaves the logged blocks as recorded. -/
theorem Orderly.flushed (orderly : Orderly s) {stage stage' : CommitStage}
    (phase : s.phase p = .commit stage) {store : Store} {writes : List (Nat × Block)}
    (flushed : Flushed s.store store writes)
    (kept : ∀ b ∈ s.log.lh, apply s.store.blocks writes b = s.recorded b)
    (staged : Staged { s with store, phase := Function.update s.phase p (.commit stage') } stage') :
    Orderly { s with store, phase := Function.update s.phase p (.commit stage') } := by
  obtain ⟨closed, committing, _⟩ := orderly.turn.committing phase
  have busy : s.phase p ≠ .idle := by
    rw [phase]
    exact TxPhase.noConfusion
  have same : store.log = s.store.log := flushed.log
  refine ⟨?_, ?_, .commit p stage' ?_ ?_ ?_ ?_ staged⟩
  · change store.log.Placed
    rw [same]
    exact orderly.placed
  · change ∀ b ∈ store.log.lh, store.blocks b = s.recorded b
    rw [same, flushed.blocks]
    exact kept
  · exact Function.update_self _ _ _
  · intro q other
    exact (Function.update_of_ne other _ _).trans (orderly.turn.others busy other)
  · change store.log.outstanding = 0
    rw [same]
    exact closed
  · change store.log.committing = true
    rw [same]
    exact committing

omit [DecidableEq π] in
/-- The copies are in place after a step that leaves the log alone. -/
theorem staged_copies {store : Store} {phase : π → TxPhase} (same : store.log = s.log)
    (copies : ∀ i (inside : i < s.log.lh.length),
      store.blocks (s.log.start + (0 + i) + 1) = s.recorded s.log.lh[i]) :
    ∀ i (inside : i < store.log.lh.length),
      ({ s with store, phase } : TxState π).store.blocks (store.log.start + (0 + i) + 1) =
        s.recorded store.log.lh[i] := by
  simp only [same]
  exact copies

/-- The next step of a commit. -/
theorem Orderly.advance (orderly : Orderly s) {stage : CommitStage} (phase : s.phase p = .commit stage)
    (taken : s.advance p stage = some t) : Orderly t := by
  obtain ⟨closed, committing, staged⟩ := orderly.turn.committing phase
  have busy : s.phase p ≠ .idle := by
    rw [phase]
    exact TxPhase.noConfusion
  have header : ∀ lh, ∀ b ∈ s.log.lh,
      apply s.store.blocks [(s.log.start, putHeader lh (s.store.blocks s.log.start))] b = s.recorded b := by
    intro lh
    apply orderly.outside_kept
    intro write member
    rw [List.mem_singleton.mp member]
    exact orderly.placed.start_area
  have others : ∀ (log : Log) (phase : TxPhase) q, q ≠ p → (s.enter p log phase).phase q = .idle := by
    intro log phase q other
    rw [TxState.enter_other _ _ _ other]
    exact orderly.turn.others busy other
  simp only [TxState.advance] at taken
  obtain ⟨store, returned, rfl⟩ := Option.map_eq_some_iff.mp taken
  cases stage with
  | test =>
    cases returned
    by_cases nonempty : 0 < s.log.lh.length
    · simp only [CommitStage.next, if_pos nonempty]
      exact orderly.enter rfl rfl rfl (.commit p .writeLog (TxState.enter_phase _ _ _ _) (others _ _)
        closed committing trivial)
    · simp only [CommitStage.next, if_neg nonempty]
      exact orderly.enter rfl rfl rfl (.commit p .finish (TxState.enter_phase _ _ _ _) (others _ _)
        closed committing trivial)
  | writeLog =>
    obtain ⟨_, flushed⟩ := after_spec (writeLogFrom_spec (.inl rfl) orderly.placed.apart) returned
    have inside : ∀ write ∈ logWrites s.store.blocks s.log.start 0 s.log.lh, s.log.Area write.1 := by
      intro write member
      have bounds := logWrites_block member
      have room := orderly.placed.room
      unfold Log.Area
      omega
    refine orderly.flushed phase flushed (orderly.outside_kept inside) ?_
    apply staged_copies flushed.log
    intro i bound
    rw [flushed.blocks, apply_logWrites bound]
    exact orderly.current _ (List.getElem_mem bound)
  | writeHead =>
    obtain ⟨_, flushed⟩ := after_spec (writeHead_spec (.inl rfl) s.log) returned
    refine orderly.flushed phase flushed (header s.log.lh) ?_
    apply staged_copies flushed.log
    intro i bound
    rw [flushed.blocks]
    refine (Function.update_of_ne (by omega) _ _).trans ?_
    exact staged i bound
  | installTrans =>
    obtain ⟨_, flushed⟩ := after_spec (installFrom_spec (.inl rfl) orderly.placed.apart) returned
    rw [homeWrites_eq staged] at flushed
    have writes : ∀ b, ∀ write ∈ s.log.lh.map (fun b => (b, s.recorded b)), write.1 = b →
        write.2 = s.recorded b := by
      intro b write member here
      obtain ⟨home, _, rfl⟩ := List.mem_map.mp member
      rw [← here]
    have named : ∀ b ∈ s.log.lh, ¬∀ write ∈ s.log.lh.map (fun b => (b, s.recorded b)), write.1 ≠ b :=
      fun b member apart => apart _ (List.mem_map_of_mem member) rfl
    have home : ∀ memory : Nat → Block, ∀ b ∈ s.log.lh,
        apply memory (s.log.lh.map fun b => (b, s.recorded b)) b = s.recorded b := by
      intro memory b member
      rcases apply_same (writes b) with stored | ⟨_, apart⟩
      · exact stored
      · exact absurd apart (named b member)
    refine orderly.flushed phase flushed (home _) ?_
    have same : store.log = s.log := flushed.log
    intro b member
    change b ∈ store.log.lh at member
    change store.disk b = s.recorded b
    rw [same] at member
    rw [flushed.disk]
    exact home _ b member
  | clear =>
    cases returned
    refine ⟨⟨?_, fun b member => absurd member List.not_mem_nil⟩,
      fun b member => absurd member List.not_mem_nil,
      .commit p _ (TxState.enter_phase _ _ _ _) (others _ _) closed committing rfl⟩
    have room := orderly.placed.room
    exact Nat.lt_of_le_of_lt (Nat.zero_le _) room
  | eraseHead =>
    obtain ⟨_, flushed⟩ := after_spec (writeHead_spec (.inl rfl) s.log) returned
    exact orderly.flushed phase flushed (header s.log.lh) trivial
  | finish =>
    cases returned
    refine orderly.enter rfl rfl rfl (.free ?_ closed rfl)
    intro q
    by_cases same : q = p
    · rw [same]
      exact TxState.enter_phase _ _ _ _
    · exact others _ _ q same

/-- A step in which `sync` begins alone keeps the invariant. -/
theorem Orderly.step (orderly : Orderly s) {event : TxEvent π} (taken : exclusiveStep s event t) :
    Orderly t := by
  obtain ⟨taken, alone⟩ := taken
  cases event with
  | beginOp p bufFull =>
    simp only [TxState.step] at taken
    split at taken
    · obtain ⟨log, admitted, rfl⟩ := Option.map_eq_some_iff.mp taken
      exact orderly.beginOp admitted
    · contradiction
  | logWrite p blockno contents =>
    simp only [TxState.step] at taken
    split at taken
    · rename_i logged phase
      split at taken
      · contradiction
      · rename_i outside
        obtain ⟨store, returned, rfl⟩ := Option.map_eq_some_iff.mp taken
        exact orderly.logWrite phase outside returned
    · contradiction
  | endOp p bufFull =>
    simp only [TxState.step] at taken
    split at taken
    · rename_i phase
      split at taken
      · rename_i ended
        cases taken
        exact orderly.endOp phase ended
      · contradiction
    · contradiction
  | sync p =>
    obtain ⟨closed, committing⟩ := alone p rfl
    simp only [TxState.step] at taken
    split at taken
    · cases taken
      exact orderly.sync closed committing
    · contradiction
  | advance p =>
    simp only [TxState.step] at taken
    split at taken
    · rename_i phase
      exact orderly.advance phase taken
    · contradiction

/-- `sync` respects transactions in every run in which each `sync` begins while no operation is
open and no commit is in progress. -/
theorem sync_respects_transactions {events : List (TxEvent π)} (initial : s.Initial)
    (run : Run exclusiveStep s events t) : Respects t := by
  have orderly := run.invariant Orderly (fun _ _ _ before taken => before.step taken) initial.orderly
  exact orderly.respects

end Steps

/-! ## A `sync` during an operation -/

/-- Two processes, an empty log in the area of `mkfs` and a zero disk. -/
def twoProcesses : TxState (Fin 2) where
  store := Store.boot (fun _ => Block.zero) ⟨2, LOGSIZE, 0, false, []⟩
  phase _ := .idle
  recorded _ := Block.zero

/-- The start is initial. -/
theorem twoProcesses_initial : twoProcesses.Initial where
  idle _ := rfl
  empty := rfl
  size := by decide
  outstanding := rfl
  committing := rfl

/-- Process 0 has logged block 100 and has not called `end_op` when process 1, in `sync`, is
about to write the header that covers the block; and its `end_op` would panic. -/
theorem sync_breaks_open_operation :
    ∃ t, Run (fun s event t => s.step event = some t) twoProcesses
        [.beginOp 0 false, .logWrite 0 100 Block.zero, .sync 1, .advance 1, .advance 1] t ∧
      t.phase 1 = .commit .writeHead ∧ t.phase 0 = .inOp [100] ∧ t.log.lh = [100] ∧
      t.log.endOp false = .error (.panic "log.committing") ∧ ¬Respects t := by
  refine ⟨_, Run.of_exec rfl, rfl, rfl, rfl, rfl, ?_⟩
  intro respects
  exact respects.quiet 0 [100] false rfl rfl

/-- A `sync` between two operations. -/
theorem sync_respects_transactions_two :
    ∃ t, Run exclusiveStep twoProcesses
        [.beginOp 0 false, .logWrite 0 100 Block.zero, .endOp 0 false, .sync 1, .advance 1, .advance 1] t ∧
      Respects t := by
  have run : ∃ t, Run exclusiveStep twoProcesses
      [.beginOp 0 false, .logWrite 0 100 Block.zero, .endOp 0 false, .sync 1, .advance 1, .advance 1] t := by
    refine ⟨_, .cons ⟨rfl, nofun⟩ (.cons ⟨rfl, nofun⟩ (.cons ⟨rfl, nofun⟩
      (.cons ⟨rfl, fun _ _ => ⟨rfl, rfl⟩⟩ (.cons ⟨rfl, nofun⟩ (.cons ⟨rfl, nofun⟩ (.nil _))))))⟩
  obtain ⟨t, run⟩ := run
  exact ⟨t, run, sync_respects_transactions twoProcesses_initial run⟩

end Xv6

