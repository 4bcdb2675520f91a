import Xv6.Verif.Tally
import Xv6.Lib.Runs

/-!
# Capacity of the log and the cache

One process executes file-system operations one after another and reads in between. Each
operation logs at most `MAXOPBLOCKS` distinct blocks, and the process holds at most four buffers
at any moment. `begin_op` admits an operation only while the log has room for two, so neither
the log nor the cache runs out, in operations and in commits alike.
-/

namespace Xv6

open Program

variable {π : Type}

/-- The machine and the distinct blocks that the current operation has logged. -/
structure Session (π : Type) where
  /-- Cache, disk and log. -/
  machine : Machine π
  /-- Blocks passed to `log_write` since `begin_op`. -/
  logged : List Nat

/-- Steps of the process. -/
inductive SessionEvent where
  | beginOp
  /-- A request on a buffer, in an operation or between operations. -/
  | request (op : BufOp)
  /-- `end_op`, with the commit it decides on. -/
  | endOp

/-- The most buffers a process holds at any moment. -/
def maxHeld : Nat := 4

section Steps

variable [DecidableEq π]

/-- The buffers the process holds. -/
def Machine.holds (m : Machine π) (p : π) : Finset (Fin NBUF) :=
  Finset.univ.filter fun i => (m.cache.buf i).holder = some p

/-- The bounds on requests: buffers are held within `maxHeld`, blocks are logged within
`MAXOPBLOCKS`, and `bwrite` is left to the log. -/
def Session.permits (p : π) (s : Session π) : BufOp → Prop
  | .bread _ => (s.machine.holds p).card < maxHeld
  | .modify _ _ => True
  | .logWrite blockno => blockno ∈ s.logged ∨ s.logged.length < MAXOPBLOCKS
  | .bwrite _ => False
  | .brelse _ => True

instance (p : π) (s : Session π) (op : BufOp) : Decidable (s.permits p op) :=
  match op with
  | .bread _ => inferInstanceAs (Decidable (_ < _))
  | .modify _ _ => inferInstanceAs (Decidable True)
  | .logWrite _ => inferInstanceAs (Decidable (_ ∨ _))
  | .bwrite _ => inferInstanceAs (Decidable False)
  | .brelse _ => inferInstanceAs (Decidable True)

/-- The blocks logged after a request. -/
def Session.logs (s : Session π) : BufOp → List Nat
  | .logWrite blockno => if blockno ∈ s.logged then s.logged else s.logged ++ [blockno]
  | _ => s.logged

/-- One step of the process. -/
inductive sessionStep (p : π) : Session π → SessionEvent → Session π → Prop where
  | beginOp {s : Session π} {m : Machine π} :
      s.machine.beginOp = some m → sessionStep p s .beginOp ⟨m, []⟩
  | request {s : Session π} {op : BufOp} {answer : bufSignature.Answer op} {m : Machine π} :
      s.permits p op → Machine.handler p op s.machine = .ok (answer, m) →
        sessionStep p s (.request op) ⟨m, s.logs op⟩
  | endOp {s : Session π} {m : Machine π} :
      0 < s.machine.log.outstanding → s.machine.endOp p = .ok m →
        sessionStep p s .endOp ⟨m, s.logged⟩

end Steps

/-- The start: an empty log in an area of at least `LOGSIZE` blocks and a clean cache that
nobody uses. -/
structure Machine.Fresh (m : Machine π) : Prop where
  wf : m.cache.Wf
  /-- Nobody refers to a buffer. -/
  idle : ∀ i, (m.cache.buf i).holder = none ∧ (m.cache.buf i).refcnt = 0
  /-- No buffer is dirty. -/
  clean : ∀ i, (m.cache.buf i).dirty = false
  /-- The log area has room for a full header. -/
  size : LOGSIZE ≤ m.log.size
  empty : m.log.lh = []
  outstanding : m.log.outstanding = 0
  committing : m.log.committing = false

/-- The load of the log: between operations there is room for two operations, and in an
operation the log has grown by what the operation logged. -/
def Session.Load (s : Session π) : Prop :=
  (s.machine.log.outstanding = 0 ∧ s.machine.log.lh.length ≤ MAXOPBLOCKS) ∨
    (s.machine.log.outstanding = 1 ∧ s.machine.log.lh.length ≤ MAXOPBLOCKS + s.logged.length ∧
      s.logged.length ≤ MAXOPBLOCKS ∧ ∀ b ∈ s.logged, b ∈ s.machine.log.lh)

/-- The invariant between steps. -/
structure Sized (p : π) (s : Session π) : Prop where
  /-- The dirty blocks are the logged ones, and few buffers are held. -/
  tallied : ∃ held : Finset Nat, held.card ≤ maxHeld ∧
    Tallied p ⟨held, s.machine.log.lh.toFinset⟩ s.machine
  nodup : s.machine.log.lh.Nodup
  /-- The log area has room for a full header. -/
  size : LOGSIZE ≤ s.machine.log.size
  committing : s.machine.log.committing = false
  load : s.Load

/-- The reasons that capacity excludes. -/
def Overflow (reason : Stop) : Prop :=
  reason = .panic "bget: no buffers" ∨ reason = .panic "too big a transaction"

/-- A fresh machine has the invariant. -/
theorem Machine.Fresh.sized {m : Machine π} (fresh : m.Fresh) (p : π) : Sized p ⟨m, []⟩ where
  tallied := by
    refine ⟨∅, Nat.zero_le _, fresh.wf, fun i => .inl (fresh.idle i), ?_, ?_, ?_⟩
    · intro b
      constructor
      · exact fun member => absurd member (Finset.notMem_empty b)
      · rintro ⟨i, locked, _⟩
        rw [(fresh.idle i).1] at locked
        contradiction
    · intro i b _
      rw [fresh.clean i, fresh.empty]
      simp
    · intro b member
      rw [fresh.empty] at member
      exact absurd member (Finset.notMem_empty b)
  nodup := by
    rw [fresh.empty]
    exact List.nodup_nil
  size := fresh.size
  committing := fresh.committing
  load := .inl ⟨fresh.outstanding, by rw [fresh.empty]; exact Nat.zero_le _⟩

namespace Sized

variable {p : π} {s : Session π}

/-- No more than two operations' blocks are logged. -/
theorem length_le (sized : Sized p s) : s.machine.log.lh.length ≤ 2 * MAXOPBLOCKS := by
  rcases sized.load with ⟨_, few⟩ | ⟨_, few, bound, _⟩
  · omega
  · omega

/-- There is room in the ledger. -/
theorem room (sized : Sized p s) {held : Finset Nat} (few : held.card ≤ maxHeld) :
    Ledger.Room ⟨held, s.machine.log.lh.toFinset⟩ := by
  have logged := sized.length_le
  have marked := List.toFinset_card_le s.machine.log.lh
  simp only [Ledger.Room, maxHeld, MAXOPBLOCKS, NBUF] at *
  omega

/-- `log_write` does not find the log full. -/
theorem write_reason (sized : Sized p s) {blockno : Nat} {reason : Stop}
    (refused : s.machine.log.write blockno = .error reason) : ¬Overflow reason := by
  have few := sized.length_le
  have size := sized.size
  simp only [MAXOPBLOCKS, LOGSIZE] at few size
  unfold Log.write at refused
  rw [if_neg (by simp only [LOGSIZE, MAXOPBLOCKS]; omega)] at refused
  split at refused
  · cases refused
    unfold Overflow
    decide
  · contradiction

/-- With the log, the logged blocks and the ledger as they were but for the held blocks the
invariant is kept. -/
theorem quiet (sized : Sized p s) {m : Machine π} (log : m.log = s.machine.log) {held : Finset Nat}
    (few : held.card ≤ maxHeld) (tallied : Tallied p ⟨held, s.machine.log.lh.toFinset⟩ m) :
    Sized p ⟨m, s.logged⟩ where
  tallied := by
    refine ⟨held, few, ?_⟩
    rw [log]
    exact tallied
  nodup := by
    rw [log]
    exact sized.nodup
  size := by
    rw [log]
    exact sized.size
  committing := by
    rw [log]
    exact sized.committing
  load := by
    have load := sized.load
    unfold Session.Load at load ⊢
    rw [log]
    exact load

/-- A `log_write` keeps the load within bounds. -/
theorem load_record (sized : Sized p s) {blockno : Nat} {log : Log}
    (accepted : s.machine.log.write blockno = .ok log)
    (permitted : blockno ∈ s.logged ∨ s.logged.length < MAXOPBLOCKS) {m : Machine π} (after : m.log = log) :
    (⟨m, s.logs (.logWrite blockno)⟩ : Session π).Load := by
  obtain ⟨_, _, opened, rfl⟩ := Log.write_ok accepted
  have longer := s.machine.log.record_length blockno
  unfold Session.Load
  rw [after]
  rcases sized.load with ⟨closed, _⟩ | ⟨one, few, bound, recorded⟩
  · omega
  · refine .inr ⟨one, ?_⟩
    by_cases again : blockno ∈ s.logged
    · have absorbed := recorded blockno again
      simp only [Session.logs, again, ↓reduceIte, Log.record, absorbed]
      exact ⟨few, bound, recorded⟩
    · have below : s.logged.length < MAXOPBLOCKS := permitted.resolve_left again
      simp only [Session.logs, again, ↓reduceIte, List.length_append, List.length_singleton]
      refine ⟨by omega, by omega, ?_⟩
      intro b member
      rw [Log.mem_record]
      rcases List.mem_append.mp member with before | now
      · exact .inl (recorded b before)
      · exact .inr (List.mem_singleton.mp now)

/-- `begin_op` keeps the invariant. -/
theorem beginOp (sized : Sized p s) {m : Machine π} (admitted : s.machine.beginOp = some m) :
    Sized p ⟨m, []⟩ := by
  unfold Machine.beginOp at admitted
  cases passed : s.machine.log.beginOp s.machine.cache.isBufFull with
  | none => rw [passed] at admitted; contradiction
  | some log =>
    rw [passed] at admitted
    cases admitted
    obtain ⟨_, closed, _, rfl⟩ := Log.beginOp_some passed
    obtain ⟨held, few, tallied⟩ := sized.tallied
    refine ⟨⟨held, few, tallied.congr rfl⟩, sized.nodup, sized.size, sized.committing, ?_⟩
    rcases sized.load with ⟨zero, room⟩ | ⟨one, _⟩
    · refine .inr ⟨?_, room, Nat.zero_le _, fun b member => absurd member List.not_mem_nil⟩
      change s.machine.log.outstanding + 1 = 1
      omega
    · omega

section Requests

variable [DecidableEq π]

/-- The ledger holds no more blocks than the process holds buffers. -/
theorem held_le {m : Machine π} {l : Ledger} (t : Tallied p l m) : l.held.card ≤ (m.holds p).card := by
  have covered : l.held ⊆ (m.holds p).image fun i => (m.cache.buf i).blockno := by
    intro b member
    obtain ⟨i, locked, cached⟩ := (t.held b).mp member
    have here : i ∈ m.holds p := Finset.mem_filter.mpr ⟨Finset.mem_univ i, locked⟩
    exact Finset.mem_image.mpr ⟨i, here, cached.2⟩
  exact (Finset.card_le_card covered).trans Finset.card_image_le

/-- A request within the bounds keeps the invariant. -/
theorem request (sized : Sized p s) {op : BufOp} {answer : bufSignature.Answer op} {m : Machine π}
    (permitted : s.permits p op) (returned : Machine.handler p op s.machine = .ok (answer, m)) :
    Sized p ⟨m, s.logs op⟩ := by
  obtain ⟨held, few, tallied⟩ := sized.tallied
  have next := tallied.returns (sized.room few) returned
  cases op with
  | bread blockno =>
    have log := Machine.bread_log returned
    have more := Finset.card_insert_le blockno held
    have below : held.card < maxHeld := Nat.lt_of_le_of_lt (held_le tallied) permitted
    have few' : (insert blockno held).card ≤ maxHeld := by omega
    exact sized.quiet log few' next
  | modify blockno update =>
    obtain ⟨i, _, rfl⟩ := Machine.modify_ok returned
    exact sized.quiet rfl few next
  | logWrite blockno =>
    obtain ⟨i, log, _, accepted, rfl⟩ := Machine.logWrite_ok returned
    obtain ⟨_, _, _, rfl⟩ := Log.write_ok accepted
    refine ⟨⟨held, few, ?_⟩, Log.record_nodup sized.nodup blockno, sized.size, sized.committing,
      sized.load_record accepted permitted rfl⟩
    have same : insert blockno s.machine.log.lh.toFinset = (s.machine.log.record blockno).lh.toFinset := by
      ext b
      rw [Finset.mem_insert, List.mem_toFinset, List.mem_toFinset, Log.mem_record, or_comm]
    simp only [Ledger.after, same] at next
    exact next
  | bwrite blockno => exact permitted.elim
  | brelse blockno =>
    obtain ⟨i, _, rfl⟩ := Machine.brelse_ok returned
    have fewer := Finset.card_le_card (Finset.erase_subset blockno held)
    exact sized.quiet rfl (fewer.trans few) next

/-- A request within the bounds is not refused for want of capacity. -/
theorem request_reason (sized : Sized p s) {op : BufOp} {reason : Stop} (permitted : s.permits p op)
    (stopped : Machine.handler p op s.machine = .error reason) : ¬Overflow reason := by
  obtain ⟨held, few, tallied⟩ := sized.tallied
  have refused := tallied.refused (sized.room few) stopped
  unfold Overflow
  rw [not_or]
  cases op with
  | logWrite blockno =>
    rcases refused with ⟨rfl, _⟩ | full
    · exact ⟨Stop.noConfusion, Stop.noConfusion⟩
    · exact not_or.mp (sized.write_reason full)
  | bread blockno => exact Ledger.refused_reason refused fun _ => nofun
  | modify blockno update => exact Ledger.refused_reason refused fun _ => nofun
  | bwrite blockno => exact permitted.elim
  | brelse blockno => exact Ledger.refused_reason refused fun _ => nofun

/-- A commit that `end_op` decides on runs in the cache with the buffers the process holds, and
what it leaves has the invariant. -/
theorem commit (sized : Sized p s) {log : Log}
    (size : log.size = s.machine.log.size) (lh : log.lh = s.machine.log.lh)
    (outstanding : log.outstanding = 0) :
    (∀ m, ({ s.machine with log } : Machine π).commitAndClear p = .ok m → Sized p ⟨m, s.logged⟩) ∧
      ∀ reason, ({ s.machine with log } : Machine π).commitAndClear p = .error reason →
        ¬Overflow reason := by
  obtain ⟨held, few, tallied⟩ := sized.tallied
  have marked := List.toFinset_card_le s.machine.log.lh
  have length := sized.length_le
  have room : held.card + 2 + log.lh.toFinset.card < NBUF := by
    rw [lh]
    simp only [maxHeld, MAXOPBLOCKS, NBUF] at *
    omega
  have begun : Tallied p ⟨held, log.lh.toFinset⟩ ({ s.machine with log } : Machine π) := by
    rw [lh]
    exact tallied.congr rfl
  have run := begun.commit (Finset.Subset.refl _) room False False.elim
  unfold Machine.commitAndClear
  constructor
  · intro m returned
    split at returned
    · contradiction
    · rename_i cleared m' result
      cases returned
      obtain ⟨rfl, held', fewer, after⟩ := wp_ok run result
      refine ⟨⟨held', (Finset.card_le_card fewer).trans few, ?_⟩, List.nodup_nil, ?_, rfl, ?_⟩
      · exact after.congr rfl
      · change LOGSIZE ≤ log.size
        rw [size]
        exact sized.size
      · exact .inl ⟨outstanding, Nat.zero_le _⟩
  · intro reason stopped
    split at stopped
    · rename_i cause result
      cases stopped
      have excluded := (wp_error run result).2
      unfold Overflow
      rw [not_or]
      exact excluded
    · contradiction

/-- `end_op` of an open operation keeps the invariant and does not stop for want of capacity. -/
theorem endOp (sized : Sized p s) (opened : 0 < s.machine.log.outstanding) :
    (∀ m, s.machine.endOp p = .ok m → Sized p ⟨m, s.logged⟩) ∧
      ∀ reason, s.machine.endOp p = .error reason → ¬Overflow reason := by
  have one : s.machine.log.outstanding = 1 := by
    rcases sized.load with ⟨zero, _⟩ | ⟨one, _⟩
    · omega
    · exact one
  unfold Machine.endOp
  cases ended : s.machine.log.endOp s.machine.cache.isBufFull with
  | error reason =>
    refine ⟨fun _ returned => (nomatch returned), ?_⟩
    intro cause stopped
    cases stopped
    unfold Log.endOp at ended
    simp only [sized.committing] at ended
    split at ended
    · contradiction
    · split at ended <;> contradiction
  | ok result =>
    obtain ⟨log, doCommit⟩ := result
    obtain ⟨_, rfl, decided⟩ := Log.endOp_ok ended
    have closed : s.machine.log.outstanding - 1 = 0 := by omega
    cases doCommit with
    | true => exact sized.commit rfl rfl closed
    | false =>
      refine ⟨?_, fun _ stopped => (nomatch stopped)⟩
      intro m returned
      cases returned
      obtain ⟨held, few, tallied⟩ := sized.tallied
      refine ⟨⟨held, few, tallied.congr rfl⟩, sized.nodup, sized.size, rfl, .inl ⟨closed, ?_⟩⟩
      have room : ¬(s.machine.log.outstanding - 1 = 0 ∧
          ({ s.machine.log with outstanding := s.machine.log.outstanding - 1 } : Log).nearlyFull
            s.machine.cache.isBufFull) := fun full => Bool.false_ne_true (decided.mpr full)
      simp only [Log.nearlyFull, closed, true_and, not_or, LOGSIZE, MAXOPBLOCKS] at room
      change s.machine.log.lh.length ≤ MAXOPBLOCKS
      simp only [MAXOPBLOCKS]
      omega

end Requests

end Sized

section Run

variable [DecidableEq π] {p : π} {m : Machine π} {s t : Session π}

/-- Every step keeps the invariant. -/
theorem step_sized {event : SessionEvent} (sized : Sized p s) (step : sessionStep p s event t) :
    Sized p t := by
  cases step with
  | beginOp admitted => exact sized.beginOp admitted
  | request permitted returned => exact sized.request permitted returned
  | endOp opened returned => exact (sized.endOp opened).1 _ returned

/-- Capacity of the log and the cache. In every state of a run from a fresh machine the logged
blocks are distinct and are the dirty ones, and neither a request within the bounds nor `end_op`
with its commit stops for want of a buffer or of room in the log. -/
theorem capacity_suffices {events : List SessionEvent} (fresh : m.Fresh)
    (run : Run (sessionStep p) ⟨m, []⟩ events s) :
    s.machine.log.lh.Nodup ∧
      (∀ i blockno, (s.machine.cache.buf i).caches blockno →
        ((s.machine.cache.buf i).dirty = true ↔ blockno ∈ s.machine.log.lh)) ∧
      (∀ op reason, s.permits p op → Machine.handler p op s.machine = .error reason → ¬Overflow reason) ∧
      ∀ reason, 0 < s.machine.log.outstanding → s.machine.endOp p = .error reason →
        ¬Overflow reason := by
  have sized := run.invariant (Sized p) (fun _ _ _ before step => step_sized before step)
    (fresh.sized p)
  refine ⟨sized.nodup, ?_, ?_, ?_⟩
  · intro i blockno here
    obtain ⟨held, _, tallied⟩ := sized.tallied
    have marked := tallied.dirty i blockno here
    rw [List.mem_toFinset] at marked
    exact marked
  · exact fun op reason permitted stopped => sized.request_reason permitted stopped
  · exact fun reason opened stopped => (sized.endOp opened).2 reason stopped

end Run

/-! ## One operation -/

/-- A machine with an empty cache and an empty log in the area `mkfs` leaves for it. -/
def bootedMachine (disk : Nat → Block) : Machine Unit := ⟨binit, disk, ⟨2, LOGSIZE, 0, false, []⟩⟩

/-- It is fresh. -/
theorem booted_fresh (disk : Nat → Block) : (bootedMachine disk).Fresh where
  wf := binit_wf
  idle _ := ⟨rfl, rfl⟩
  clean _ := rfl
  size := Nat.le_refl _
  empty := rfl
  outstanding := rfl
  committing := rfl

set_option maxRecDepth 4000 in
/-- An operation that logs block 100, and a read after it. -/
theorem capacity_suffices_one :
    ∃ s, Run (sessionStep ()) ⟨bootedMachine fun _ => Block.zero, []⟩
        [.beginOp, .request (.bread 100), .request (.logWrite 100), .request (.brelse 100), .endOp,
          .request (.bread 100)] s ∧
      s.machine.log.lh.Nodup ∧
      ∀ i blockno, (s.machine.cache.buf i).caches blockno →
        ((s.machine.cache.buf i).dirty = true ↔ blockno ∈ s.machine.log.lh) := by
  have run : ∃ s, Run (sessionStep ()) ⟨bootedMachine fun _ => Block.zero, []⟩
      [.beginOp, .request (.bread 100), .request (.logWrite 100), .request (.brelse 100), .endOp,
        .request (.bread 100)] s :=
    ⟨_, .cons (.beginOp rfl) (.cons (.request (by decide +kernel) rfl)
      (.cons (.request (.inr (by decide)) rfl) (.cons (.request trivial rfl)
        (.cons (.endOp (by decide) rfl) (.cons (.request (by decide +kernel) rfl) (.nil _))))))⟩
  obtain ⟨s, run⟩ := run
  have result := capacity_suffices (booted_fresh _) run
  exact ⟨s, run, result.1, result.2.1⟩

end Xv6
