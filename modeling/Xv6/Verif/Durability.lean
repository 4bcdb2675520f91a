import Xv6.Lib.Interruption
import Xv6.Verif.Deferred

/-!
# Durability

Power may fail between calls, in a call, and again while the machine starts. What then survives
is compared with a history: the contents at the last start and the operations since, of which a
first part is known to be on disk. After every failure the contents outside the log area are
those after a first part of the operations, with all of the ones that are known to be on disk.
-/

namespace Xv6

open Program Writes

variable {π : Type}

/-! ## Power failures -/

/-- The machine when it starts: an empty cache and, once `initlog` has read the superblock, the
place of the log. -/
def Machine.boot (disk : Nat → Block) (area : Log) : Machine π := ⟨binit, disk, area.rebooted⟩

/-- `initlog` after `readsb`. -/
def initlog (area : Log) : Kernel Log := recoverFromLog area.rebooted

/-- A computer with or without power. -/
inductive Computer (π : Type) where
  /-- It is running. -/
  | on (m : Machine π)
  /-- Only the disk is left. -/
  | off (disk : Nat → Block)

/-- What happens to the computer. -/
inductive PowerEvent where
  /-- An operation, from `begin_op` to `end_op`. -/
  | op (writes : List (Nat × Block))
  /-- A read between operations, with its answer. -/
  | read (blockno : Nat) (data : Block)
  | sync
  /-- The power fails between calls. -/
  | fail
  /-- The power fails in an operation. -/
  | failOp (writes : List (Nat × Block))
  /-- The power fails in a `sync`. -/
  | failSync
  /-- The machine starts and recovers. -/
  | boot
  /-- The power fails while the machine starts. -/
  | failBoot

section Steps

variable [DecidableEq π]

/-- A machine through which `end_op` passes. -/
def Machine.EndPasses (p : π) (m u : Machine π) : Prop :=
  u = m ∨ ∃ log, m.log.endOp m.cache.isBufFull = .ok (log, true) ∧
    Interrupted (Machine.handler p) (commit log) { m with log } u

/-- A machine through which an operation passes. -/
def Machine.OpPasses (p : π) (writes : List (Nat × Block)) (m u : Machine π) : Prop :=
  u = m ∨ ∃ begun, m.beginOp = some begun ∧
    (Interrupted (Machine.handler p) (writeBlocks writes) begun u ∨
      ∃ written, begun.exec p (writeBlocks writes) = .ok ((), written) ∧ written.EndPasses p u)

/-- A machine through which `sync` passes. -/
def Machine.SyncPasses (p : π) (m u : Machine π) : Prop :=
  Interrupted (Machine.handler p) (commit { m.log with committing := true })
    { m with log := { m.log with committing := true } } u

/-- One step of the computer. -/
inductive Computer.Step (p : π) (area : Log) : Computer π → PowerEvent → Computer π → Prop where
  | op {m m' : Machine π} {writes : List (Nat × Block)} : execOp deferredLog p writes m = .ok m' →
      Step p area (.on m) (.op writes) (.on m')
  | read {m m' : Machine π} {blockno : Nat} {data : Block} :
      m.exec p (readBlock blockno) = .ok (data, m') → Step p area (.on m) (.read blockno data) (.on m')
  | sync {m m' : Machine π} : m.sync p = .ok m' → Step p area (.on m) .sync (.on m')
  | fail {m : Machine π} : Step p area (.on m) .fail (.off m.disk)
  | failOp {m u : Machine π} {writes : List (Nat × Block)} : m.OpPasses p writes u →
      Step p area (.on m) (.failOp writes) (.off u.disk)
  | failSync {m u : Machine π} : m.SyncPasses p u → Step p area (.on m) .failSync (.off u.disk)
  | boot {disk : Nat → Block} {log : Log} {m : Machine π} :
      (Machine.boot disk area).exec p (initlog area) = .ok (log, m) →
        Step p area (.off disk) .boot (.on { m with log })
  | failBoot {disk : Nat → Block} {u : Machine π} :
      Interrupted (Machine.handler p) (initlog area) (Machine.boot disk area) u →
        Step p area (.off disk) .failBoot (.off u.disk)

end Steps

/-! ## Histories -/

/-- What is known of the contents. -/
structure History where
  /-- The contents at the last start. -/
  base : Nat → Block
  /-- The writes of each operation since. -/
  ops : List (List (Nat × Block))
  /-- How many of the operations are known to be on disk. -/
  kept : Nat

namespace History

/-- The contents after the first operations. -/
def after (h : History) (n : Nat) : Nat → Block := apply h.base (h.ops.take n).flatten

/-- The contents now. -/
def now (h : History) : Nat → Block := apply h.base h.ops.flatten

/-- Only these contents are left. -/
def restart (base : Nat → Block) : History := ⟨base, [], 0⟩

/-- What an event may do to the history. -/
inductive Step (area : Log) : History → PowerEvent → History → Prop where
  /-- The operation is added, and if it commits then all of them are on disk. -/
  | op {h : History} {writes : List (Nat × Block)} {kept : Nat} :
      kept = h.kept ∨ kept = h.ops.length + 1 →
        Step area h (.op writes) { h with ops := h.ops ++ [writes], kept }
  /-- The answer is the contents of the block. -/
  | read {h : History} {blockno : Nat} {data : Block} : (¬area.Area blockno → data = h.now blockno) →
      Step area h (.read blockno data) h
  /-- All operations are on disk. -/
  | sync {h : History} : Step area h .sync { h with kept := h.ops.length }
  /-- What is known to be on disk survives. -/
  | fail {h : History} : Step area h .fail (restart (h.after h.kept))
  /-- The same, or the whole operation with all before it. -/
  | failOp {h : History} {writes : List (Nat × Block)} {base : Nat → Block} :
      base = h.after h.kept ∨ base = apply h.now writes → Step area h (.failOp writes) (restart base)
  /-- The same, or everything. -/
  | failSync {h : History} {base : Nat → Block} : base = h.after h.kept ∨ base = h.now →
      Step area h .failSync (restart base)
  /-- Starting loses nothing. -/
  | boot {h : History} : Step area h .boot h
  /-- A start that fails loses nothing. -/
  | failBoot {h : History} : Step area h .failBoot h

/-- All operations are the contents now. -/
theorem after_all (h : History) : h.after h.ops.length = h.now := by
  unfold after now
  rw [List.take_length]

/-- The contents after one more operation. -/
theorem now_snoc (h : History) (writes : List (Nat × Block)) (kept : Nat) :
    ({ h with ops := h.ops ++ [writes], kept } : History).now = apply h.now writes := by
  simp [now, apply_append]

/-- One more operation leaves the contents after the others. -/
theorem after_snoc (h : History) (writes : List (Nat × Block)) (kept : Nat) {n : Nat} (few : n ≤ h.ops.length) :
    ({ h with ops := h.ops ++ [writes], kept } : History).after n = h.after n := by
  simp [after, List.take_append_of_le_length few]

/-- Nothing has happened since the start. -/
theorem after_restart (base : Nat → Block) (n : Nat) : (restart base).after n = base := by
  simp [after, restart]

end History

/-! ## Interrupted code on the store -/

section Interruptions

variable {d : Discipline} {s u : Store} {m : Machine π} {p : π} {α : Type} {code : Kernel α}
  {writes : List (Nat × Block)}

/-- The disk has the writes made since. -/
def Store.Wrote (s t : Store) : Prop :=
  ∃ writes, t.writes = s.writes ++ writes ∧ t.disk = apply s.disk writes

/-- Nothing is written yet. -/
theorem Store.Wrote.refl (s : Store) : s.Wrote s := ⟨[], (List.append_nil _).symm, rfl⟩

/-- First some writes and then others. -/
theorem Store.Wrote.trans {s t u : Store} (first : s.Wrote t) (second : t.Wrote u) : s.Wrote u := by
  obtain ⟨before, wrote, disk⟩ := first
  obtain ⟨after, wrote', disk'⟩ := second
  refine ⟨before ++ after, ?_, ?_⟩
  · rw [wrote', wrote, List.append_assoc]
  · rw [disk', disk, apply_append]

/-- Every request keeps the list of disk writes. -/
theorem Store.Wrote.request (op : BufOp) (s : Store) (answer : bufSignature.Answer op) (t : Store)
    (answered : Store.handler d op s = .ok (answer, t)) : s.Wrote t := by
  cases op with
  | bread blockno =>
    cases answered
    exact .refl _
  | modify blockno update =>
    cases answered
    exact .refl _
  | logWrite blockno =>
    simp only [Store.handler] at answered
    cases accepted : d.write s.log blockno with
    | error reason =>
      rw [accepted] at answered
      contradiction
    | ok log =>
      rw [accepted] at answered
      cases answered
      exact .refl _
  | bwrite blockno =>
    cases answered
    exact ⟨[(blockno, s.blocks blockno)], rfl, rfl⟩
  | brelse blockno =>
    simp only [Store.handler] at answered
    split at answered
    · contradiction
    · cases answered
      exact .refl _

/-- Where code is interrupted the disk has a first part of its writes. -/
theorem Store.interrupted (passes : Interrupted (Store.handler d) code s u)
    (spec : wp (Store.handler d) code (fun _ t => t.writes = s.writes ++ writes) (fun _ => False) s) :
    ∃ k, u.disk = apply s.disk (writes.take k) := by
  obtain ⟨value, t, returned, total⟩ := wp_returns spec
  obtain ⟨⟨before, wrote, disk⟩, ⟨after, wrote', _⟩⟩ :=
    passes.onwards Store.Wrote .refl (fun _ _ _ => .trans) (Store.Wrote.request (d := d)) returned
  have parts : writes = before ++ after := by
    rw [wrote', wrote, List.append_assoc] at total
    exact (List.append_cancel_left total).symm
  refine ⟨before.length, ?_⟩
  rw [parts, List.take_left, disk]

/-- Where code is interrupted on the machine the disk has a first part of its writes. -/
theorem Implements.interrupted [DecidableEq π] {u : Machine π} (h : Implements p m s) (writes : List (Nat × Block))
    (passes : Interrupted (Machine.handler p) code m u)
    (spec : wp (Store.handler (recording true)) code (fun _ t => t.writes = s.writes ++ writes)
      (fun _ => False) s) : ∃ k, u.disk = apply m.disk (writes.take k) := by
  have simulated := passes.simulates (Implements p) unrecordedRelease
    (fun op _ _ _ _ related answered => related.simulates op answered) h
  rcases simulated with ⟨v, ideal, after⟩ | ⟨reason, stopped, _⟩
  · obtain ⟨k, disk⟩ := Store.interrupted ideal spec
    exact ⟨k, by rw [after.disk, disk, h.disk]⟩
  · exact (wp_error spec stopped).elim

end Interruptions

/-! ## Disks that recovery turns into given contents -/

/-- Recovery leaves these contents outside the log area: the log is erased and they are there, or
it is committed and they are there once its copies are. -/
def Recoverable (area : Log) (home disk : Nat → Block) : Prop :=
  ∃ (log : Log) (blocks old : Nat → Block), log.start = area.start ∧ log.size = area.size ∧
    log.Admitted ∧ (∀ b ∈ log.lh, b < FSSIZE) ∧
    (Committed log blocks old disk ∨ Erased log (replaced log blocks old) disk) ∧
    AgreeOutside area (replaced log blocks old) home

section Recoverable

variable {area : Log} {home disk : Nat → Block}

/-- An empty log of the area may be written. -/
theorem Log.Fits.rebooted (fits : area.Fits) : area.rebooted.Admitted := by
  have size := fits.size
  refine ⟨⟨?_, ?_⟩, Nat.zero_le _, ?_⟩
  · change 0 < area.size
    exact Nat.lt_of_lt_of_le (by decide) size
  · exact fun b member => absurd member List.not_mem_nil
  · exact fun b member => absurd member List.not_mem_nil

/-- A disk with an erased log. -/
theorem recoverable_erased (fits : area.Fits) (header : (disk area.start).word 0 = 0)
    (agree : AgreeOutside area disk home) : Recoverable area home disk := by
  have none_logged : ∀ b, replaced area.rebooted disk disk b = disk b := fun b => if_neg List.not_mem_nil
  refine ⟨area.rebooted, disk, disk, rfl, rfl, fits.rebooted, ?_, .inr ⟨header, ?_⟩, ?_⟩
  · exact fun b member => absurd member List.not_mem_nil
  · exact fun b _ => (none_logged b).symm
  · intro b outside
    rw [none_logged]
    exact agree b outside

/-- Only the contents outside the log area matter. -/
theorem Recoverable.congr {home' : Nat → Block} (recoverable : Recoverable area home disk)
    (agree : AgreeOutside area home home') : Recoverable area home' disk := by
  obtain ⟨log, blocks, old, start, size, admitted, inside, phase, same⟩ := recoverable
  refine ⟨log, blocks, old, start, size, admitted, inside, phase, ?_⟩
  exact fun b outside => (same b outside).trans (agree b outside)

end Recoverable

namespace Resting

variable {p : π} {area : Log} {m : Machine π} {log : Log}

/-- The log of a machine at rest may be committed. -/
theorem admitted (rest : Resting p area m) (few : m.log.lh.length ≤ 2 * MAXOPBLOCKS) (fits : area.Fits)
    (start : log.start = m.log.start) (size : log.size = m.log.size) (lh : log.lh = m.log.lh) :
    log.Admitted := by
  have room := fits.size
  have inside : ∀ b ∈ log.lh, ¬area.Area b ∧ b < FSSIZE := by
    intro b member
    rw [lh] at member
    exact rest.placed b member
  refine ⟨⟨?_, ?_⟩, ?_, ?_⟩
  · rw [lh, size, rest.size]
    simp only [LOGSIZE, MAXOPBLOCKS] at few room
    omega
  · intro b member
    have outside := (inside b member).1
    unfold Log.Area at outside ⊢
    rw [start, size, rest.start, rest.size]
    exact outside
  · rw [lh]
    simp only [LOGSIZE, MAXOPBLOCKS] at few ⊢
    omega
  · intro b member
    have small := (inside b member).2
    simp only [FSSIZE] at small
    omega

/-- What is not logged is on disk, so the disk with the logged blocks replaced is the contents. -/
theorem replaced_disk (rest : Resting p area m) (lh : log.lh = m.log.lh) (b : Nat) :
    replaced log m.contents m.disk b = m.contents b := by
  unfold replaced
  split
  · rfl
  · rename_i unlogged
    rw [lh] at unlogged
    exact (rest.synced unlogged).symm

variable [DecidableEq π]

/-- Where `commit` is interrupted, recovery leaves what was on disk or the contents. -/
theorem commit_interrupted (rest : Resting p area m) (few : m.log.lh.length ≤ 2 * MAXOPBLOCKS)
    (fits : area.Fits) (header : (m.disk area.start).word 0 = 0) (start : log.start = m.log.start)
    (size : log.size = m.log.size) (lh : log.lh = m.log.lh) {u : Machine π}
    (passes : Interrupted (Machine.handler p) (commit log) { m with log } u) :
    Recoverable area m.disk u.disk ∨ Recoverable area m.contents u.disk := by
  have place : log.start = area.start := start.trans rest.start
  have width : log.size = area.size := size.trans rest.size
  have admitted := rest.admitted few fits start size lh
  have coherent : ({ m with log } : Machine π).Coherent := ⟨rest.coherent.wf, rest.coherent.clean⟩
  by_cases nonempty : 0 < log.lh.length
  · have spec := commit_spec (d := recording true) (s := ({ m with log } : Machine π).store)
      (.inr fun _ => rfl) admitted.toPlaced nonempty
    obtain ⟨k, disk⟩ := (coherent.implements p).interrupted _ passes
      (wp_mono spec (fun _ _ flushed => flushed.2.writes) fun _ never => never)
    have header' : (m.disk log.start).word 0 = 0 := by
      rw [place]
      exact header
    have inside : ∀ b ∈ log.lh, b < FSSIZE := by
      intro b member
      rw [lh] at member
      exact (rest.placed b member).2
    have whole : AgreeOutside area (replaced log m.contents m.disk) m.contents :=
      fun b _ => rest.replaced_disk lh b
    rcases commit_cut admitted m.contents header' k with ⟨_, erased⟩ | committed | erased
    · left
      have erased' : Erased log m.disk u.disk := by
        rw [disk]
        exact erased
      apply recoverable_erased fits
      · rw [← place]
        exact erased'.header
      · intro b outside
        apply erased'.outside
        unfold Log.Area at outside ⊢
        rw [place, width]
        exact outside
    · right
      refine ⟨log, m.contents, m.disk, place, width, admitted, inside, .inl ?_, whole⟩
      rw [disk]
      exact committed
    · right
      refine ⟨log, m.contents, m.disk, place, width, admitted, inside, .inr ?_, whole⟩
      rw [disk]
      exact erased
  · rw [commit, if_neg nonempty] at passes
    cases passes
    exact .inl (recoverable_erased fits header fun _ _ => rfl)

/-- After a commit the log on disk is erased. -/
theorem commit_header (rest : Resting p area m) (few : m.log.lh.length ≤ 2 * MAXOPBLOCKS)
    (fits : area.Fits) (header : (m.disk area.start).word 0 = 0) (start : log.start = m.log.start)
    (size : log.size = m.log.size) (lh : log.lh = m.log.lh) {m' : Machine π}
    (returned : ({ m with log } : Machine π).commitAndClear p = .ok m') :
    (m'.disk area.start).word 0 = 0 := by
  have place : log.start = area.start := start.trans rest.start
  have admitted := rest.admitted few fits start size lh
  have coherent : ({ m with log } : Machine π).Coherent := ⟨rest.coherent.wf, rest.coherent.clean⟩
  unfold Machine.commitAndClear at returned
  cases executed : ({ m with log } : Machine π).exec p (commit log) with
  | error reason =>
    rw [executed] at returned
    contradiction
  | ok passed =>
    rw [executed] at returned
    cases returned
    change (passed.2.disk area.start).word 0 = 0
    by_cases nonempty : 0 < log.lh.length
    · have spec := commit_spec (d := recording true) (s := ({ m with log } : Machine π).store)
        (.inr fun _ => rfl) admitted.toPlaced nonempty
      rcases (coherent.implements p).runsAmid (.of_run _ executed) with ⟨t, ideal, after⟩ | ⟨_, stopped⟩
      · have flushed := (wp_ok spec ideal).2
        have last : commitWrites m.contents log =
            (logWrites m.contents log.start 0 log.lh ++
              ([(log.start, putHeader log.lh (m.contents log.start))] ++
                log.lh.map fun blockno => (blockno, m.contents blockno))) ++
              [(log.start, putHeader [] (putHeader log.lh (m.contents log.start)))] := by
          simp only [commitWrites, List.append_assoc]
        have final : t.disk = apply m.disk (commitWrites m.contents log) := flushed.disk
        rw [after.disk, final, last, apply_snoc, ← place, Function.update_self]
        exact Block.word_setWord_same _ (by decide) (by decide)
      · exact (wp_error spec stopped).elim
    · rw [commit, if_neg nonempty] at executed
      cases executed
      exact header

end Resting

/-! ## Operations -/

/-- Writing blocks in an operation writes nothing to disk. -/
theorem writeBlocks_quiet {s : Store} (settled : ∀ b, s.unlogged b = false) (writes : List (Nat × Block)) :
    wp (Store.handler (recording true)) (writeBlocks writes)
      (fun _ t => t.disk = s.disk ∧ t.writes = s.writes) (fun _ => False) s := by
  induction writes generalizing s with
  | nil => exact ⟨rfl, rfl⟩
  | cons write rest ih =>
    obtain ⟨blockno, contents⟩ := write
    have recorded : ∀ b, ((s.modified blockno fun _ => contents).record blockno).unlogged b = false := by
      intro b
      simp only [Store.record, Store.logged, Store.modified, Function.update_apply]
      split
      · rfl
      · exact settled b
    rw [writeBlocks, Store.wp_bread, Store.wp_modify, Store.wp_logWrite_recording,
      Store.wp_brelse (.inr (recorded blockno))]
    exact ih recorded

namespace Between

variable [DecidableEq π] {p : π} {area : Log} {m : Machine π} {writes : List (Nat × Block)}

/-- The writes of an operation have returned, and the disk is as before. -/
structure Written (p : π) (area : Log) (writes : List (Nat × Block)) (m written : Machine π) : Prop where
  rest : Resting p area written
  opened : written.log.outstanding = 1
  /-- The log has room for it. -/
  few : written.log.lh.length ≤ 2 * MAXOPBLOCKS
  /-- The contents follow the writes. -/
  contents : written.contents = apply m.contents writes
  disk : written.disk = m.disk

omit [DecidableEq π] in
/-- `begin_op` admits an operation. -/
theorem begins (between : Between p area MAXOPBLOCKS m) :
    m.beginOp = some { m with log := { m.log with outstanding := 1 } } := by
  obtain ⟨rest, closed, short⟩ := between
  have marked := List.toFinset_card_le m.log.lh
  have spare : m.cache.isBufFull = false := by
    apply rest.tallied.isBufFull
    simp only [Finset.card_empty, MAXOPBLOCKS, NBUF] at short ⊢
    omega
  unfold Machine.beginOp
  rw [spare, Log.beginOp_room rest.committing closed short]
  rfl

/-- The writes of an operation return. -/
theorem written (between : Between p area MAXOPBLOCKS m) (fits : area.Fits)
    (valid : (LogCommand.op writes).Valid area) :
    ∃ m', ({ m with log := { m.log with outstanding := 1 } } : Machine π).exec p (writeBlocks writes) =
      .ok ((), m') ∧ Written p area writes m m' := by
  obtain ⟨rest, closed, short⟩ := between
  have begun := rest.counters { m.log with outstanding := 1 } rfl rfl rfl rest.committing
  obtain ⟨m', returned, rest', opened, few, contents⟩ := begun.writes rfl short fits valid
  obtain ⟨t, ⟨disk, _⟩, after⟩ := begun.executes returned (writeBlocks_quiet (fun _ => rfl) writes)
  exact ⟨m', returned, rest', opened, few, contents, after.disk.trans disk⟩

/-- An operation keeps the log on disk erased, and either leaves the disk alone or leaves all
contents on it. -/
theorem op (between : Between p area MAXOPBLOCKS m) (fits : area.Fits)
    (header : (m.disk area.start).word 0 = 0) (valid : (LogCommand.op writes).Valid area)
    {m' : Machine π} (returned : execOp deferredLog p writes m = .ok m') :
    Between p area MAXOPBLOCKS m' ∧ AgreeOutside area m'.contents (apply m.contents writes) ∧
      (m'.disk area.start).word 0 = 0 ∧ (m'.disk = m.disk ∨ AgreeOutside area m'.disk m'.contents) := by
  obtain ⟨m'', works, between', agree⟩ := deferred_works fits m writes between valid
  rw [returned] at works
  cases works
  refine ⟨between', agree, ?_⟩
  obtain ⟨written, executed, parts⟩ := between.written fits valid
  have ended : execOp deferredLog p writes m = written.endOp p := by
    simp only [execOp, deferredLog, between.begins, executed]
  rw [ended] at returned
  have header' : (written.disk area.start).word 0 = 0 := by
    rw [parts.disk]
    exact header
  unfold Machine.endOp at returned
  cases result : written.log.endOp written.cache.isBufFull with
  | error reason =>
    rw [result] at returned
    contradiction
  | ok passed =>
    obtain ⟨log, doCommit⟩ := passed
    obtain ⟨_, sameLog, _⟩ := Log.endOp_ok result
    rw [result] at returned
    cases doCommit with
    | false =>
      cases returned
      exact ⟨header', .inl parts.disk⟩
    | true =>
      have start : log.start = written.log.start := by rw [sameLog]
      have size : log.size = written.log.size := by rw [sameLog]
      have lh : log.lh = written.log.lh := by rw [sameLog]
      simp only [if_true] at returned
      refine ⟨parts.rest.commit_header parts.few fits header' start size lh returned, .inr ?_⟩
      obtain ⟨m'', committed, rest'', empty, _, _⟩ :=
        parts.rest.commits parts.few fits log start size lh
      rw [returned] at committed
      cases committed
      intro b _
      exact (rest''.synced (by rw [empty]; exact List.not_mem_nil)).symm

/-- Where an operation is interrupted, recovery leaves what was on disk or the whole operation
with all before it. -/
theorem failOp (between : Between p area MAXOPBLOCKS m) (fits : area.Fits)
    (header : (m.disk area.start).word 0 = 0) (valid : (LogCommand.op writes).Valid area)
    {u : Machine π} (passes : m.OpPasses p writes u) :
    Recoverable area m.disk u.disk ∨ Recoverable area (apply m.contents writes) u.disk := by
  have before : ∀ {disk}, disk = m.disk → Recoverable area m.disk disk := by
    intro disk same
    rw [same]
    exact recoverable_erased fits header fun _ _ => rfl
  rcases passes with rfl | ⟨begun, begins, passes⟩
  · exact .inl (before rfl)
  · rw [between.begins] at begins
    cases begins
    rcases passes with amid | ⟨written, executed, passes⟩
    · have rest := between.1.counters { m.log with outstanding := 1 } rfl rfl rfl between.1.committing
      obtain ⟨k, disk⟩ := (rest.coherent.implements p).interrupted [] amid
        (wp_mono (writeBlocks_quiet (fun _ => rfl) writes)
          (fun _ _ quiet => by rw [quiet.2, List.append_nil]) fun _ never => never)
      rw [List.take_nil, apply_nil] at disk
      exact .inl (before disk)
    · obtain ⟨m', executed', parts⟩ := between.written fits valid
      rw [executed] at executed'
      cases executed'
      rcases passes with rfl | ⟨log, ended, passes⟩
      · exact .inl (before parts.disk)
      · obtain ⟨_, sameLog, _⟩ := Log.endOp_ok ended
        have header' : (written.disk area.start).word 0 = 0 := by
          rw [parts.disk]
          exact header
        rw [← parts.contents, ← parts.disk]
        exact parts.rest.commit_interrupted parts.few fits header' (by rw [sameLog]) (by rw [sameLog])
          (by rw [sameLog]) passes

/-- A `sync` leaves all contents on disk. -/
theorem sync (between : Between p area MAXOPBLOCKS m) (fits : area.Fits)
    (header : (m.disk area.start).word 0 = 0) :
    ∃ m', m.sync p = .ok m' ∧ Between p area MAXOPBLOCKS m' ∧ AgreeOutside area m'.contents m.contents ∧
      (m'.disk area.start).word 0 = 0 ∧ AgreeOutside area m'.disk m'.contents := by
  obtain ⟨rest, closed, short⟩ := between
  have few : m.log.lh.length ≤ 2 * MAXOPBLOCKS := by omega
  obtain ⟨m', committed, rest', empty, counter, kept⟩ :=
    rest.commits few fits { m.log with committing := true } rfl rfl rfl
  refine ⟨m', committed, ⟨rest', counter.trans closed, ?_⟩, kept, ?_, ?_⟩
  · rw [empty]
    exact Nat.zero_le _
  · have start : ({ m.log with committing := true } : Log).start = m.log.start := rfl
    exact rest.commit_header few fits header start rfl rfl committed
  · intro b _
    exact (rest'.synced (by rw [empty]; exact List.not_mem_nil)).symm

end Between

/-! ## Starting -/

namespace Ledger

variable {held dirty : Finset Nat} {l : Ledger}

/-- `read_head`. -/
theorem follows_readHead (log : Log) (within : l.Within True held dirty)
    (room : held.card + 2 + dirty.card < NBUF) (inside : log.start < FSSIZE) :
    Program.Follows (Step True) (fun _ r => r.Within True held dirty) (readHead log) l := by
  obtain ⟨_, room₁, room₀⟩ := within.room room log.start log.start l.dirty within.dirty
  have member : log.start ∈ insert log.start l.held := Finset.mem_insert_self _ _
  have back : (insert log.start l.held).erase log.start ⊆ l.held := Finset.erase_insert_subset _ _
  refine follows_perform ⟨rfl, room₀, fun _ => nofun, fun matters => ?_⟩ fun data => ?_
  · exact ⟨by rw [within.none_held matters]; exact Finset.notMem_empty _, inside⟩
  · refine follows_perform ⟨rfl, room₁, fun _ => nofun, fun _ => member⟩ fun _ => ?_
    constructor
    · exact back.trans within.held
    · exact within.dirty
    · intro matters
      have empty := within.none_held matters
      rw [empty] at back
      exact Finset.subset_empty.mp (by simpa only [after, empty] using back)

end Ledger

/-- Kernel code that makes accepted requests other than `log_write` returns. -/
theorem Tallied.follows [DecidableEq π] {α : Type} {p : π} {l : Ledger} {m : Machine π} {code : Kernel α}
    {final : α → Ledger → Prop} (t : Tallied p l m)
    (follows : Program.Follows (Ledger.Step True) final code l) :
    ∃ value m', m.exec p code = .ok (value, m') ∧ ∃ r, final value r ∧ Tallied p r m' := by
  refine wp_returns (follows.wp (Machine.handler p) (Tallied p) (fun _ => False) ?_ t)
  intro q op r m before step
  obtain ⟨ledger, room, other, accepted⟩ := step
  cases result : Machine.handler p op m with
  | ok passed =>
    rw [ledger]
    exact before.returns room result
  | error reason => exact Ledger.not_refused (accepted trivial) other (before.refused room result)

section Boot

variable {p : π} {area : Log} {home disk : Nat → Block}

namespace Recoverable

/-- What recovery reads from the header. -/
theorem header (recoverable : Recoverable area home disk) :
    ({ area.rebooted with lh := getHeader (disk area.start) } : Log).Admitted ∧
      ∀ b ∈ getHeader (disk area.start), b < FSSIZE := by
  obtain ⟨log, blocks, old, start, size, admitted, inside, phase, _⟩ := recoverable
  have same : log.rebooted = area.rebooted := by
    unfold Log.rebooted
    rw [start, size]
  have sized : 0 < log.size := Nat.lt_of_le_of_lt (Nat.zero_le _) admitted.room
  rw [← same, ← start]
  rcases phase with committed | erased
  · refine ⟨committed.admitted admitted, ?_⟩
    rw [committed.header]
    exact inside
  · refine ⟨erased.admitted sized, ?_⟩
    rw [erased.getHeader]
    exact fun b member => absurd member List.not_mem_nil

/-- Recovery that is interrupted leaves the disk recoverable. -/
theorem recover (recoverable : Recoverable area home disk) (k : Nat) :
    Recoverable area home (apply disk ((recoverWrites disk area.start).take k)) := by
  obtain ⟨log, blocks, old, start, size, admitted, inside, phase, same⟩ := recoverable
  refine ⟨log, blocks, old, start, size, admitted, inside, ?_, same⟩
  rw [← start]
  rcases phase with committed | erased
  · exact committed.recover admitted k
  · exact .inr (erased.recover admitted k)

/-- Recovery that completes leaves the contents on disk and the log there erased. -/
theorem complete (recoverable : Recoverable area home disk) :
    let after := apply disk (recoverWrites disk area.start)
    (after area.start).word 0 = 0 ∧ AgreeOutside area after home := by
  obtain ⟨log, blocks, old, start, size, admitted, _, phase, same⟩ := recoverable
  have erased : Erased log (replaced log blocks old) (apply disk (recoverWrites disk area.start)) := by
    rw [← start]
    rcases phase with committed | erased
    · rw [committed.recoverWrites]
      exact committed.erase admitted (disk log.start)
    · have whole := erased.recover admitted (recoverWrites disk log.start).length
      rw [List.take_length] at whole
      exact whole
  refine ⟨?_, fun b outside => ?_⟩
  · have header := erased.header
    rw [start] at header
    exact header
  · rw [← same b outside]
    apply erased.outside
    unfold Log.Area at outside ⊢
    rw [start, size]
    exact outside

end Recoverable

/-- The machine that starts is fresh. -/
theorem Machine.boot_fresh (fits : area.Fits) (disk : Nat → Block) : (Machine.boot disk area : Machine π).Fresh where
  wf := binit_wf
  idle _ := ⟨rfl, rfl⟩
  clean _ := rfl
  size := fits.size
  empty := rfl
  outstanding := rfl
  committing := rfl

/-- The machine that starts implements a store with the contents of the disk. -/
theorem Machine.boot_implements (p : π) (area : Log) (disk : Nat → Block) :
    ∃ s : Store, Implements p (Machine.boot disk area) s ∧ s.blocks = disk ∧ s.disk = disk ∧
      ∀ b, s.unlogged b = false := by
  have coherent : (⟨binit, disk, area.rebooted⟩ : Machine π).Coherent := Machine.coherent_empty _ _
  have contents : (⟨binit, disk, area.rebooted⟩ : Machine π).contents = disk := Machine.contents_empty _ _
  exact ⟨_, coherent.implements p, contents, rfl, fun _ => rfl⟩

/-- The code of `initlog` on a store that starts from the disk. -/
theorem initlog_spec {s : Store} (recoverable : Recoverable area home disk) (blocks : s.blocks = disk)
    (settled : ∀ b, s.unlogged b = false) :
    wp (Store.handler (recording true)) (initlog area)
      (fun log t => log = area.rebooted ∧ Flushed s t (recoverWrites disk area.start))
      (fun _ => False) s := by
  subst blocks
  exact recover_spec (.inr settled) recoverable.header.1.toPlaced

variable [DecidableEq π]

/-- Where the start is interrupted the disk is still recoverable. -/
theorem Recoverable.failBoot (recoverable : Recoverable area home disk) {u : Machine π}
    (passes : Interrupted (Machine.handler p) (initlog area) (Machine.boot disk area) u) :
    Recoverable area home u.disk := by
  obtain ⟨s, implements, blocks, _, settled⟩ := Machine.boot_implements p area disk
  obtain ⟨k, writes⟩ := implements.interrupted _ passes
    (wp_mono (initlog_spec recoverable blocks settled) (fun _ _ flushed => flushed.2.writes) fun _ never => never)
  rw [writes]
  exact recoverable.recover k

/-- The machine starts from a recoverable disk, at rest and with these contents. -/
theorem Recoverable.boot (recoverable : Recoverable area home disk) (fits : area.Fits) :
    ∃ log m, (Machine.boot disk area : Machine π).exec p (initlog area) = .ok (log, m) ∧
      Between p area 0 { m with log } ∧ AgreeOutside area m.contents home ∧
      (m.disk area.start).word 0 = 0 ∧ m.disk = m.contents := by
  obtain ⟨admitted, inside⟩ := recoverable.header
  have coherent : (Machine.boot disk area : Machine π).Coherent := Machine.coherent_empty _ _
  obtain ⟨s, implements, blocks, stored, quiet⟩ := Machine.boot_implements p area disk
  have spec := initlog_spec recoverable blocks quiet
  have tallied : Tallied p ⟨∅, ∅⟩ (Machine.boot disk area) :=
    ((Machine.boot_fresh fits disk).between coherent p).1.tallied
  have within : Ledger.Within True ∅ ∅ ⟨∅, ∅⟩ :=
    ⟨Finset.Subset.refl _, Finset.Subset.refl _, fun _ => rfl⟩
  have place : area.rebooted.start < FSSIZE := by
    have size := fits.size
    have whole := fits.inside
    simp only [LOGSIZE, MAXOPBLOCKS] at size
    change area.start < FSSIZE
    omega
  have room : (∅ : Finset Nat).card + 2 + (∅ : Finset Nat).card < NBUF := by decide
  obtain ⟨log₁, m₁, read, l₁, within₁, tallied₁⟩ :=
    tallied.follows (Ledger.follows_readHead area.rebooted within room place)
  have known : log₁ = { area.rebooted with lh := getHeader (disk area.start) } := by
    have spec : wp (Store.handler (recording true)) (readHead area.rebooted)
        (fun log _ => log = { area.rebooted with lh := getHeader (disk area.start) }) (fun _ => False)
        s := by
      rw [readHead, Store.wp_bread, Store.wp_brelse (.inr (quiet _)), wp_pure, blocks]
      rfl
    rcases implements.runsAmid (.of_run _ read) with ⟨t, ideal, _⟩ | ⟨_, stopped⟩
    · exact wp_ok spec ideal
    · exact (wp_error spec stopped).elim
  have valid : True → log₁.start + 0 + log₁.lh.length < FSSIZE ∧
      ∀ b ∈ log₁.lh, b < FSSIZE ∧ (b ≤ log₁.start + 0 ∨ log₁.start + 0 + log₁.lh.length < b) := by
    intro _
    rw [known]
    have long := admitted.room
    have whole := fits.inside
    refine ⟨?_, fun b member => ⟨inside b member, admitted.toPlaced.apart b member⟩⟩
    change (getHeader (disk area.start)).length < area.size at long
    change area.start + 0 + (getHeader (disk area.start)).length < FSSIZE
    omega
  have start : log₁.start < FSSIZE := by
    rw [known]
    exact place
  obtain ⟨_, m₂, installed, l₂, within₂, tallied₂⟩ :=
    tallied₁.follows (Ledger.follows_install within₁ room valid)
  have few : (∅ : Finset Nat).card + 2 + (∅ \ log₁.lh.toFinset).card < NBUF := by
    rw [Finset.empty_sdiff]
    exact room
  obtain ⟨_, m₃, erased, l₃, within₃, tallied₃⟩ :=
    tallied₂.follows (Ledger.follows_writeHead log₁.clear within₂ few fun _ => start)
  have executed : (Machine.boot disk area : Machine π).exec p (initlog area) = .ok (log₁.clear, m₃) := by
    unfold initlog recoverFromLog installTrans
    rw [Machine.exec, run_bind_ok read, run_bind_ok installed, run_bind_ok erased]
    rfl
  have cleared : log₁.clear = area.rebooted := by
    rw [known]
    rfl
  rw [cleared] at executed
  rcases implements.runsAmid (.of_run _ executed) with ⟨t, ideal, after⟩ | ⟨_, stopped⟩
  · have flushed := (wp_ok spec ideal).2
    have settled : ∀ b, t.unlogged b = false := fun b => flushed.unlogged b (quiet b)
    have total : t.disk = apply disk (recoverWrites disk area.start) := by
      rw [flushed.disk, stored]
    have contents : m₃.contents = t.disk := by
      rw [after.contents settled, flushed.blocks, blocks, total]
    obtain ⟨header, agree⟩ := recoverable.complete
    have resting := after.coherent settled
    refine ⟨area.rebooted, m₃, executed, ⟨⟨?_, ⟨resting.wf, resting.clean⟩, List.nodup_nil, rfl, rfl, ?_, rfl⟩,
      rfl, Nat.le_refl _⟩, ?_, ?_, ?_⟩
    · have held : l₃.held = ∅ := Finset.subset_empty.mp within₃.held
      have dirty : l₃.dirty = ∅ := by
        apply Finset.subset_empty.mp
        exact within₃.dirty.trans Finset.sdiff_subset
      obtain ⟨_, _⟩ := l₃
      cases held
      cases dirty
      exact tallied₃.congr rfl
    · exact fun b member => absurd member List.not_mem_nil
    · rw [contents, total]
      exact agree
    · rw [after.disk, total]
      exact header
    · rw [contents, after.disk]
  · exact (wp_error spec stopped).elim

end Boot

/-! ## Every failure keeps a first part -/

/-- The operations that the event names are valid, and a read is of a block of the disk. -/
def PowerEvent.Valid (area : Log) : PowerEvent → Prop
  | .op writes => (LogCommand.op writes).Valid area
  | .failOp writes => (LogCommand.op writes).Valid area
  | .read blockno _ => blockno < FSSIZE
  | _ => True

/-- The computer is as the history says. -/
def Computer.Represents (p : π) (area : Log) : Computer π → History → Prop
  | .on m, h => Between p area MAXOPBLOCKS m ∧ (m.disk area.start).word 0 = 0 ∧
    AgreeOutside area m.contents h.now ∧ AgreeOutside area m.disk (h.after h.kept) ∧
    h.kept ≤ h.ops.length
  | .off disk, h => ∃ home, h = .restart home ∧ Recoverable area home disk

/-- A running computer answers with the contents of the history, and its calls return; a computer
without power can be started, and has the contents of the history then. -/
def Computer.Offers [DecidableEq π] (p : π) (area : Log) (h : History) : Computer π → Prop
  | .on m => AgreeOutside area m.contents h.now ∧
    (∀ writes, (LogCommand.op writes).Valid area → ∃ m', execOp deferredLog p writes m = .ok m') ∧
    (∀ b < FSSIZE, ∃ m', m.exec p (readBlock b) = .ok (m.contents b, m')) ∧ ∃ m', m.sync p = .ok m'
  | .off disk => ∃ log m, (Machine.boot disk area : Machine π).exec p (initlog area) = .ok (log, m) ∧
    AgreeOutside area m.contents h.now

section Histories

variable [DecidableEq π] {p : π} {area : Log} {c c' : Computer π} {h : History}

/-- Every step of the computer is a step of the history. -/
theorem Computer.Represents.step (fits : area.Fits) (represents : Computer.Represents p area c h) {event : PowerEvent}
    (valid : event.Valid area) (step : c.Step p area event c') :
    ∃ h', History.Step area h event h' ∧ Computer.Represents p area c' h' := by
  cases step with
  | @op m m' writes returned =>
    obtain ⟨between, header, contents, disk, few⟩ := represents
    obtain ⟨between', contents', header', kept⟩ := between.op fits header valid returned
    have now : AgreeOutside area m'.contents (apply h.now writes) := by
      intro b outside
      rw [contents' b outside]
      exact contents.apply writes b outside
    rcases kept with same | whole
    · refine ⟨_, .op (.inl rfl), between', header', ?_, ?_, ?_⟩
      · rw [History.now_snoc]
        exact now
      · rw [same, History.after_snoc _ _ _ few]
        exact disk
      · simp only [List.length_append, List.length_singleton]
        omega
    · refine ⟨_, .op (.inr rfl), between', header', ?_, ?_, ?_⟩
      · rw [History.now_snoc]
        exact now
      · have all := History.after_all ({ h with ops := h.ops ++ [writes], kept := h.ops.length + 1 } : History)
        simp only [List.length_append, List.length_singleton] at all
        rw [all, History.now_snoc]
        exact fun b outside => (whole b outside).trans (now b outside)
      · simp
  | @read m m' blockno data returned =>
    obtain ⟨between, header, contents, disk, few⟩ := represents
    obtain ⟨rest, closed, short⟩ := between
    obtain ⟨m'', executed, rest', log, kept⟩ := rest.reads short valid
    rw [returned] at executed
    cases executed
    obtain ⟨t, ⟨_, same⟩, after⟩ := rest.executes returned (readBlock_spec (fun _ => rfl) blockno)
    have disk' : m'.disk = m.disk := by
      rw [after.disk, same]
      rfl
    refine ⟨h, .read fun outside => contents _ outside, ⟨rest', ?_, ?_⟩, ?_, ?_, ?_, few⟩
    · rw [log]
      exact closed
    · rw [log]
      exact short
    · rw [disk']
      exact header
    · rw [kept]
      exact contents
    · rw [disk']
      exact disk
  | @sync m m' returned =>
    obtain ⟨between, header, contents, disk, few⟩ := represents
    obtain ⟨m'', synced, between', kept, header', whole⟩ := between.sync fits header
    rw [returned] at synced
    cases synced
    have now : AgreeOutside area m'.contents h.now :=
      fun b outside => (kept b outside).trans (contents b outside)
    refine ⟨_, .sync, between', header', now, ?_, Nat.le_refl _⟩
    rw [show ({ h with kept := h.ops.length } : History).after h.ops.length = h.now from h.after_all]
    exact fun b outside => (whole b outside).trans (now b outside)
  | fail =>
    obtain ⟨_, header, _, disk, _⟩ := represents
    exact ⟨_, .fail, _, rfl, recoverable_erased fits header disk⟩
  | @failOp m u writes passes =>
    obtain ⟨between, header, contents, disk, _⟩ := represents
    rcases between.failOp fits header valid passes with before | after
    · exact ⟨_, .failOp (.inl rfl), _, rfl, before.congr disk⟩
    · exact ⟨_, .failOp (.inr rfl), _, rfl, after.congr (contents.apply writes)⟩
  | @failSync m u passes =>
    obtain ⟨between, header, contents, disk, _⟩ := represents
    obtain ⟨rest, _, short⟩ := between
    have few : m.log.lh.length ≤ 2 * MAXOPBLOCKS := by omega
    have start : ({ m.log with committing := true } : Log).start = m.log.start := rfl
    rcases rest.commit_interrupted few fits header start rfl rfl passes with before | after
    · exact ⟨_, .failSync (.inl rfl), _, rfl, before.congr disk⟩
    · exact ⟨_, .failSync (.inr rfl), _, rfl, after.congr contents⟩
  | @boot disk log m returned =>
    obtain ⟨home, rfl, recoverable⟩ := represents
    obtain ⟨log', m', executed, ⟨rest, closed, short⟩, contents, header, same⟩ :=
      recoverable.boot (p := p) fits
    rw [returned] at executed
    cases executed
    refine ⟨_, .boot, ⟨rest, closed, Nat.le_trans short (Nat.zero_le _)⟩, header, contents, ?_, Nat.le_refl _⟩
    rw [History.after_restart]
    change AgreeOutside area m.disk home
    rw [same]
    exact contents
  | @failBoot disk u passes =>
    obtain ⟨home, rfl, recoverable⟩ := represents
    exact ⟨_, .failBoot, home, rfl, recoverable.failBoot passes⟩

/-- A computer that is as the history says offers its contents. -/
theorem Computer.Represents.offers (fits : area.Fits) (represents : Computer.Represents p area c h) : c.Offers p area h := by
  cases c with
  | on m =>
    obtain ⟨between, header, contents, _, _⟩ := represents
    refine ⟨contents, ?_, ?_, ?_⟩
    · intro writes valid
      obtain ⟨m', returned, _⟩ := deferred_works fits m writes between valid
      exact ⟨m', returned⟩
    · intro b inside
      obtain ⟨m', returned, _⟩ := between.1.reads between.2.2 inside
      exact ⟨m', returned⟩
    · obtain ⟨m', returned, _⟩ := between.sync fits header
      exact ⟨m', returned⟩
  | off disk =>
    obtain ⟨home, rfl, recoverable⟩ := represents
    obtain ⟨log, m, returned, _, contents, _, _⟩ := recoverable.boot (p := p) fits
    exact ⟨log, m, returned, contents⟩

/-- Whatever the calls are and wherever the power fails, from a disk with an erased log: the run is
one of a history, which loses at a failure only operations that no commit has followed, the last
ones, each of them whole. A running computer offers the contents of the history, and one without
power starts with them. -/
theorem failures_keep_first_part (fits : area.Fits) {disk : Nat → Block}
    (header : (disk area.start).word 0 = 0) {events : List PowerEvent}
    (valid : ∀ event ∈ events, event.Valid area) (run : Run (Computer.Step p area) (.off disk) events c) :
    ∃ h, Run (History.Step area) (.restart disk) events h ∧ c.Offers p area h := by
  have start : Computer.Represents p area (.off disk) (.restart disk) :=
    ⟨disk, rfl, recoverable_erased fits header fun _ _ => rfl⟩
  obtain ⟨h, history, represents⟩ : ∃ h, Run (History.Step area) (.restart disk) events h ∧
      Computer.Represents p area c h := by
    generalize Computer.off disk = first at run start
    generalize History.restart disk = past at start
    induction run generalizing past with
    | nil c => exact ⟨past, .nil past, start⟩
    | @cons first second last event events step _ ih =>
      obtain ⟨next, taken, represents⟩ := start.step fits (valid event List.mem_cons_self) step
      obtain ⟨h, rest, final⟩ := ih (fun e member => valid e (List.mem_cons_of_mem _ member)) next represents
      exact ⟨h, .cons taken rest, final⟩
  exact ⟨h, history, represents.offers fits⟩

end Histories

/-- The power fails in an operation, and once more while the machine starts. -/
theorem failures_keep_first_part_one :
    ∃ c : Computer Unit, ∃ h, Run (History.Step ⟨2, LOGSIZE, 0, false, []⟩) (.restart fun _ => Block.zero)
        [.boot, .failOp [(100, onesBlock)], .failBoot] h ∧ c.Offers () ⟨2, LOGSIZE, 0, false, []⟩ h := by
  have fits : Log.Fits ⟨2, LOGSIZE, 0, false, []⟩ := ⟨Nat.le_refl _, by decide⟩
  have header : (Block.zero).word 0 = 0 := Block.word_zero 0
  have erased : Recoverable ⟨2, LOGSIZE, 0, false, []⟩ (fun _ => Block.zero) fun _ => Block.zero :=
    recoverable_erased fits header fun _ _ => rfl
  obtain ⟨log, m, started, _⟩ := erased.boot (p := ()) fits
  have valid : ∀ event ∈ [PowerEvent.boot, .failOp [(100, onesBlock)], .failBoot],
      event.Valid ⟨2, LOGSIZE, 0, false, []⟩ := by
    intro event member
    simp only [List.mem_cons, List.not_mem_nil, or_false] at member
    rcases member with rfl | rfl | rfl
    · trivial
    · refine ⟨?_, by decide⟩
      intro write here
      rw [List.mem_singleton.mp here]
      decide
    · trivial
  obtain ⟨h, history, offers⟩ := failures_keep_first_part fits header valid
    (.cons (.boot started) (.cons (.failOp (.inl rfl)) (.cons (.failBoot (.now _ _)) (.nil _))))
  exact ⟨_, h, history, offers⟩

end Xv6
