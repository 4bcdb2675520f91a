import Xv6.Verif.Capacity

/-!
# The deferred log and the write-through log

Project 3 commits when the log or the cache is nearly full, project 2 at every `end_op`. Both
are compared with a flat array of blocks that operations write and reads answer from: outside
the log area each of them is the array, whatever the order of operations and reads, so the two
answer alike. After a last `sync` the array is on disk.
-/

namespace Xv6

open Program Writes

variable {π : Type}

/-! ## Operations under the two logs -/

/-- The typical use of `log_write`, for each pair of a block and its new contents. -/
def writeBlocks : List (Nat × Block) → Kernel Unit
  | [] => pure ()
  | (blockno, contents) :: rest => do
    let _ ← bread blockno
    modify blockno fun _ => contents
    logWrite blockno
    brelse blockno
    writeBlocks rest

/-- A read of one block. -/
def readBlock (blockno : Nat) : Kernel Block := do
  let data ← bread blockno
  brelse blockno
  pure data

/-- What the process does next. -/
inductive LogCommand where
  /-- An operation, from `begin_op` to `end_op`. -/
  | op (writes : List (Nat × Block))
  /-- A read between operations. -/
  | read (blockno : Nat)

/-- How a log admits operations and when it commits. -/
structure LogPolicy (π : Type) where
  /-- `begin_op`, or `none` when it sleeps. -/
  beginOp : Machine π → Option (Machine π)
  endOp : Machine π → π → Except Stop (Machine π)

section Execution

variable [DecidableEq π]

/-- The log of project 3. -/
def deferredLog : LogPolicy π := ⟨Machine.beginOp, Machine.endOp⟩

/-- The log of project 2. -/
def writeThroughLog : LogPolicy π := ⟨Machine.beginOp2, Machine.endOp2⟩

/-- One operation. -/
def execOp (policy : LogPolicy π) (p : π) (writes : List (Nat × Block)) (m : Machine π) :
    Except Stop (Machine π) :=
  match policy.beginOp m with
  | none => .error .blocked
  | some m =>
    match m.exec p (writeBlocks writes) with
    | .error reason => .error reason
    | .ok (_, m) => policy.endOp m p

/-- Commands in order, with the blocks read. -/
def execCommands (policy : LogPolicy π) (p : π) :
    List LogCommand → Machine π → Except Stop (List (Nat × Block) × Machine π)
  | [], m => .ok ([], m)
  | .op writes :: rest, m =>
    match execOp policy p writes m with
    | .error reason => .error reason
    | .ok m => execCommands policy p rest m
  | .read blockno :: rest, m =>
    match m.exec p (readBlock blockno) with
    | .error reason => .error reason
    | .ok (data, m) =>
      (execCommands policy p rest m).map fun result => ((blockno, data) :: result.1, result.2)

end Execution

/-- The flat array of blocks. -/
def flatCommands : List LogCommand → (Nat → Block) → List (Nat × Block) × (Nat → Block)
  | [], blocks => ([], blocks)
  | .op writes :: rest, blocks => flatCommands rest (apply blocks writes)
  | .read blockno :: rest, blocks =>
    ((blockno, blocks blockno) :: (flatCommands rest blocks).1, (flatCommands rest blocks).2)

/-- An operation writes at most `MAXOPBLOCKS` distinct blocks of the disk outside the log area,
and a read is of a block of the disk. -/
def LogCommand.Valid (area : Log) : LogCommand → Prop
  | .op writes =>
    (∀ write ∈ writes, ¬area.Area write.1 ∧ write.1 < FSSIZE) ∧
      (writes.map Prod.fst).toFinset.card ≤ MAXOPBLOCKS
  | .read blockno => blockno < FSSIZE

/-- The log area holds a full header and lies on the disk. -/
structure Log.Fits (area : Log) : Prop where
  /-- There is room for `LOGSIZE` blocks. -/
  size : LOGSIZE ≤ area.size
  /-- The area is on the disk. -/
  inside : area.start + area.size ≤ FSSIZE

/-- The machine while the process holds no buffer and no commit is in progress. -/
structure Resting (p : π) (area : Log) (m : Machine π) : Prop where
  /-- The dirty blocks are the logged ones. -/
  tallied : Tallied p ⟨∅, m.log.lh.toFinset⟩ m
  coherent : m.Coherent
  nodup : m.log.lh.Nodup
  start : m.log.start = area.start
  /-- The log has the size of the area. -/
  size : m.log.size = area.size
  /-- The logged blocks are blocks of the disk outside the log area. -/
  placed : ∀ b ∈ m.log.lh, ¬area.Area b ∧ b < FSSIZE
  committing : m.log.committing = false

namespace Resting

variable {p : π} {area : Log} {m : Machine π}

/-- A block that is not logged has its contents on disk. -/
theorem synced (rest : Resting p area m) {b : Nat} (unlogged : b ∉ m.log.lh) : m.contents b = m.disk b := by
  have implements := rest.coherent.implements p
  apply implements.synced b _ rfl
  change m.marked b = false
  unfold Machine.marked
  cases found : m.lookup b with
  | none => rfl
  | some i =>
    have marked := rest.tallied.dirty i b (Machine.lookup_some found)
    simp only [List.mem_toFinset] at marked
    by_contra flagged
    exact unlogged (marked.mp (Bool.eq_true_of_not_eq_false flagged))

end Resting

/-! ## The parts of an operation -/

/-- Writing blocks that keep the log short makes accepted requests only. -/
theorem follows_writeBlocks {few : Finset Nat} (bound : few.card ≤ 2 * MAXOPBLOCKS) {log : Log}
    {writes : List (Nat × Block)} (logged : log.lh.toFinset ⊆ few) (distinct : log.lh.Nodup)
    (opened : log.outstanding = 1) (size : LOGSIZE ≤ log.size)
    (valid : ∀ write ∈ writes, write.1 ∈ few ∧ write.1 < FSSIZE) :
    Program.Follows Books.Step
      (fun _ r => r = ⟨⟨∅, (log.recordAll (writes.map Prod.fst)).lh.toFinset⟩,
        log.recordAll (writes.map Prod.fst)⟩)
      (writeBlocks writes) ⟨⟨∅, log.lh.toFinset⟩, log⟩ := by
  induction writes generalizing log with
  | nil => exact rfl
  | cons write rest ih =>
    obtain ⟨blockno, contents⟩ := write
    obtain ⟨member, inside⟩ := valid (blockno, contents) List.mem_cons_self
    have short : log.lh.length ≤ few.card := by
      rw [← List.toFinset_card_of_nodup distinct]
      exact Finset.card_le_card logged
    simp only [MAXOPBLOCKS, LOGSIZE] at bound size
    have accepted : log.write blockno = .ok (log.record blockno) := by
      apply Log.write_record
      · simp only [LOGSIZE, MAXOPBLOCKS]
        omega
      · omega
      · omega
    have marked := List.toFinset_card_le log.lh
    have more := Finset.card_insert_le blockno log.lh.toFinset
    have room₀ : Ledger.Room ⟨∅, log.lh.toFinset⟩ := by
      simp only [Ledger.Room, Finset.card_empty, NBUF, MAXOPBLOCKS]
      omega
    have room₁ : Ledger.Room ⟨insert blockno ∅, log.lh.toFinset⟩ := by
      simp only [Ledger.Room, insert_empty_eq, Finset.card_singleton, NBUF, MAXOPBLOCKS]
      omega
    have room₂ : Ledger.Room ⟨insert blockno ∅, insert blockno log.lh.toFinset⟩ := by
      simp only [Ledger.Room, insert_empty_eq, Finset.card_singleton, NBUF, MAXOPBLOCKS]
      omega
    have held : blockno ∈ insert blockno (∅ : Finset Nat) := Finset.mem_insert_self _ _
    have entries : (log.record blockno).lh.toFinset = insert blockno log.lh.toFinset := by
      ext b
      rw [Finset.mem_insert, List.mem_toFinset, List.mem_toFinset, Log.mem_record, or_comm]
    have within : (log.record blockno).lh.toFinset ⊆ few := by
      rw [entries]
      exact Finset.insert_subset member logged
    have later := ih within (Log.record_nodup distinct blockno) opened
      (by simp only [LOGSIZE, MAXOPBLOCKS]; exact size)
      fun w later => valid w (List.mem_cons_of_mem _ later)
    have absent : blockno ∉ (∅ : Finset Nat) := Finset.notMem_empty _
    refine follows_perform (r := ⟨⟨insert blockno ∅, log.lh.toFinset⟩, log⟩)
      ⟨rfl, room₀, ⟨absent, inside⟩, rfl⟩ fun _ => ?_
    refine follows_perform (r := ⟨⟨insert blockno ∅, log.lh.toFinset⟩, log⟩)
      ⟨rfl, room₁, held, rfl⟩ fun _ => ?_
    refine follows_perform
      (r := ⟨⟨insert blockno ∅, insert blockno log.lh.toFinset⟩, log.record blockno⟩)
      ⟨rfl, room₁, held, accepted⟩ fun _ => ?_
    refine follows_perform (r := ⟨⟨∅, (log.record blockno).lh.toFinset⟩, log.record blockno⟩)
      ⟨?_, room₂, held, rfl⟩ fun _ => later
    simp only [Ledger.after, entries, insert_empty_eq, Finset.erase_singleton]

/-- On the store the operation writes its blocks. -/
theorem writeBlocks_spec {s : Store} (settled : ∀ b, s.unlogged b = false) (writes : List (Nat × Block)) :
    wp (Store.handler (recording true)) (writeBlocks writes)
      (fun _ t => (∀ b, t.unlogged b = false) ∧ t.blocks = apply s.blocks writes) (fun _ => False) s := by
  induction writes generalizing s with
  | nil => exact ⟨settled, rfl⟩
  | cons write rest ih =>
    obtain ⟨blockno, contents⟩ := write
    have recorded : ∀ b, ((s.modified blockno fun _ => contents).record blockno).unlogged b = false := by
      intro b
      simp only [Store.record, Store.logged, Store.modified, Function.update_apply]
      split
      · rfl
      · exact settled b
    rw [writeBlocks, Store.wp_bread, Store.wp_modify, Store.wp_logWrite_recording,
      Store.wp_brelse (.inr (recorded blockno))]
    exact ih recorded

/-- On the store a read answers with the current contents. -/
theorem readBlock_spec {s : Store} (settled : ∀ b, s.unlogged b = false) (blockno : Nat) :
    wp (Store.handler (recording true)) (readBlock blockno)
      (fun data t => data = s.blocks blockno ∧ t = s) (fun _ => False) s := by
  rw [readBlock, Store.wp_bread, Store.wp_brelse (.inr (settled blockno)), wp_pure]
  exact ⟨rfl, rfl⟩

namespace Resting

variable [DecidableEq π] {p : π} {area : Log} {m : Machine π}

/-- Code that the machine executes while it rests does what it does on the machine's store. -/
theorem executes {α : Type} {code : Kernel α} {value : α} {m' : Machine π} {post : α → Store → Prop}
    (rest : Resting p area m) (returned : m.exec p code = .ok (value, m'))
    (spec : wp (Store.handler (recording true)) code post (fun _ => False) m.store) :
    ∃ t, post value t ∧ Implements p m' t := by
  rcases (rest.coherent.implements p).runsAmid (.of_run code returned) with ⟨t, ideal, after⟩ | ⟨_, stopped⟩
  · exact ⟨t, wp_ok spec ideal, after⟩
  · exact (wp_error spec stopped).elim

/-- The writes of an operation that was admitted while the log was short. -/
theorem writes (rest : Resting p area m) (opened : m.log.outstanding = 1)
    (short : m.log.lh.length ≤ MAXOPBLOCKS) (fits : area.Fits) {writes : List (Nat × Block)}
    (valid : (LogCommand.op writes).Valid area) :
    ∃ m', m.exec p (writeBlocks writes) = .ok ((), m') ∧ Resting p area m' ∧
      m'.log.outstanding = 1 ∧ m'.log.lh.length ≤ 2 * MAXOPBLOCKS ∧
      m'.contents = apply m.contents writes := by
  have union := Finset.card_union_le m.log.lh.toFinset (writes.map Prod.fst).toFinset
  have old := List.toFinset_card_le m.log.lh
  have new := valid.2
  have bound : (m.log.lh.toFinset ∪ (writes.map Prod.fst).toFinset).card ≤ 2 * MAXOPBLOCKS := by omega
  have size : LOGSIZE ≤ m.log.size := by
    rw [rest.size]
    exact fits.size
  have blocks : ∀ write ∈ writes,
      write.1 ∈ m.log.lh.toFinset ∪ (writes.map Prod.fst).toFinset ∧ write.1 < FSSIZE := by
    intro write member
    have named : write.1 ∈ (writes.map Prod.fst).toFinset :=
      List.mem_toFinset.mpr (List.mem_map_of_mem member)
    exact ⟨Finset.mem_union_right _ named, (valid.1 write member).2⟩
  have follows := follows_writeBlocks bound Finset.subset_union_left rest.nodup opened size blocks
  obtain ⟨_, m', returned, r, rfl, tallied, log⟩ := Books.runs follows rest.tallied rfl
  obtain ⟨t, ⟨settled, contents⟩, after⟩ := rest.executes returned (writeBlocks_spec (fun _ => rfl) writes)
  have entries := Log.recordAll_eq m.log (writes.map Prod.fst)
  have members : ∀ b ∈ m'.log.lh, b ∈ m.log.lh ∨ b ∈ writes.map Prod.fst := by
    intro b member
    rw [log] at member
    exact Log.mem_recordAll.mp member
  have distinct : m'.log.lh.Nodup := by
    rw [log]
    exact Log.recordAll_nodup rest.nodup _
  refine ⟨m', returned, ⟨?_, after.coherent settled, distinct, ?_, ?_, ?_, ?_⟩, ?_, ?_, ?_⟩
  · rw [log]
    exact tallied
  · rw [log, entries]
    exact rest.start
  · rw [log, entries]
    exact rest.size
  · intro b member
    rcases members b member with before | now
    · exact rest.placed b before
    · obtain ⟨write, written, rfl⟩ := List.mem_map.mp now
      exact valid.1 write written
  · rw [log, entries]
    exact rest.committing
  · rw [log, entries]
    exact opened
  · rw [← List.toFinset_card_of_nodup distinct]
    refine (Finset.card_le_card ?_).trans bound
    intro b member
    rw [Finset.mem_union, List.mem_toFinset, List.mem_toFinset]
    exact members b (List.mem_toFinset.mp member)
  · rw [after.contents settled]
    exact contents

/-- A read between operations. -/
theorem reads (rest : Resting p area m) (short : m.log.lh.length ≤ MAXOPBLOCKS) {blockno : Nat}
    (inside : blockno < FSSIZE) :
    ∃ m', m.exec p (readBlock blockno) = .ok (m.contents blockno, m') ∧ Resting p area m' ∧
      m'.log = m.log ∧ m'.contents = m.contents := by
  have marked := List.toFinset_card_le m.log.lh
  have follows : Program.Follows Books.Step (fun _ r => r = ⟨⟨∅, m.log.lh.toFinset⟩, m.log⟩)
      (readBlock blockno) ⟨⟨∅, m.log.lh.toFinset⟩, m.log⟩ := by
    have absent : blockno ∉ (∅ : Finset Nat) := Finset.notMem_empty _
    simp only [MAXOPBLOCKS] at short
    have room₀ : Ledger.Room ⟨∅, m.log.lh.toFinset⟩ := by
      simp only [Ledger.Room, Finset.card_empty, NBUF, MAXOPBLOCKS]
      omega
    have room₁ : Ledger.Room ⟨insert blockno ∅, m.log.lh.toFinset⟩ := by
      simp only [Ledger.Room, insert_empty_eq, Finset.card_singleton, NBUF, MAXOPBLOCKS]
      omega
    refine follows_perform (r := ⟨⟨insert blockno ∅, m.log.lh.toFinset⟩, m.log⟩)
      ⟨rfl, room₀, ⟨absent, inside⟩, rfl⟩ fun _ => ?_
    refine follows_perform (r := ⟨⟨∅, m.log.lh.toFinset⟩, m.log⟩)
      ⟨?_, room₁, Finset.mem_insert_self _ _, rfl⟩ fun _ => rfl
    simp only [Ledger.after, insert_empty_eq, Finset.erase_singleton]
  obtain ⟨data, m', returned, r, rfl, tallied, log⟩ := Books.runs follows rest.tallied rfl
  obtain ⟨t, ⟨rfl, rfl⟩, after⟩ := rest.executes returned (readBlock_spec (fun _ => rfl) blockno)
  refine ⟨m', returned, ?_, log, after.contents fun _ => rfl⟩
  refine ⟨?_, after.coherent fun _ => rfl, ?_, ?_, ?_, ?_, ?_⟩ <;> rw [log]
  · exact tallied
  · exact rest.nodup
  · exact rest.start
  · exact rest.size
  · exact rest.placed
  · exact rest.committing

/-- A commit leaves the log empty and the contents outside the log area as they were. -/
theorem commits (rest : Resting p area m) (few : m.log.lh.length ≤ 2 * MAXOPBLOCKS) (fits : area.Fits)
    (log : Log) (start : log.start = m.log.start) (size : log.size = m.log.size)
    (lh : log.lh = m.log.lh) :
    ∃ m', ({ m with log } : Machine π).commitAndClear p = .ok m' ∧ Resting p area m' ∧
      m'.log.lh = [] ∧ m'.log.outstanding = log.outstanding ∧
      ∀ b, ¬area.Area b → m'.contents b = m.contents b := by
  have marked := List.toFinset_card_le m.log.lh
  have placed : log.Placed := by
    constructor
    · have room := fits.size
      rw [lh, size, rest.size]
      simp only [LOGSIZE, MAXOPBLOCKS] at few room
      omega
    · intro b member
      rw [lh] at member
      have outside := (rest.placed b member).1
      unfold Log.Area at outside ⊢
      rw [start, size, rest.start, rest.size]
      exact outside
  have begun : Tallied p ⟨∅, log.lh.toFinset⟩ ({ m with log } : Machine π) := by
    rw [lh]
    exact rest.tallied.congr rfl
  have room : (∅ : Finset Nat).card + 2 + log.lh.toFinset.card < NBUF := by
    rw [lh, Finset.card_empty]
    simp only [MAXOPBLOCKS, NBUF] at few ⊢
    omega
  have run := begun.commit (Finset.Subset.refl _) room True fun _ => by
    refine ⟨rfl, ?_, placed, ?_⟩
    · have inside := fits.inside
      have length := placed.room
      rw [size, rest.size] at length
      rw [start, rest.start]
      omega
    · intro b member
      rw [lh] at member
      exact (rest.placed b member).2
  cases result : ({ m with log } : Machine π).exec p (commit log) with
  | error reason => exact absurd trivial (wp_error run result).1
  | ok passed =>
    obtain ⟨cleared, m'⟩ := passed
    obtain ⟨rfl, held, none_held, tallied⟩ := wp_ok run result
    obtain ⟨coherent, _, contents⟩ := rest.coherent.commit placed (.of_run _ result)
    have empty : held = ∅ := Finset.subset_empty.mp none_held
    refine ⟨{ m' with log := { log.clear with committing := false } }, ?_, ?_, rfl, rfl, ?_⟩
    · unfold Machine.commitAndClear
      rw [result]
    · refine ⟨?_, ⟨coherent.wf, coherent.clean⟩, List.nodup_nil, start.trans rest.start,
        size.trans rest.size, fun b member => absurd member List.not_mem_nil, rfl⟩
      rw [empty] at tallied
      exact tallied.congr rfl
    · intro b outside
      apply contents b
      unfold Log.Area at outside ⊢
      rw [start, size, rest.start, rest.size]
      exact outside

end Resting

/-! ## Both logs are the flat array -/

section Between

variable {p : π} {area : Log} {m : Machine π}

/-- The machine rests between operations, with at most `bound` logged blocks. -/
def Between (p : π) (area : Log) (bound : Nat) (m : Machine π) : Prop :=
  Resting p area m ∧ m.log.outstanding = 0 ∧ m.log.lh.length ≤ bound

/-- With a counter of the log changed the machine still rests. -/
theorem Resting.counters (rest : Resting p area m) (log : Log) (start : log.start = m.log.start)
    (size : log.size = m.log.size) (lh : log.lh = m.log.lh) (committing : log.committing = false) :
    Resting p area { m with log } where
  tallied := by
    rw [lh]
    exact rest.tallied.congr rfl
  coherent := ⟨rest.coherent.wf, rest.coherent.clean⟩
  nodup := by
    rw [lh]
    exact rest.nodup
  start := start.trans rest.start
  size := size.trans rest.size
  placed := by
    rw [lh]
    exact rest.placed
  committing := committing

/-- A fresh machine whose cache has nothing that is not on disk is between operations. -/
theorem Machine.Fresh.between (fresh : m.Fresh) (coherent : m.Coherent) (p : π) :
    Between p m.log 0 m := by
  obtain ⟨held, few, tallied⟩ := (fresh.sized p).tallied
  have none_held : held = ∅ := by
    rw [Finset.eq_empty_iff_forall_notMem]
    intro b member
    obtain ⟨i, locked, _⟩ := (tallied.held b).mp member
    rw [(fresh.idle i).1] at locked
    contradiction
  rw [none_held] at tallied
  refine ⟨⟨tallied, coherent, ?_, rfl, rfl, ?_, fresh.committing⟩, fresh.outstanding, ?_⟩
  · rw [fresh.empty]
    exact List.nodup_nil
  · intro b member
    rw [fresh.empty] at member
    exact absurd member List.not_mem_nil
  · rw [fresh.empty]
    exact Nat.le_refl _

end Between

section Policies

variable [DecidableEq π] {p : π} {area : Log} {m : Machine π}

/-- The contents outside the log area. -/
def AgreeOutside (area : Log) (blocks blocks' : Nat → Block) : Prop :=
  ∀ b, ¬area.Area b → blocks b = blocks' b

/-- Every valid operation is admitted, returns, and has written its blocks. -/
def LogPolicy.Works (policy : LogPolicy π) (p : π) (area : Log) (bound : Nat) : Prop :=
  ∀ m writes, Between p area bound m → (LogCommand.op writes).Valid area →
    ∃ m', execOp policy p writes m = .ok m' ∧ Between p area bound m' ∧
      AgreeOutside area m'.contents (apply m.contents writes)

/-- The deferred log works while at most `MAXOPBLOCKS` blocks are logged between operations. -/
theorem deferred_works (fits : area.Fits) : (deferredLog : LogPolicy π).Works p area MAXOPBLOCKS := by
  rintro m writes ⟨rest, closed, short⟩ valid
  have marked := List.toFinset_card_le m.log.lh
  have spare : m.cache.isBufFull = false := by
    apply rest.tallied.isBufFull
    simp only [Finset.card_empty, MAXOPBLOCKS, NBUF] at short ⊢
    omega
  have admitted : m.beginOp = some { m with log := { m.log with outstanding := 1 } } := by
    unfold Machine.beginOp
    rw [spare, Log.beginOp_room rest.committing closed short]
    rfl
  have begun := rest.counters { m.log with outstanding := 1 } rfl rfl rfl rest.committing
  obtain ⟨m', returned, rest', opened, few, contents⟩ := begun.writes rfl short fits valid
  obtain ⟨doCommit, ended, room⟩ := Log.endOp_last rest'.committing opened m'.cache.isBufFull
  have executed : execOp deferredLog p writes m = m'.endOp p := by
    simp only [execOp, deferredLog, admitted, returned]
  rw [executed]
  unfold Machine.endOp
  rw [ended]
  cases doCommit with
  | true =>
    obtain ⟨m'', committed, rest'', empty, counter, kept⟩ :=
      rest'.commits few fits { m'.log with outstanding := 0, committing := true } rfl rfl rfl
    refine ⟨m'', committed, ⟨rest'', counter, by rw [empty]; exact Nat.zero_le _⟩, ?_⟩
    intro b outside
    rw [kept b outside, contents]
    rfl
  | false =>
    refine ⟨_, rfl, ⟨rest'.counters _ rfl rfl rfl rfl, rfl, room rfl⟩, ?_⟩
    intro b _
    change m'.contents b = _
    rw [contents]
    rfl

/-- The write-through log works with an empty log between operations. -/
theorem writeThrough_works (fits : area.Fits) : (writeThroughLog : LogPolicy π).Works p area 0 := by
  rintro m writes ⟨rest, closed, short⟩ valid
  have empty : m.log.lh = [] := List.length_eq_zero_iff.mp (Nat.le_zero.mp short)
  have admitted : m.beginOp2 = some { m with log := { m.log with outstanding := 1 } } := by
    unfold Machine.beginOp2
    rw [Log.beginOp2_empty rest.committing closed empty]
    rfl
  have begun := rest.counters { m.log with outstanding := 1 } rfl rfl rfl rest.committing
  obtain ⟨m', returned, rest', opened, few, contents⟩ :=
    begun.writes rfl (Nat.le_trans short (Nat.zero_le _)) fits valid
  have executed : execOp writeThroughLog p writes m = m'.endOp2 p := by
    simp only [execOp, writeThroughLog, admitted, returned]
  obtain ⟨m'', committed, rest'', cleared, counter, kept⟩ :=
    rest'.commits few fits { m'.log with outstanding := 0, committing := true } rfl rfl rfl
  refine ⟨m'', ?_, ⟨rest'', counter, by rw [cleared]; exact Nat.le_refl _⟩, ?_⟩
  · rw [executed]
    unfold Machine.endOp2
    rw [Log.endOp2_last rest'.committing opened]
    exact committed
  · intro b outside
    rw [kept b outside, contents]
    rfl

/-- Two reads of one block, with the same answer outside the log area. -/
def SameRead (area : Log) (left right : Nat × Block) : Prop :=
  left.1 = right.1 ∧ (¬area.Area left.1 → left.2 = right.2)

/-- Writing the same blocks keeps agreement. -/
theorem AgreeOutside.apply {blocks blocks' : Nat → Block} (agree : AgreeOutside area blocks blocks')
    (writes : List (Nat × Block)) :
    AgreeOutside area (apply blocks writes) (apply blocks' writes) := by
  induction writes generalizing blocks blocks' with
  | nil => exact agree
  | cons write rest ih =>
    apply ih
    intro b outside
    change Function.update blocks write.1 write.2 b = Function.update blocks' write.1 write.2 b
    by_cases here : b = write.1
    · rw [here, Function.update_self, Function.update_self]
    · rw [Function.update_of_ne here, Function.update_of_ne here]
      exact agree b outside

/-- Under a log that works, commands return what the flat array returns and leave what it
leaves. -/
theorem LogPolicy.Works.commands {policy : LogPolicy π} {bound : Nat}
    (works : policy.Works p area bound) (few : bound ≤ MAXOPBLOCKS) {commands : List LogCommand}
    (valid : ∀ command ∈ commands, command.Valid area) {blocks : Nat → Block}
    (between : Between p area bound m) (agree : AgreeOutside area m.contents blocks) :
    ∃ answers m', execCommands policy p commands m = .ok (answers, m') ∧
      List.Forall₂ (SameRead area) answers (flatCommands commands blocks).1 ∧
      Between p area bound m' ∧ AgreeOutside area m'.contents (flatCommands commands blocks).2 := by
  induction commands generalizing m blocks with
  | nil => exact ⟨[], m, rfl, .nil, between, agree⟩
  | cons command rest ih =>
    have later : ∀ command ∈ rest, command.Valid area := fun command member =>
      valid command (List.mem_cons_of_mem _ member)
    cases command with
    | op writes =>
      obtain ⟨m', executed, between', written⟩ := works m writes between (valid _ List.mem_cons_self)
      have agree' : AgreeOutside area m'.contents (apply blocks writes) := by
        intro b outside
        rw [written b outside]
        exact agree.apply writes b outside
      obtain ⟨answers, m'', returned, same⟩ := ih later between' agree'
      refine ⟨answers, m'', ?_, same⟩
      rw [execCommands, executed]
      exact returned
    | read blockno =>
      obtain ⟨resting, closed, short⟩ := between
      obtain ⟨m', returned, rest', log, contents⟩ :=
        resting.reads (Nat.le_trans short few) (valid _ List.mem_cons_self)
      have between' : Between p area bound m' := by
        refine ⟨rest', ?_, ?_⟩
        · rw [log]
          exact closed
        · rw [log]
          exact short
      obtain ⟨answers, m'', executed, same, after⟩ := ih later between' (by rw [contents]; exact agree)
      refine ⟨(blockno, m.contents blockno) :: answers, m'', ?_, ?_, after⟩
      · rw [execCommands, returned]
        simp only [executed]
        rfl
      · exact .cons ⟨rfl, agree blockno⟩ same

/-- Answers that are both those of the flat array are the same. -/
theorem sameReads {first second flat : List (Nat × Block)}
    (left : List.Forall₂ (SameRead area) first flat) (right : List.Forall₂ (SameRead area) second flat) :
    List.Forall₂ (SameRead area) first second := by
  induction left generalizing second with
  | nil =>
    cases right
    exact .nil
  | cons same _ ih =>
    cases right with
    | cons same' rest =>
      refine .cons ⟨same.1.trans same'.1.symm, fun outside => ?_⟩ (ih rest)
      have outside' := outside
      rw [same.1, ← same'.1] at outside'
      rw [same.2 outside, same'.2 outside']

/-- The deferred log refines the write-through log. From one fresh machine every sequence of
valid operations and reads returns under both logs; reads of blocks outside the log area answer
alike; and after a last `sync` the disks agree outside the log area and the log is empty. -/
theorem deferred_refines_writeThrough (fresh : m.Fresh) (coherent : m.Coherent)
    (inside : m.log.start + m.log.size ≤ FSSIZE) {commands : List LogCommand}
    (valid : ∀ command ∈ commands, command.Valid m.log) (p : π) :
    ∃ answers m₃ m₃' answers' m₂,
      execCommands deferredLog p commands m = .ok (answers, m₃) ∧ m₃.sync p = .ok m₃' ∧
        execCommands writeThroughLog p commands m = .ok (answers', m₂) ∧
        List.Forall₂ (SameRead m.log) answers answers' ∧
        (∀ b, ¬m.log.Area b → m₃'.disk b = m₂.disk b) ∧ m₃'.log.lh = [] := by
  have fits : m.log.Fits := ⟨fresh.size, inside⟩
  obtain ⟨rest, closed, empty⟩ := fresh.between coherent p
  have short : m.log.lh.length ≤ MAXOPBLOCKS := Nat.le_trans empty (Nat.zero_le _)
  obtain ⟨answers, m₃, run₃, same₃, ⟨rest₃, _, short₃⟩, agree₃⟩ :=
    (deferred_works fits).commands (Nat.le_refl _) valid ⟨rest, closed, short⟩ fun _ _ => rfl
  obtain ⟨answers', m₂, run₂, same₂, ⟨rest₂, _, short₂⟩, agree₂⟩ :=
    (writeThrough_works fits).commands (Nat.zero_le _) valid ⟨rest, closed, empty⟩ fun _ _ => rfl
  have few : m₃.log.lh.length ≤ 2 * MAXOPBLOCKS := by omega
  obtain ⟨m₃', synced, rest₃', cleared, _, kept⟩ :=
    rest₃.commits few fits { m₃.log with committing := true } rfl rfl rfl
  have empty₂ : m₂.log.lh = [] := List.length_eq_zero_iff.mp (Nat.le_zero.mp short₂)
  refine ⟨answers, m₃, m₃', answers', m₂, run₃, synced, run₂, sameReads same₃ same₂, ?_, cleared⟩
  intro b outside
  calc m₃'.disk b
      _ = m₃'.contents b := (rest₃'.synced (by rw [cleared]; exact List.not_mem_nil)).symm
      _ = m₃.contents b := kept b outside
      _ = m₂.contents b := by rw [agree₃ b outside, agree₂ b outside]
      _ = m₂.disk b := rest₂.synced (by rw [empty₂]; exact List.not_mem_nil)

end Policies

/-! ## One operation and a read -/

/-- A block of ones. -/
def onesBlock : Block := fun _ => 1

/-- Inside the log area the logs differ: after one operation the first block after the header
has the copy of the written block under the write-through log only. -/
theorem logArea_reads_differ :
    ∃ answers m₃ answers' m₂,
      execCommands deferredLog () [.op [(100, onesBlock)], .read 3] (bootedMachine fun _ => Block.zero) =
        .ok (answers, m₃) ∧
      execCommands writeThroughLog () [.op [(100, onesBlock)], .read 3]
        (bootedMachine fun _ => Block.zero) = .ok (answers', m₂) ∧
      answers.map (fun answer => answer.2.byte 0) = [0] ∧
      answers'.map (fun answer => answer.2.byte 0) = [1] :=
  ⟨_, _, _, _, rfl, rfl, rfl, rfl⟩

/-- One operation and a read of the block it writes. -/
theorem deferred_refines_writeThrough_one :
    ∃ answers m₃ m₃' answers' m₂,
      execCommands deferredLog () [.op [(100, onesBlock)], .read 100]
        (bootedMachine fun _ => Block.zero) = .ok (answers, m₃) ∧ m₃.sync () = .ok m₃' ∧
      execCommands writeThroughLog () [.op [(100, onesBlock)], .read 100]
        (bootedMachine fun _ => Block.zero) = .ok (answers', m₂) ∧
      List.Forall₂ (SameRead (bootedMachine fun _ => Block.zero).log) answers answers' ∧
      (∀ b, ¬(bootedMachine fun _ => Block.zero).log.Area b → m₃'.disk b = m₂.disk b) ∧
      m₃'.log.lh = [] := by
  apply deferred_refines_writeThrough (booted_fresh _) (Machine.coherent_empty _ _) (by decide)
  intro command member
  simp only [List.mem_cons, List.not_mem_nil, or_false] at member
  rcases member with rfl | rfl
  · refine ⟨?_, by decide⟩
    intro write here
    rw [List.mem_singleton.mp here]
    decide
  · exact (by decide : 100 < FSSIZE)

end Xv6
