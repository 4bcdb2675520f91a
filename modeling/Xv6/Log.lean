import Xv6.Buffer

/-!
# The redo log

`log.c` of project 3. The log area on disk is a header block followed by copies of logged
blocks. A transaction's blocks are recorded in the in-memory header by `log_write`; `commit`
copies them to the log area, writes the header, installs the copies at home and erases the
header. Recovery installs whatever the header on disk names. Project 2 differs in its
admission test and in committing at every `end_op`.
-/

namespace Xv6

/-- `struct log`. The in-memory header `lh` is its list of `lh.n` block numbers. -/
structure Log where
  /-- First block of the log area: the header block. -/
  start : Nat
  /-- Number of blocks of the log area. -/
  size : Nat
  /-- How many file-system calls are executing. -/
  outstanding : Int
  /-- In `commit()`, please wait. -/
  committing : Bool
  /-- `lh.block[0 .. lh.n)`. -/
  lh : List Nat
  deriving DecidableEq, Repr

namespace Log

/-- The block lies in the log area. -/
def Area (log : Log) (blockno : Nat) : Prop :=
  log.start ≤ blockno ∧ blockno < log.start + log.size

instance (log : Log) (blockno : Nat) : Decidable (log.Area blockno) :=
  inferInstanceAs (Decidable (_ ∧ _))

/-- The loop of `log_write`: absorb a block already recorded, append a new one. -/
def record (log : Log) (blockno : Nat) : Log :=
  { log with lh := if blockno ∈ log.lh then log.lh else log.lh ++ [blockno] }

/-- `log_write`: the two panics, then the record. -/
def write (log : Log) (blockno : Nat) : Except Stop Log :=
  if LOGSIZE ≤ log.lh.length ∨ log.size - 1 ≤ log.lh.length then
    .error (.panic "too big a transaction")
  else if log.outstanding < 1 then .error (.panic "log_write outside of trans")
  else .ok (log.record blockno)

/-- What a `log_write` that returned found and did. -/
theorem write_ok {log log' : Log} {blockno : Nat} (accepted : log.write blockno = .ok log') :
    log.lh.length < LOGSIZE ∧ log.lh.length < log.size - 1 ∧ 1 ≤ log.outstanding ∧
      log' = log.record blockno := by
  unfold write at accepted
  split at accepted
  · contradiction
  · rename_i room
    split at accepted
    · contradiction
    · rename_i inside
      cases accepted
      exact ⟨by omega, by omega, by omega, rfl⟩

/-- A `log_write` in an operation while the log has room. -/
theorem write_record {log : Log} (header : log.lh.length < LOGSIZE) (area : log.lh.length < log.size - 1)
    (opened : 1 ≤ log.outstanding) (blockno : Nat) : log.write blockno = .ok (log.record blockno) := by
  unfold write
  rw [if_neg (by omega), if_neg (by omega)]

/-- Recording adds one entry at most. -/
theorem record_length (log : Log) (blockno : Nat) :
    (log.record blockno).lh.length ≤ log.lh.length + 1 := by
  unfold record
  by_cases absorbed : blockno ∈ log.lh
  · simp only [absorbed, ↓reduceIte]
    omega
  · simp only [absorbed, ↓reduceIte, List.length_append, List.length_singleton]
    exact Nat.le_refl _

/-- A recorded block is among the entries. -/
theorem mem_record {log : Log} {blockno b : Nat} :
    b ∈ (log.record blockno).lh ↔ b ∈ log.lh ∨ b = blockno := by
  unfold record
  by_cases absorbed : blockno ∈ log.lh
  · simp only [absorbed, ↓reduceIte]
    exact ⟨.inl, fun either => either.elim id fun same => same ▸ absorbed⟩
  · simp only [absorbed, ↓reduceIte, List.mem_append, List.mem_singleton]

/-- Recording keeps the entries distinct. -/
theorem record_nodup {log : Log} (distinct : log.lh.Nodup) (blockno : Nat) :
    (log.record blockno).lh.Nodup := by
  unfold record
  by_cases absorbed : blockno ∈ log.lh
  · simp only [absorbed, ↓reduceIte]
    exact distinct
  · simp only [absorbed, ↓reduceIte]
    rw [List.nodup_append]
    refine ⟨distinct, List.pairwise_singleton _ blockno, ?_⟩
    intro b member c single same
    rw [List.mem_singleton] at single
    rw [same, single] at member
    exact absorbed member

/-- Several blocks recorded in order. -/
def recordAll (log : Log) (blocks : List Nat) : Log := blocks.foldl record log

/-- Recording several blocks changes the entries only. -/
theorem recordAll_eq (log : Log) (blocks : List Nat) :
    log.recordAll blocks = { log with lh := (log.recordAll blocks).lh } := by
  induction blocks generalizing log with
  | nil => rfl
  | cons blockno rest ih =>
    have later := ih (log.record blockno)
    unfold recordAll at later ⊢
    rw [List.foldl_cons]
    exact later

/-- The entries after recording several blocks. -/
theorem mem_recordAll {log : Log} {blocks : List Nat} {b : Nat} :
    b ∈ (log.recordAll blocks).lh ↔ b ∈ log.lh ∨ b ∈ blocks := by
  induction blocks generalizing log with
  | nil => simp [recordAll]
  | cons blockno rest ih =>
    have later := @ih (log.record blockno)
    unfold recordAll at later ⊢
    rw [List.foldl_cons, later, mem_record, List.mem_cons, or_assoc]

/-- Recording several blocks keeps the entries distinct. -/
theorem recordAll_nodup {log : Log} (distinct : log.lh.Nodup) (blocks : List Nat) :
    (log.recordAll blocks).lh.Nodup := by
  induction blocks generalizing log with
  | nil => exact distinct
  | cons blockno rest ih => exact ih (record_nodup distinct blockno)

/-- The admission arithmetic shared by `begin_op` and `end_op`. -/
def nearlyFull (log : Log) (bufFull : Bool) : Prop :=
  bufFull = true ∨ log.lh.length + (log.outstanding + 2) * MAXOPBLOCKS > LOGSIZE

instance (log : Log) (bufFull : Bool) : Decidable (log.nearlyFull bufFull) :=
  inferInstanceAs (Decidable (_ ∨ _))

/-- One pass of the loop of `begin_op`; `none` when the caller goes to sleep. -/
def beginOp (log : Log) (bufFull : Bool) : Option Log :=
  if log.committing then none
  else if log.outstanding > 0 ∨ log.nearlyFull bufFull then none
  else some { log with outstanding := log.outstanding + 1 }

/-- The locked part of `end_op`, returning `do_commit`. Without a commit it wakes the
sleepers of `begin_op`. -/
def endOp (log : Log) (bufFull : Bool) : Except Stop (Log × Bool) :=
  let log := { log with outstanding := log.outstanding - 1 }
  if log.committing then .error (.panic "log.committing")
  else if log.outstanding = 0 ∧ log.nearlyFull bufFull then
    .ok ({ log with committing := true }, true)
  else .ok (log, false)

/-- What a `begin_op` that does not sleep found and did. -/
theorem beginOp_some {log log' : Log} {bufFull : Bool} (admitted : log.beginOp bufFull = some log') :
    log.committing = false ∧ log.outstanding ≤ 0 ∧ ¬log.nearlyFull bufFull ∧
      log' = { log with outstanding := log.outstanding + 1 } := by
  unfold beginOp at admitted
  split at admitted
  · contradiction
  · rename_i idle
    split at admitted
    · contradiction
    · rename_i room
      cases admitted
      rw [not_or] at room
      exact ⟨Bool.eq_false_of_not_eq_true idle, Int.not_lt.mp room.1, room.2, rfl⟩

/-- What an `end_op` that does not panic found and did. -/
theorem endOp_ok {log log' : Log} {bufFull doCommit : Bool}
    (ended : log.endOp bufFull = .ok (log', doCommit)) :
    log.committing = false ∧
      log' = { log with outstanding := log.outstanding - 1, committing := doCommit } ∧
      (doCommit = true ↔ log.outstanding - 1 = 0 ∧
        ({ log with outstanding := log.outstanding - 1 } : Log).nearlyFull bufFull) := by
  unfold endOp at ended
  simp only at ended
  split at ended
  · contradiction
  · rename_i idle
    have quiet := Bool.eq_false_of_not_eq_true idle
    split at ended
    · rename_i full
      cases ended
      exact ⟨quiet, rfl, fun _ => full, fun _ => rfl⟩
    · rename_i room
      cases ended
      exact ⟨quiet, by rw [quiet], fun asked => absurd asked Bool.false_ne_true, fun full => absurd full room⟩

/-- `begin_op` admits the first operation while the log and the cache have room. -/
theorem beginOp_room {log : Log} (committing : log.committing = false) (outstanding : log.outstanding = 0)
    (short : log.lh.length ≤ MAXOPBLOCKS) :
    log.beginOp false = some { log with outstanding := 1 } := by
  have room : ¬(log.outstanding > 0 ∨ log.nearlyFull false) := by
    unfold nearlyFull
    simp only [outstanding, MAXOPBLOCKS, LOGSIZE] at short ⊢
    simp only [Bool.false_eq_true, false_or]
    omega
  unfold beginOp
  rw [committing, if_neg Bool.false_ne_true, if_neg room, outstanding]
  rfl

/-- `end_op` of the only open operation. -/
theorem endOp_last {log : Log} (committing : log.committing = false) (opened : log.outstanding = 1)
    (bufFull : Bool) :
    ∃ doCommit, log.endOp bufFull = .ok ({ log with outstanding := 0, committing := doCommit }, doCommit) ∧
      (doCommit = false → log.lh.length ≤ MAXOPBLOCKS) := by
  unfold endOp
  simp only [committing, opened, Bool.false_eq_true, ↓reduceIte, Int.sub_self, true_and]
  by_cases full : ({ log with outstanding := 0 } : Log).nearlyFull bufFull
  · refine ⟨true, ?_, fun no => absurd no.symm Bool.false_ne_true⟩
    simp only [committing] at full
    rw [if_pos full]
  · refine ⟨false, ?_, fun _ => ?_⟩
    · simp only [committing] at full
      rw [if_neg full]
    · unfold nearlyFull at full
      simp only [LOGSIZE, MAXOPBLOCKS] at full ⊢
      omega

/-- `begin_op` of project 2. -/
def beginOp2 (log : Log) : Option Log :=
  if log.committing then none
  else if log.lh.length + (log.outstanding + 1) * MAXOPBLOCKS > LOGSIZE then none
  else some { log with outstanding := log.outstanding + 1 }

/-- `begin_op` of project 2 admits the first operation into an empty log. -/
theorem beginOp2_empty {log : Log} (committing : log.committing = false) (outstanding : log.outstanding = 0)
    (empty : log.lh = []) : log.beginOp2 = some { log with outstanding := 1 } := by
  unfold beginOp2
  rw [committing, outstanding, empty]
  rfl

/-- The locked part of `end_op` of project 2. -/
def endOp2 (log : Log) : Except Stop (Log × Bool) :=
  let log := { log with outstanding := log.outstanding - 1 }
  if log.committing then .error (.panic "log.committing")
  else if log.outstanding = 0 then .ok ({ log with committing := true }, true)
  else .ok (log, false)

/-- `end_op` of project 2, of the only open operation. -/
theorem endOp2_last {log : Log} (committing : log.committing = false) (opened : log.outstanding = 1) :
    log.endOp2 = .ok ({ log with outstanding := 0, committing := true }, true) := by
  unfold endOp2
  rw [committing, opened]
  rfl

end Log

/-! ## The header block -/

/-- `hb->block[i] = ...` for the entries from index `i` on. -/
def putEntries (data : Block) (i : Nat) : List Nat → Block
  | [] => data
  | blockno :: rest => putEntries (data.setWord (i + 1) blockno) (i + 1) rest

/-- `hb->n = lh.n` and its entries, stored into the header buffer. -/
def putHeader (lh : List Nat) (data : Block) : Block :=
  putEntries (data.setWord 0 lh.length) 0 lh

/-- `lh->n` as a signed number; a negative count reads no entry. -/
def headerCount (data : Block) : Nat := if data.word 0 < 2 ^ 31 then data.word 0 else 0

/-- The entries that `read_head` copies. -/
def getHeader (data : Block) : List Nat :=
  (List.range (headerCount data)).map fun i => data.word (i + 1)

/-! ## Commit and recovery -/

/-- The loop of `install_trans` from index `tail` on. -/
def installFrom (start tail : Nat) : List Nat → Kernel Unit
  | [] => pure ()
  | blockno :: rest => do
    let logged ← bread (start + tail + 1)
    let _ ← bread blockno
    modify blockno fun _ => logged
    bwrite blockno
    brelse (start + tail + 1)
    brelse blockno
    installFrom start (tail + 1) rest

/-- `install_trans`: copy committed blocks from the log to their home location. -/
def installTrans (log : Log) : Kernel Unit := installFrom log.start 0 log.lh

/-- `read_head`: the log header from disk into the in-memory header. -/
def readHead (log : Log) : Kernel Log := do
  let data ← bread log.start
  brelse log.start
  pure { log with lh := getHeader data }

/-- `write_head`: the in-memory header to disk, the true point of commit. -/
def writeHead (log : Log) : Kernel Unit := do
  let _ ← bread log.start
  modify log.start (putHeader log.lh)
  bwrite log.start
  brelse log.start

/-- The loop of `write_log` from index `tail` on. -/
def writeLogFrom (start tail : Nat) : List Nat → Kernel Unit
  | [] => pure ()
  | blockno :: rest => do
    let _ ← bread (start + tail + 1)
    let cached ← bread blockno
    modify (start + tail + 1) fun _ => cached
    bwrite (start + tail + 1)
    brelse blockno
    brelse (start + tail + 1)
    writeLogFrom start (tail + 1) rest

/-- `write_log`: copy modified blocks from the cache to the log. -/
def writeLog (log : Log) : Kernel Unit := writeLogFrom log.start 0 log.lh

/-- `log.lh.n = 0`. -/
def Log.clear (log : Log) : Log := { log with lh := [] }

/-- `commit`. -/
def commit (log : Log) : Kernel Log :=
  if 0 < log.lh.length then do
    writeLog log
    writeHead log
    installTrans log
    writeHead log.clear
    pure log.clear
  else pure log

/-- `recover_from_log`. -/
def recoverFromLog (log : Log) : Kernel Log := do
  let log ← readHead log
  installTrans log
  writeHead log.clear
  pure log.clear

/-! ## Header round trip -/

/-- Storing entries leaves the words before them. -/
theorem word_putEntries_before (data : Block) (lh : List Nat) {i j : Nat} (before : j ≤ i) :
    (putEntries data i lh).word j = data.word j := by
  induction lh generalizing data i with
  | nil => rfl
  | cons blockno rest ih =>
    rw [putEntries, ih _ (by omega), Block.word_setWord_ne _ _ (by omega)]

/-- The entries are read back in order. -/
theorem word_putEntries (data : Block) (lh : List Nat) {i : Nat}
    (room : i + lh.length < Block.words) (fits : ∀ blockno ∈ lh, blockno < 2 ^ 32)
    {k : Nat} (inside : k < lh.length) :
    (putEntries data i lh).word (i + k + 1) = lh[k] := by
  induction lh generalizing data i k with
  | nil => exact absurd inside (Nat.not_lt_zero _)
  | cons blockno rest ih =>
    simp only [List.length_cons] at room inside
    cases k with
    | zero =>
      rw [putEntries, word_putEntries_before _ _ (by omega),
        Block.word_setWord_same _ (by omega) (fits _ List.mem_cons_self)]
      rfl
    | succ k =>
      rw [putEntries, show i + (k + 1) + 1 = i + 1 + k + 1 by omega]
      exact ih _ (by omega) (fun b h => fits b (List.mem_cons_of_mem _ h)) (by omega)

/-- The count of a stored header. -/
theorem headerCount_putHeader (lh : List Nat) (data : Block) (room : lh.length < Block.words) :
    headerCount (putHeader lh data) = lh.length := by
  have bound : lh.length < 2 ^ 31 := Nat.lt_trans room (by decide)
  have stored : (putHeader lh data).word 0 = lh.length := by
    rw [putHeader, word_putEntries_before _ _ (Nat.le_refl 0),
      Block.word_setWord_same _ (by decide) (Nat.lt_trans bound (by decide))]
  simp only [headerCount, stored, bound, ↓reduceIte]

/-- A stored header is read back. -/
theorem getHeader_putHeader (lh : List Nat) (data : Block) (room : lh.length < Block.words)
    (fits : ∀ blockno ∈ lh, blockno < 2 ^ 32) : getHeader (putHeader lh data) = lh := by
  rw [getHeader, headerCount_putHeader lh data room]
  apply List.ext_getElem
  · simp
  · intro k _ inside
    have entry := word_putEntries (data.setWord 0 lh.length) lh (i := 0)
      (by simpa only [Nat.zero_add] using room) fits inside
    simp only [List.getElem_map, List.getElem_range]
    rw [Nat.zero_add] at entry
    exact entry

end Xv6
