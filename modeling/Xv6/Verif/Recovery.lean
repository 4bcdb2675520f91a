import Xv6.Store
import Xv6.Lib.Writes
import Xv6.Lib.Runs

/-!
# Crash atomicity of commit and recovery

Every routine of the log writes each block it changes to disk at once, so its effect is its
list of disk writes. A crash keeps a prefix of this list and loses the cache; recovery starts
from the disk that is left and may crash again. Three conditions on the disk cover every crash
point: nothing committed, committed and perhaps partly installed, installed and erased.
-/

namespace Xv6

open Program Writes

/-! ## Flushed writes -/

/-- From `s` to `t` the given blocks were changed and written to disk, in order. -/
structure Flushed (s t : Store) (writes : List (Nat × Block)) : Prop where
  /-- The cached contents follow. -/
  blocks : t.blocks = apply s.blocks writes
  disk : t.disk = apply s.disk writes
  /-- The disk writes are these. -/
  writes : t.writes = s.writes ++ writes
  log : t.log = s.log
  /-- No change is left unrecorded. -/
  unlogged : ∀ b, s.unlogged b = false → t.unlogged b = false

namespace Flushed

variable {s t u : Store}

/-- Nothing was written. -/
theorem refl (s : Store) : Flushed s s [] :=
  ⟨rfl, rfl, (List.append_nil _).symm, rfl, fun _ h => h⟩

/-- One list of writes after the other. -/
theorem trans {first second : List (Nat × Block)} (before : Flushed s t first)
    (after : Flushed t u second) : Flushed s u (first ++ second) where
  blocks := by rw [after.blocks, before.blocks, apply_append]
  disk := by rw [after.disk, before.disk, apply_append]
  writes := by rw [after.writes, before.writes, List.append_assoc]
  log := by rw [after.log, before.log]
  unlogged b h := after.unlogged b (before.unlogged b h)

/-- Changing one block and writing it. -/
theorem single (s : Store) (blockno : Nat) (update : Block → Block) :
    Flushed s ((s.modified blockno update).written blockno)
      [(blockno, update (s.blocks blockno))] := by
  have changed : (s.modified blockno update).blocks blockno = update (s.blocks blockno) :=
    Function.update_self _ _ _
  constructor
  · rfl
  · change Function.update s.disk blockno ((s.modified blockno update).blocks blockno) = _
    rw [changed]
    rfl
  · change s.writes ++ [(blockno, (s.modified blockno update).blocks blockno)] = _
    rw [changed]
  · rfl
  · intro b before
    simp only [Store.written, Store.modified, Function.update_apply]
    split
    · rfl
    · exact before

end Flushed

/-! ## The routines of the log -/

/-- The writes of `write_log` from index `tail` on. -/
def logWrites (blocks : Nat → Block) (start tail : Nat) : List Nat → List (Nat × Block)
  | [] => []
  | blockno :: rest => (start + tail + 1, blocks blockno) :: logWrites blocks start (tail + 1) rest

/-- The writes of `install_trans` from index `tail` on. -/
def homeWrites (blocks : Nat → Block) (start tail : Nat) : List Nat → List (Nat × Block)
  | [] => []
  | blockno :: rest =>
    (blockno, blocks (start + tail + 1)) :: homeWrites blocks start (tail + 1) rest

/-- `write_log` reads the logged blocks only. -/
theorem logWrites_congr {blocks blocks' : Nat → Block} {start tail : Nat} {lh : List Nat}
    (same : ∀ blockno ∈ lh, blocks' blockno = blocks blockno) :
    logWrites blocks' start tail lh = logWrites blocks start tail lh := by
  induction lh generalizing tail with
  | nil => rfl
  | cons blockno rest ih =>
    rw [logWrites, logWrites, same blockno List.mem_cons_self,
      ih fun b member => same b (List.mem_cons_of_mem _ member)]

/-- `install_trans` reads the copies in the log area only. -/
theorem homeWrites_congr {blocks blocks' : Nat → Block} {start tail : Nat} {lh : List Nat}
    (same : ∀ i, i < lh.length → blocks' (start + (tail + i) + 1) = blocks (start + (tail + i) + 1)) :
    homeWrites blocks' start tail lh = homeWrites blocks start tail lh := by
  induction lh generalizing tail with
  | nil => rfl
  | cons blockno rest ih =>
    have first : blocks' (start + tail + 1) = blocks (start + tail + 1) := same 0 (by simp)
    have later : ∀ i, i < rest.length →
        blocks' (start + (tail + 1 + i) + 1) = blocks (start + (tail + 1 + i) + 1) := by
      intro i inside
      have next := same (i + 1) (by simpa using inside)
      rw [show tail + (i + 1) = tail + 1 + i by omega] at next
      exact next
    rw [homeWrites, homeWrites, ih later, first]

/-- The blocks `write_log` writes are the first blocks after the header. -/
theorem logWrites_block {blocks : Nat → Block} {start tail : Nat} {lh : List Nat}
    {write : Nat × Block} (member : write ∈ logWrites blocks start tail lh) :
    start + tail < write.1 ∧ write.1 ≤ start + tail + lh.length := by
  induction lh generalizing tail with
  | nil => exact absurd member List.not_mem_nil
  | cons blockno rest ih =>
    simp only [List.length_cons]
    rcases List.mem_cons.mp member with rfl | later
    · simp only
      omega
    · have bounds := ih later
      omega

/-- `install_trans` writes logged blocks only. -/
theorem homeWrites_block {blocks : Nat → Block} {start tail : Nat} {lh : List Nat}
    {write : Nat × Block} (member : write ∈ homeWrites blocks start tail lh) : write.1 ∈ lh := by
  induction lh generalizing tail with
  | nil => exact absurd member List.not_mem_nil
  | cons blockno rest ih =>
    rcases List.mem_cons.mp member with rfl | later
    · exact List.mem_cons_self
    · exact List.mem_cons_of_mem _ (ih later)

/-- The copies are where `install_trans` looks for them. -/
theorem apply_logWrites {blocks memory : Nat → Block} {start tail : Nat} {lh : List Nat} {i : Nat}
    (inside : i < lh.length) :
    apply memory (logWrites blocks start tail lh) (start + (tail + i) + 1) = blocks lh[i] := by
  induction lh generalizing memory tail i with
  | nil => exact absurd inside (Nat.not_lt_zero i)
  | cons blockno rest ih =>
    rw [logWrites, apply_cons]
    cases i with
    | zero =>
      have later : ∀ write ∈ logWrites blocks start (tail + 1) rest,
          write.1 ≠ start + (tail + 0) + 1 := by
        intro write member
        have bounds := logWrites_block member
        omega
      rw [apply_other later]
      exact Function.update_self _ _ _
    | succ i =>
      simp only [List.length_cons] at inside
      have next := @ih (Function.update memory (start + tail + 1) (blocks blockno)) (tail + 1) i
        (by omega)
      rw [show tail + (i + 1) = tail + 1 + i by omega]
      exact next

/-- Installing the copies of a disk that has them all writes the logged contents home. -/
theorem homeWrites_eq {blocks copies : Nat → Block} {start tail : Nat} {lh : List Nat}
    (logged : ∀ i (inside : i < lh.length), copies (start + (tail + i) + 1) = blocks lh[i]) :
    homeWrites copies start tail lh = lh.map fun blockno => (blockno, blocks blockno) := by
  induction lh generalizing tail with
  | nil => rfl
  | cons blockno rest ih =>
    have first : copies (start + tail + 1) = blocks blockno := logged 0 (by simp)
    have later : ∀ i (inside : i < rest.length),
        copies (start + (tail + 1 + i) + 1) = blocks rest[i] := by
      intro i inside
      have next := logged (i + 1) (by simpa using inside)
      rw [show tail + (i + 1) = tail + 1 + i by omega] at next
      exact next
    rw [homeWrites, List.map_cons, ih later, first]

/-- Every `brelse` of the log is allowed: releases are not checked, or nothing is unrecorded. -/
def Releases (d : Discipline) (s : Store) : Prop := d.strict = false ∨ ∀ b, s.unlogged b = false

/-- Flushed writes leave nothing unrecorded. -/
theorem Releases.flushed {d : Discipline} {s t : Store} {writes : List (Nat × Block)}
    (released : Releases d s) (flushed : Flushed s t writes) : Releases d t := by
  rcases released with lax | settled
  · exact .inl lax
  · exact .inr fun b => flushed.unlogged b (settled b)

/-- A `brelse` that is allowed. -/
theorem Releases.block {d : Discipline} {s : Store} (released : Releases d s) (b : Nat) :
    d.strict = false ∨ s.unlogged b = false := by
  rcases released with lax | settled
  · exact .inl lax
  · exact .inr (settled b)

section Routines

variable {d : Discipline} {s : Store} {start tail : Nat} {lh : List Nat}

/-- The loop of `write_log`. -/
theorem writeLogFrom_spec (released : Releases d s)
    (apart : ∀ blockno ∈ lh, blockno ≤ start + tail ∨ start + tail + lh.length < blockno) :
    wp (Store.handler d) (writeLogFrom start tail lh)
      (fun _ t => Flushed s t (logWrites s.blocks start tail lh)) (fun _ => False) s := by
  induction lh generalizing s tail with
  | nil => exact Flushed.refl s
  | cons blockno rest ih =>
    simp only [List.length_cons] at apart
    have step := Flushed.single s (start + tail + 1) fun _ => s.blocks blockno
    have same : ∀ b ∈ rest, ((s.modified (start + tail + 1) fun _ => s.blocks blockno).written
        (start + tail + 1)).blocks b = s.blocks b := by
      intro b member
      have other := apart b (List.mem_cons_of_mem _ member)
      exact Function.update_of_ne (by omega) _ _
    have later : ∀ b ∈ rest, b ≤ start + (tail + 1) ∨ start + (tail + 1) + rest.length < b := by
      intro b member
      have other := apart b (List.mem_cons_of_mem _ member)
      omega
    have after := released.flushed step
    rw [writeLogFrom, Store.wp_bread, Store.wp_bread, Store.wp_modify, Store.wp_bwrite,
      Store.wp_brelse (after.block _), Store.wp_brelse (after.block _)]
    refine wp_mono (ih after later) ?_ fun _ h => h
    intro _ t rest_flushed
    have both := step.trans rest_flushed
    rw [logWrites_congr same] at both
    exact both

/-- The loop of `install_trans`. -/
theorem installFrom_spec (released : Releases d s)
    (apart : ∀ blockno ∈ lh, blockno ≤ start + tail ∨ start + tail + lh.length < blockno) :
    wp (Store.handler d) (installFrom start tail lh)
      (fun _ t => Flushed s t (homeWrites s.blocks start tail lh)) (fun _ => False) s := by
  induction lh generalizing s tail with
  | nil => exact Flushed.refl s
  | cons blockno rest ih =>
    simp only [List.length_cons] at apart
    have step := Flushed.single s blockno fun _ => s.blocks (start + tail + 1)
    have same : ∀ i, i < rest.length →
        ((s.modified blockno fun _ => s.blocks (start + tail + 1)).written blockno).blocks
          (start + (tail + 1 + i) + 1) = s.blocks (start + (tail + 1 + i) + 1) := by
      intro i inside
      have other := apart blockno List.mem_cons_self
      exact Function.update_of_ne (by omega) _ _
    have later : ∀ b ∈ rest, b ≤ start + (tail + 1) ∨ start + (tail + 1) + rest.length < b := by
      intro b member
      have other := apart b (List.mem_cons_of_mem _ member)
      omega
    have after := released.flushed step
    rw [installFrom, Store.wp_bread, Store.wp_bread, Store.wp_modify, Store.wp_bwrite,
      Store.wp_brelse (after.block _), Store.wp_brelse (after.block _)]
    refine wp_mono (ih after later) ?_ fun _ h => h
    intro _ t rest_flushed
    have both := step.trans rest_flushed
    rw [homeWrites_congr same] at both
    exact both

/-- `write_head`. -/
theorem writeHead_spec (released : Releases d s) (log : Log) :
    wp (Store.handler d) (writeHead log)
      (fun _ t => Flushed s t [(log.start, putHeader log.lh (s.blocks log.start))])
      (fun _ => False) s := by
  have step := Flushed.single s log.start (putHeader log.lh)
  rw [writeHead, Store.wp_bread, Store.wp_modify, Store.wp_bwrite,
    Store.wp_brelse_last ((released.flushed step).block _)]
  exact step

end Routines

/-- The logged blocks have room in the log area and lie outside it. -/
structure Log.Placed (log : Log) : Prop where
  /-- `lh.n` is at most `log.size - 1`. -/
  room : log.lh.length < log.size
  /-- The blocks lie outside the log area. -/
  outside : ∀ blockno ∈ log.lh, ¬log.Area blockno

/-- The blocks of the in-memory header as `log_write` admits them: room in the log area and in
the header, none of them in the log area. -/
structure Log.Admitted (log : Log) : Prop extends log.Placed where
  /-- `lh.n` is at most `LOGSIZE`. -/
  bound : log.lh.length ≤ LOGSIZE
  /-- Block numbers are 32-bit words. -/
  fits : ∀ blockno ∈ log.lh, blockno < 2 ^ 32

namespace Log.Placed

variable {log : Log}

/-- Placement depends on the log area and the recorded blocks only. -/
theorem congr {log' : Log} (placed : log.Placed) (start : log'.start = log.start)
    (size : log'.size = log.size) (lh : log'.lh = log.lh) : log'.Placed := by
  constructor
  · rw [lh, size]
    exact placed.room
  · intro b member
    rw [lh] at member
    have outside := placed.outside b member
    unfold Log.Area at outside ⊢
    rw [start, size]
    exact outside

/-- A logged block is none of the blocks that hold the header and the copies. -/
theorem apart (placed : log.Placed) :
    ∀ blockno ∈ log.lh, blockno ≤ log.start + 0 ∨ log.start + 0 + log.lh.length < blockno := by
  intro blockno member
  have outside := placed.outside blockno member
  have room := placed.room
  unfold Log.Area at outside
  omega

/-- The header block is not a logged block. -/
theorem start_not_mem (placed : log.Placed) : log.start ∉ log.lh := by
  intro member
  have outside := placed.outside _ member
  have room := placed.room
  unfold Log.Area at outside
  omega

/-- The header block lies in the log area. -/
theorem start_area (placed : log.Placed) : log.Area log.start := by
  have room := placed.room
  unfold Log.Area
  omega

end Log.Placed

namespace Log.Admitted

variable {log : Log}

/-- A stored header is read back. -/
theorem header (admitted : log.Admitted) (data : Block) :
    getHeader (putHeader log.lh data) = log.lh := by
  have bound := admitted.bound
  apply getHeader_putHeader _ _ _ admitted.fits
  simp only [LOGSIZE, MAXOPBLOCKS, Block.words, BSIZE] at bound ⊢
  omega

end Log.Admitted

/-- The disk writes of `commit`. -/
def commitWrites (blocks : Nat → Block) (log : Log) : List (Nat × Block) :=
  logWrites blocks log.start 0 log.lh ++ ([(log.start, putHeader log.lh (blocks log.start))] ++
    (log.lh.map (fun blockno => (blockno, blocks blockno)) ++
      [(log.start, putHeader [] (putHeader log.lh (blocks log.start)))]))

/-- The disk writes of `recover_from_log`. -/
def recoverWrites (disk : Nat → Block) (start : Nat) : List (Nat × Block) :=
  homeWrites disk start 0 (getHeader (disk start)) ++ [(start, putHeader [] (disk start))]

section Commit

variable {d : Discipline} {s : Store} {log : Log}

/-- The copies do not touch the header block. -/
theorem logWrites_start (blocks : Nat → Block) (start : Nat) (lh : List Nat) :
    ∀ write ∈ logWrites blocks start 0 lh, write.1 ≠ start := by
  intro write member
  have bounds := logWrites_block member
  omega

/-- Installing does not touch the header block. -/
theorem homes_start (placed : log.Placed) (blocks : Nat → Block) :
    ∀ write ∈ log.lh.map (fun blockno => (blockno, blocks blockno)), write.1 ≠ log.start := by
  intro write member same
  obtain ⟨blockno, logged, rfl⟩ := List.mem_map.mp member
  exact placed.start_not_mem (same ▸ logged)

/-- `commit` of a nonempty log. -/
theorem commit_spec (released : Releases d s) (placed : log.Placed)
    (nonempty : 0 < log.lh.length) :
    wp (Store.handler d) (commit log)
      (fun log' t => log' = log.clear ∧ Flushed s t (commitWrites s.blocks log)) (fun _ => False) s := by
  rw [commit, if_pos nonempty, wp_bind]
  refine wp_mono (writeLogFrom_spec released placed.apart) ?_ fun _ h => h
  intro _ t₁ copied
  have released₁ := released.flushed copied
  have header₁ : t₁.blocks log.start = s.blocks log.start := by
    rw [copied.blocks, apply_other (logWrites_start _ _ _)]
  rw [wp_bind]
  refine wp_mono (writeHead_spec released₁ log) ?_ fun _ h => h
  intro _ t₂ committed
  rw [header₁] at committed
  have released₂ := released₁.flushed committed
  have copies : ∀ i (inside : i < log.lh.length),
      t₂.blocks (log.start + (0 + i) + 1) = s.blocks log.lh[i] := by
    intro i inside
    rw [committed.blocks, copied.blocks]
    refine (Function.update_of_ne (by omega) _ _).trans ?_
    exact apply_logWrites inside
  have header₂ : t₂.blocks log.start = putHeader log.lh (s.blocks log.start) := by
    rw [committed.blocks]
    exact Function.update_self _ _ _
  rw [wp_bind]
  refine wp_mono (installFrom_spec released₂ placed.apart) ?_ fun _ h => h
  intro _ t₃ installed
  have released₃ := released₂.flushed installed
  rw [homeWrites_eq copies] at installed
  have header₃ : t₃.blocks log.start = putHeader log.lh (s.blocks log.start) := by
    rw [installed.blocks, apply_other (homes_start placed _), header₂]
  rw [wp_bind]
  refine wp_mono (writeHead_spec released₃ log.clear) ?_ fun _ h => h
  intro _ t₄ erased
  have start : log.clear.start = log.start := rfl
  rw [start, header₃] at erased
  exact ⟨rfl, copied.trans (committed.trans (installed.trans erased))⟩

/-- Outside the log area `commit` writes the logged blocks, with their contents. -/
theorem commitWrites_outside (placed : log.Placed) {blocks : Nat → Block} {blockno : Nat}
    (outside : ¬log.Area blockno) {write : Nat × Block} (member : write ∈ commitWrites blocks log)
    (here : write.1 = blockno) : blockno ∈ log.lh ∧ write.2 = blocks blockno := by
  have apart : blockno ≠ log.start := by
    rintro rfl
    exact outside placed.start_area
  simp only [commitWrites, List.mem_append, List.mem_singleton] at member
  rcases member with copy | head | home | head
  · have bounds := logWrites_block copy
    have room := placed.room
    unfold Log.Area at outside
    omega
  · rw [head] at here
    exact absurd here.symm apart
  · obtain ⟨b, logged, rfl⟩ := List.mem_map.mp home
    rw [← here]
    exact ⟨logged, rfl⟩
  · rw [head] at here
    exact absurd here.symm apart

/-- `commit` leaves the contents outside the log area alone. -/
theorem commit_contents (placed : log.Placed) (blocks : Nat → Block) {blockno : Nat}
    (outside : ¬log.Area blockno) : apply blocks (commitWrites blocks log) blockno = blocks blockno := by
  have same : ∀ write ∈ commitWrites blocks log, write.1 = blockno → write.2 = blocks blockno :=
    fun _ member here => (commitWrites_outside placed outside member here).2
  rcases apply_same same with stored | ⟨kept, _⟩
  · exact stored
  · exact kept

/-- `recover_from_log` on a disk whose header names blocks outside the log area. -/
theorem recover_spec (released : Releases d s)
    (placed : ({ log with lh := getHeader (s.blocks log.start) } : Log).Placed) :
    wp (Store.handler d) (recoverFromLog log)
      (fun log' t => log' = log.clear ∧ Flushed s t (recoverWrites s.blocks log.start))
      (fun _ => False) s := by
  rw [recoverFromLog, wp_bind, readHead, Store.wp_bread, Store.wp_brelse (released.block _), wp_pure,
    wp_bind]
  refine wp_mono (installFrom_spec released placed.apart) ?_ fun _ h => h
  intro _ t installed
  have kept : t.blocks log.start = s.blocks log.start := by
    rw [installed.blocks]
    apply apply_other
    intro write member same
    have logged := homeWrites_block member
    rw [same] at logged
    exact placed.start_not_mem logged
  rw [wp_bind]
  refine wp_mono (writeHead_spec (released.flushed installed) _) ?_ fun _ h => h
  intro _ t' erased
  have both := installed.trans erased
  simp only [Log.clear, kept] at both
  exact ⟨rfl, both⟩

end Commit

/-! ## The three conditions -/

/-- The header is empty, and the home blocks are the given ones. -/
structure Erased (log : Log) (home disk : Nat → Block) : Prop where
  header : (disk log.start).word 0 = 0
  /-- The blocks outside the log area. -/
  outside : ∀ b, ¬log.Area b → disk b = home b

/-- The header names the logged blocks, the copies are there, and every home block is as before
or installed. -/
structure Committed (log : Log) (blocks home disk : Nat → Block) : Prop where
  /-- The header names the logged blocks. -/
  header : getHeader (disk log.start) = log.lh
  /-- The copies are in the log area. -/
  copies : ∀ i (inside : i < log.lh.length), disk (log.start + (0 + i) + 1) = blocks log.lh[i]
  /-- The blocks outside the log area. -/
  outside : ∀ b, ¬log.Area b → disk b = home b ∨ (b ∈ log.lh ∧ disk b = blocks b)

/-- The home blocks with all logged blocks replaced by their cached contents. -/
def replaced (log : Log) (blocks home : Nat → Block) : Nat → Block :=
  fun b => if b ∈ log.lh then blocks b else home b

section Phases

variable {log : Log} {blocks home disk : Nat → Block}

/-- An empty header names no block. -/
theorem Erased.getHeader (erased : Erased log home disk) : getHeader (disk log.start) = [] := by
  have none : headerCount (disk log.start) = 0 := by
    unfold headerCount
    rw [erased.header]
    rfl
  rw [Xv6.getHeader, none]
  rfl

/-- Writing an empty header. -/
theorem erased_of_header (admitted : log.Admitted) (outside : ∀ b, ¬log.Area b → disk b = home b)
    (data : Block) : Erased log home (Function.update disk log.start (putHeader [] data)) where
  header := by
    rw [Function.update_self]
    exact Block.word_setWord_same data (by decide) (by decide)
  outside b beyond := by
    have apart : b ≠ log.start := by
      rintro rfl
      exact beyond admitted.start_area
    rw [Function.update_of_ne apart]
    exact outside b beyond

/-- Installing some of the logged blocks keeps the disk committed. -/
theorem Committed.install (admitted : log.Admitted) (committed : Committed log blocks home disk)
    {writes : List (Nat × Block)}
    (part : ∀ write ∈ writes, write ∈ log.lh.map fun blockno => (blockno, blocks blockno)) :
    Committed log blocks home (apply disk writes) := by
  have logged : ∀ write ∈ writes, write.1 ∈ log.lh ∧ write.2 = blocks write.1 := by
    intro write member
    obtain ⟨blockno, inside, same⟩ := List.mem_map.mp (part write member)
    rw [← same]
    exact ⟨inside, rfl⟩
  constructor
  · have apart : ∀ write ∈ writes, write.1 ≠ log.start := by
      intro write member same
      exact admitted.start_not_mem (same ▸ (logged write member).1)
    rw [apply_other apart]
    exact committed.header
  · intro i inside
    have apart : ∀ write ∈ writes, write.1 ≠ log.start + (0 + i) + 1 := by
      intro write member same
      have beyond := admitted.apart _ (logged write member).1
      omega
    rw [apply_other apart]
    exact committed.copies i inside
  · intro b beyond
    have contents : ∀ write ∈ writes, write.1 = b → write.2 = blocks b := by
      intro write member same
      rw [← same]
      exact (logged write member).2
    rcases apply_same contents with written | ⟨kept, others⟩
    · by_cases inside : b ∈ log.lh
      · exact .inr ⟨inside, written⟩
      · have untouched : ∀ write ∈ writes, write.1 ≠ b := by
          intro write member same
          exact inside (same ▸ (logged write member).1)
        rw [apply_other untouched]
        exact committed.outside b beyond
    · rw [kept]
      exact committed.outside b beyond

/-- Installing every logged block and erasing the header. -/
theorem Committed.erase (admitted : log.Admitted) (committed : Committed log blocks home disk)
    (data : Block) :
    Erased log (replaced log blocks home)
      (apply disk (log.lh.map (fun blockno => (blockno, blocks blockno)) ++
        [(log.start, putHeader [] data)])) := by
  rw [apply_snoc]
  apply erased_of_header admitted
  intro b beyond
  unfold replaced
  by_cases inside : b ∈ log.lh
  · have contents : ∀ write ∈ log.lh.map (fun blockno => (blockno, blocks blockno)),
        write.1 = b → write.2 = blocks b := by
      intro write member same
      obtain ⟨blockno, _, rfl⟩ := List.mem_map.mp member
      exact congrArg blocks same
    rw [if_pos inside]
    rcases apply_same contents with written | ⟨_, others⟩
    · exact written
    · exact absurd rfl (others (b, blocks b) (List.mem_map.mpr ⟨b, inside, rfl⟩))
  · have untouched : ∀ write ∈ log.lh.map (fun blockno => (blockno, blocks blockno)), write.1 ≠ b := by
      intro write member same
      obtain ⟨blockno, named, rfl⟩ := List.mem_map.mp member
      exact inside (same ▸ named)
    rw [if_neg inside, apply_other untouched]
    rcases committed.outside b beyond with kept | ⟨named, _⟩
    · exact kept
    · exact absurd named inside

/-- Every prefix of installing and erasing leaves the disk committed or erased. -/
theorem Committed.partly (admitted : log.Admitted) (committed : Committed log blocks home disk)
    (data : Block) (k : Nat) :
    let after := apply disk ((log.lh.map (fun blockno => (blockno, blocks blockno)) ++
      [(log.start, putHeader [] data)]).take k)
    Committed log blocks home after ∨ Erased log (replaced log blocks home) after := by
  rcases take_append_cases (log.lh.map fun blockno => (blockno, blocks blockno))
    [(log.start, putHeader [] data)] k with ⟨_, short⟩ | ⟨longer, whole⟩
  · rw [short]
    exact .inl (committed.install admitted fun write member => List.mem_of_mem_take member)
  · have last : [(log.start, putHeader [] data)].take
        (k - (log.lh.map fun blockno => (blockno, blocks blockno)).length) =
        [(log.start, putHeader [] data)] := by
      apply List.take_of_length_le
      simp only [List.length_singleton]
      omega
    rw [whole, last]
    exact .inr (committed.erase admitted data)

/-! ## Commit and recovery, prefix by prefix -/

/-- After the copies and the header the disk is committed. -/
theorem committed_of_header (admitted : log.Admitted) (blocks home : Nat → Block) (data : Block) :
    Committed log blocks home
      (apply home (logWrites blocks log.start 0 log.lh ++ [(log.start, putHeader log.lh data)])) := by
  rw [apply_snoc]
  constructor
  · rw [Function.update_self]
    exact admitted.header data
  · intro i inside
    rw [Function.update_of_ne (by omega)]
    exact apply_logWrites inside
  · intro b beyond
    have room := admitted.room
    have start : b ≠ log.start := by
      rintro rfl
      exact beyond admitted.start_area
    have copies : ∀ write ∈ logWrites blocks log.start 0 log.lh, write.1 ≠ b := by
      intro write member same
      have bounds := logWrites_block member
      unfold Log.Area at beyond
      omega
    rw [Function.update_of_ne start, apply_other copies]
    exact .inl rfl

/-- Some of the copies leave everything outside the log area and the header alone. -/
theorem erased_of_copies (admitted : log.Admitted) (header : (home log.start).word 0 = 0)
    {writes : List (Nat × Block)}
    (part : ∀ write ∈ writes, write ∈ logWrites blocks log.start 0 log.lh) :
    Erased log home (apply home writes) where
  header := by
    have apart : ∀ write ∈ writes, write.1 ≠ log.start := fun write member =>
      logWrites_start _ _ _ write (part write member)
    rw [apply_other apart]
    exact header
  outside b beyond := by
    have room := admitted.room
    apply apply_other
    intro write member same
    have bounds := logWrites_block (part write member)
    unfold Log.Area at beyond
    omega

/-- A crash in `commit`: before the header is written nothing is committed, from then on
everything is. -/
theorem commit_cut (admitted : log.Admitted) (blocks : Nat → Block)
    (header : (home log.start).word 0 = 0) (k : Nat) :
    let writes := (commitWrites blocks log).take k
    ((∀ write ∈ writes, write.1 ≠ log.start) ∧ Erased log home (apply home writes)) ∨
      Committed log blocks home (apply home writes) ∨
      Erased log (replaced log blocks home) (apply home writes) := by
  rcases take_append_cases (logWrites blocks log.start 0 log.lh)
    ([(log.start, putHeader log.lh (blocks log.start))] ++
      (log.lh.map (fun blockno => (blockno, blocks blockno)) ++
        [(log.start, putHeader [] (putHeader log.lh (blocks log.start)))])) k with
    ⟨_, short⟩ | ⟨longer, rest⟩
  · have part : ∀ write ∈ (logWrites blocks log.start 0 log.lh).take k,
        write ∈ logWrites blocks log.start 0 log.lh := fun write member => List.mem_of_mem_take member
    simp only [commitWrites, short]
    exact .inl ⟨fun write member => logWrites_start _ _ _ write (part write member),
      erased_of_copies admitted header part⟩
  · have committed := committed_of_header admitted blocks home (blocks log.start)
    have more := committed.partly admitted (putHeader log.lh (blocks log.start))
      (k - (logWrites blocks log.start 0 log.lh).length - 1)
    have first : k - (logWrites blocks log.start 0 log.lh).length =
        k - (logWrites blocks log.start 0 log.lh).length - 1 + 1 := by omega
    rw [first] at rest
    simp only [List.singleton_append, List.take_succ_cons] at rest
    simp only [apply_append] at more
    simp only [commitWrites, List.singleton_append, rest, apply_append]
    exact .inr more

/-- A crash in recovery from an erased disk. -/
theorem Erased.recover (admitted : log.Admitted) (erased : Erased log home disk) (k : Nat) :
    Erased log home (apply disk ((recoverWrites disk log.start).take k)) := by
  have writes : recoverWrites disk log.start = [(log.start, putHeader [] (disk log.start))] := by
    rw [recoverWrites, erased.getHeader]
    rfl
  rw [writes]
  cases k with
  | zero => exact erased
  | succ k =>
    have whole : [(log.start, putHeader [] (disk log.start))].take (k + 1) =
        [(log.start, putHeader [] (disk log.start))] := by
      apply List.take_of_length_le
      simp only [List.length_singleton]
      omega
    rw [whole]
    exact erased_of_header admitted erased.outside _

/-- The writes of recovery from a committed disk. -/
theorem Committed.recoverWrites (committed : Committed log blocks home disk) :
    recoverWrites disk log.start = log.lh.map (fun blockno => (blockno, blocks blockno)) ++
      [(log.start, putHeader [] (disk log.start))] := by
  rw [Xv6.recoverWrites, committed.header, homeWrites_eq committed.copies]

/-- A crash in recovery from a committed disk. -/
theorem Committed.recover (admitted : log.Admitted) (committed : Committed log blocks home disk)
    (k : Nat) :
    let after := apply disk ((Xv6.recoverWrites disk log.start).take k)
    Committed log blocks home after ∨ Erased log (replaced log blocks home) after := by
  rw [committed.recoverWrites]
  exact committed.partly admitted (disk log.start) k

/-- The in-memory log as `initlog` finds it: zero, but for its place. -/
def Log.rebooted (log : Log) : Log where
  start := log.start
  size := log.size
  outstanding := 0
  committing := false
  lh := []

/-- Recovery that is not cut short. -/
theorem recover_returns
    (admitted : ({ log.rebooted with lh := Xv6.getHeader (disk log.start) } : Log).Admitted) :
    ∃ t, Store.exec checked (recoverFromLog log.rebooted) (Store.boot disk log.rebooted) =
        .ok (log.rebooted, t) ∧ t.writes = Xv6.recoverWrites disk log.start ∧
      t.disk = apply disk (Xv6.recoverWrites disk log.start) := by
  have spec := recover_spec (d := checked) (s := Store.boot disk log.rebooted) (.inl rfl)
    admitted.toPlaced
  obtain ⟨log', t, returned, same, flushed⟩ := wp_returns spec
  refine ⟨t, ?_, flushed.writes, flushed.disk⟩
  rw [same] at returned
  exact returned

/-- An erased disk is recovered. -/
theorem Erased.admitted (sized : 0 < log.size) (erased : Erased log home disk) :
    ({ log.rebooted with lh := Xv6.getHeader (disk log.start) } : Log).Admitted := by
  rw [erased.getHeader]
  constructor
  · exact ⟨sized, fun _ member => absurd member List.not_mem_nil⟩
  · exact Nat.zero_le _
  · exact fun _ member => absurd member List.not_mem_nil

/-- A committed disk is recovered. -/
theorem Committed.admitted (admitted : log.Admitted) (committed : Committed log blocks home disk) :
    ({ log.rebooted with lh := Xv6.getHeader (disk log.start) } : Log).Admitted := by
  rw [committed.header]
  exact ⟨⟨admitted.room, admitted.outside⟩, admitted.bound, admitted.fits⟩

/-- One recovery that crashes after `k` of its disk writes. -/
def crashStep (log : Log) (disk : Nat → Block) (k : Nat) (disk' : Nat → Block) : Prop :=
  ∃ log' t, Store.exec checked (recoverFromLog log.rebooted) (Store.boot disk log.rebooted) =
    .ok (log', t) ∧ disk' = apply disk (t.writes.take k)

/-- Crashed recoveries of an erased disk leave it erased. -/
theorem Erased.crashed (admitted : log.Admitted) (erased : Erased log home disk) {crashes : List Nat}
    {disk' : Nat → Block} (run : Run (crashStep log) disk crashes disk') : Erased log home disk' := by
  have sized : 0 < log.size := Nat.lt_of_le_of_lt (Nat.zero_le _) admitted.room
  apply run.invariant (Erased log home)
  · intro d k d' erased step
    obtain ⟨log', t, returned, rfl⟩ := step
    obtain ⟨t', returned', writes, _⟩ := recover_returns (erased.admitted sized)
    rw [returned'] at returned
    cases returned
    rw [writes]
    exact erased.recover admitted k
  · exact erased

/-- Crashed recoveries of a committed disk leave it committed or finish the commit. -/
theorem Committed.crashed (admitted : log.Admitted)
    (committed : Committed log blocks home disk ∨ Erased log (replaced log blocks home) disk)
    {crashes : List Nat} {disk' : Nat → Block} (run : Run (crashStep log) disk crashes disk') :
    Committed log blocks home disk' ∨ Erased log (replaced log blocks home) disk' := by
  have sized : 0 < log.size := Nat.lt_of_le_of_lt (Nat.zero_le _) admitted.room
  apply run.invariant fun d => Committed log blocks home d ∨ Erased log (replaced log blocks home) d
  · intro d k d' phase step
    obtain ⟨log', t, returned, rfl⟩ := step
    rcases phase with committed | erased
    · obtain ⟨t', returned', writes, _⟩ := recover_returns (committed.admitted admitted)
      rw [returned'] at returned
      cases returned
      rw [writes]
      exact committed.recover admitted k
    · obtain ⟨t', returned', writes, _⟩ := recover_returns (erased.admitted sized)
      rw [returned'] at returned
      cases returned
      rw [writes]
      exact .inr (erased.recover admitted k)
  · exact committed

/-- A recovery that completes on an erased disk leaves it erased. -/
theorem Erased.complete (admitted : log.Admitted) (erased : Erased log home disk) :
    ∃ t, Store.exec checked (recoverFromLog log.rebooted) (Store.boot disk log.rebooted) =
      .ok (log.rebooted, t) ∧ Erased log home t.disk := by
  have sized : 0 < log.size := Nat.lt_of_le_of_lt (Nat.zero_le _) admitted.room
  obtain ⟨t, returned, _, final⟩ := recover_returns (erased.admitted sized)
  have whole := erased.recover admitted (Xv6.recoverWrites disk log.start).length
  rw [List.take_length] at whole
  exact ⟨t, returned, by rw [final]; exact whole⟩

/-- A recovery that completes on a committed disk installs the logged blocks. -/
theorem Committed.complete (admitted : log.Admitted) (committed : Committed log blocks home disk) :
    ∃ t, Store.exec checked (recoverFromLog log.rebooted) (Store.boot disk log.rebooted) =
      .ok (log.rebooted, t) ∧ Erased log (replaced log blocks home) t.disk := by
  obtain ⟨t, returned, _, final⟩ := recover_returns (committed.admitted admitted)
  rw [committed.recoverWrites] at final
  exact ⟨t, returned, by rw [final]; exact committed.erase admitted (disk log.start)⟩

end Phases

/-- Crash atomicity. `commit` returns after a list of disk writes. Whatever prefix of them a
crash leaves, and after any number of recoveries that crash in turn, a recovery that completes
leaves an empty header and outside the log area the disk from before the commit or this disk
with all logged blocks replaced by their cached contents; the latter whenever the header had
been written. -/
theorem commit_crash_atomic {log : Log} (admitted : log.Admitted) (nonempty : 0 < log.lh.length)
    (s : Store) (header : (s.disk log.start).word 0 = 0) :
    ∃ t writes, Store.exec checked (commit log) s = .ok (log.clear, t) ∧
      t.writes = s.writes ++ writes ∧
      ∀ k crashes disk, Run (crashStep log) (apply s.disk (writes.take k)) crashes disk →
        ∃ t', Store.exec checked (recoverFromLog log.rebooted) (Store.boot disk log.rebooted) =
            .ok (log.rebooted, t') ∧ (t'.disk log.start).word 0 = 0 ∧
          ((∀ b, ¬log.Area b → t'.disk b = s.disk b) ∨
            ∀ b, ¬log.Area b → t'.disk b = if b ∈ log.lh then s.blocks b else s.disk b) ∧
          ((∃ write ∈ writes.take k, write.1 = log.start) →
            ∀ b, ¬log.Area b → t'.disk b = if b ∈ log.lh then s.blocks b else s.disk b) := by
  obtain ⟨log', t, returned, same, flushed⟩ :=
    wp_returns (commit_spec (d := checked) (s := s) (.inl rfl) admitted.toPlaced nonempty)
  rw [same] at returned
  refine ⟨t, commitWrites s.blocks log, returned, flushed.writes, ?_⟩
  intro k crashes disk run
  rcases commit_cut admitted s.blocks header k with ⟨untouched, erased⟩ | phase
  · obtain ⟨t', recovered, final⟩ := (erased.crashed admitted run).complete admitted
    refine ⟨t', recovered, final.header, .inl final.outside, ?_⟩
    intro written
    obtain ⟨write, member, start⟩ := written
    exact absurd start (untouched write member)
  · have installed : ∃ t', Store.exec checked (recoverFromLog log.rebooted)
        (Store.boot disk log.rebooted) = .ok (log.rebooted, t') ∧
          Erased log (replaced log s.blocks s.disk) t'.disk := by
      rcases Committed.crashed admitted phase run with committed | erased
      · exact committed.complete admitted
      · exact erased.complete admitted
    obtain ⟨t', recovered, final⟩ := installed
    exact ⟨t', recovered, final.header, .inr final.outside, fun _ => final.outside⟩

/-- A log of the size `mkfs` gives it with two logged blocks. -/
def twoBlockLog : Log where
  start := 2
  size := LOGSIZE
  outstanding := 0
  committing := true
  lh := [100, 101]

/-- Both blocks are admitted by `log_write`. -/
theorem twoBlockLog_admitted : twoBlockLog.Admitted := by
  refine ⟨⟨?_, ?_⟩, ?_, ?_⟩ <;> decide

/-- Two logged blocks: a crash after three of the six writes, just behind the header, and one
more after a single write of recovery. -/
theorem commit_crash_atomic_two :
    ∃ t, ∃ writes : List (Nat × Block), Store.exec checked (commit twoBlockLog) (Store.boot (fun _ => Block.zero) twoBlockLog) =
        .ok (twoBlockLog.clear, t) ∧
      ∀ disk, Run (crashStep twoBlockLog) (apply (fun _ => Block.zero) (writes.take 3)) [1] disk →
        ∃ t', Store.exec checked (recoverFromLog twoBlockLog.rebooted)
          (Store.boot disk twoBlockLog.rebooted) = .ok (twoBlockLog.rebooted, t') ∧
          (t'.disk 2).word 0 = 0 := by
  obtain ⟨t, writes, returned, _, recovered⟩ := commit_crash_atomic twoBlockLog_admitted (by decide)
    (Store.boot (fun _ => Block.zero) twoBlockLog) (Block.word_zero 0)
  refine ⟨t, writes, returned, ?_⟩
  intro disk run
  obtain ⟨t', final, header, _⟩ := recovered 3 [1] disk run
  exact ⟨t', final, header⟩

end Xv6
