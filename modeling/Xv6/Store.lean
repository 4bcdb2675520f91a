import Xv6.Fs

/-!
# The idealized store

A cache that never forgets: every block has its current contents, and the disk has the
contents last written to it. Which blocks are `B_DIRTY` and which hold a change that no
`log_write` or `bwrite` has seen yet is tracked beside, with the calls of `log_write` and the
disk writes in order. A discipline fixes what `log_write` checks and whether releasing an
unrecorded change is refused; the contents never depend on it.
-/

namespace Xv6

/-- State of the idealized store. -/
structure Store where
  /-- Current contents of each block, cached or not. -/
  blocks : Nat → Block
  /-- Contents on disk. -/
  disk : Nat → Block
  /-- Blocks whose buffer has `B_DIRTY` set. -/
  dirty : Nat → Bool
  /-- Blocks with a change not yet passed to `log_write` or `bwrite`, while clean. -/
  unlogged : Nat → Bool
  /-- The in-memory log. -/
  log : Log
  /-- Block numbers passed to `log_write`, in order. -/
  recorded : List Nat
  /-- Disk writes, in order. -/
  writes : List (Nat × Block)

/-- What the store checks. -/
structure Discipline where
  /-- Refuse `brelse` of an unrecorded change. -/
  strict : Bool
  /-- `log_write` on the log. -/
  write : Log → Nat → Except Stop Log

/-- `log_write` taken as recording only; releases are checked if `strict`. -/
def recording (strict : Bool) : Discipline := ⟨strict, fun log blockno => .ok (log.record blockno)⟩

/-- `log_write` with its panics. -/
def checked : Discipline := ⟨false, Log.write⟩

namespace Store

/-- The effect of `log_write` once the log accepts. -/
def logged (s : Store) (blockno : Nat) (log : Log) : Store :=
  { s with
    log
    recorded := s.recorded ++ [blockno]
    dirty := Function.update s.dirty blockno true
    unlogged := Function.update s.unlogged blockno false }

/-- The effect of `log_write` taken as recording only. -/
def record (s : Store) (blockno : Nat) : Store := s.logged blockno (s.log.record blockno)

/-- The effect of a store into the data of a buffer. -/
def modified (s : Store) (blockno : Nat) (update : Block → Block) : Store :=
  { s with
    blocks := Function.update s.blocks blockno (update (s.blocks blockno))
    unlogged := Function.update s.unlogged blockno (s.unlogged blockno || !s.dirty blockno) }

/-- The effect of `bwrite`. -/
def written (s : Store) (blockno : Nat) : Store :=
  { s with
    disk := Function.update s.disk blockno (s.blocks blockno)
    dirty := Function.update s.dirty blockno false
    unlogged := Function.update s.unlogged blockno false
    writes := s.writes ++ [(blockno, s.blocks blockno)] }

/-- Buffer requests on the store. -/
def handler (d : Discipline) : Handler bufSignature Store Stop
  | .bread blockno, s => .ok (s.blocks blockno, s)
  | .modify blockno update, s => .ok ((), s.modified blockno update)
  | .logWrite blockno, s =>
    match d.write s.log blockno with
    | .ok log => .ok ((), s.logged blockno log)
    | .error reason => .error reason
  | .bwrite blockno, s => .ok ((), s.written blockno)
  | .brelse blockno, s =>
    if d.strict && s.unlogged blockno then .error (.unrecorded blockno) else .ok ((), s)

/-- Execute kernel code on the store. -/
abbrev exec {α : Type} (d : Discipline) (code : Kernel α) (s : Store) : Except Stop (α × Store) :=
  Program.run (handler d) code s

/-- The store after a power cut: the cache is lost. -/
def boot (disk : Nat → Block) (log : Log) : Store where
  blocks := disk
  disk := disk
  dirty := fun _ => false
  unlogged := fun _ => false
  log := log
  recorded := []
  writes := []

section Equations

variable {α : Type} {d : Discipline} {s : Store} {post : α → Store → Prop} {halt : Stop → Prop}

/-- `bread` answers with the current contents. -/
@[simp] theorem wp_bread {blockno : Nat} {next : Block → Kernel α} :
    Program.wp (handler d) (bread blockno >>= next) post halt s ↔
      Program.wp (handler d) (next (s.blocks blockno)) post halt s := by
  exact Program.wp_perform_ok rfl

/-- A store into a buffer continues with the changed contents. -/
@[simp] theorem wp_modify {blockno : Nat} {update : Block → Block} {next : Unit → Kernel α} :
    Program.wp (handler d) (modify blockno update >>= next) post halt s ↔
      Program.wp (handler d) (next ()) post halt (s.modified blockno update) := by
  exact Program.wp_perform_ok rfl

/-- `bwrite` continues with the block on disk. -/
@[simp] theorem wp_bwrite {blockno : Nat} {next : Unit → Kernel α} :
    Program.wp (handler d) (bwrite blockno >>= next) post halt s ↔
      Program.wp (handler d) (next ()) post halt (s.written blockno) := by
  exact Program.wp_perform_ok rfl

/-- `log_write` continues when the log accepts. -/
theorem wp_logWrite {blockno : Nat} {next : Unit → Kernel α} :
    Program.wp (handler d) (logWrite blockno >>= next) post halt s ↔
      match d.write s.log blockno with
      | .ok log => Program.wp (handler d) (next ()) post halt (s.logged blockno log)
      | .error reason => halt reason := by
  cases accepted : d.write s.log blockno with
  | ok log => exact Program.wp_perform_ok (by simp only [handler, accepted])
  | error reason => exact Program.wp_perform_error (by simp only [handler, accepted])

/-- `log_write` taken as recording only always continues. -/
@[simp] theorem wp_logWrite_recording {strict : Bool} {blockno : Nat} {next : Unit → Kernel α} :
    Program.wp (handler (recording strict)) (logWrite blockno >>= next) post halt s ↔
      Program.wp (handler (recording strict)) (next ()) post halt (s.record blockno) := by
  rw [wp_logWrite]
  rfl

/-- `brelse` continues unless the change is unrecorded and the discipline strict. -/
theorem wp_brelse {blockno : Nat} {next : Unit → Kernel α}
    (released : d.strict = false ∨ s.unlogged blockno = false) :
    Program.wp (handler d) (brelse blockno >>= next) post halt s ↔
      Program.wp (handler d) (next ()) post halt s := by
  have accepted : (d.strict && s.unlogged blockno) = false := by
    rcases released with h | h <;> simp [h]
  exact Program.wp_perform_ok (by simp only [handler, accepted]; rfl)

/-- A final `brelse` returns unless the change is unrecorded and the discipline strict. -/
theorem wp_brelse_last {blockno : Nat} {post : Unit → Store → Prop}
    (released : d.strict = false ∨ s.unlogged blockno = false) :
    Program.wp (handler d) (brelse blockno) post halt s ↔ post () s := by
  change Program.wp (handler d) (brelse blockno >>= pure) post halt s ↔ _
  rw [wp_brelse released, Program.wp_pure]

end Equations

end Store

end Xv6
