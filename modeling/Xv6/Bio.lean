import Xv6.Log

/-!
# The buffer cache

`bio.c` with the disk under it. The cache has `NBUF` buffers on a list ordered by use; `bget`
finds a cached block or recycles the least recently used buffer that nobody refers to and that
is not `B_DIRTY`. The sleep lock of a buffer names its holder, a process of type `π`.
-/

namespace Xv6

/-- `param.h`: size of the file system in blocks. -/
def FSSIZE : Nat := 40000

/-- `struct buf`. -/
structure Buf (π : Type) where
  /-- `flags & B_VALID`: the data has been read from disk. -/
  valid : Bool
  /-- `flags & B_DIRTY`: the data needs to be written to disk. -/
  dirty : Bool
  dev : Nat
  blockno : Nat
  /-- The sleep lock: its holder while it is locked. -/
  holder : Option π
  refcnt : Nat
  data : Block

/-- `bcache`: the buffers, and their list from the most to the least recently used. -/
structure Bcache (π : Type) where
  /-- `buf[NBUF]`. -/
  buf : Fin NBUF → Buf π
  /-- The list from `head.next` to `head.prev`. -/
  mru : List (Fin NBUF)

/-- Memory and disk as file-system code sees them. -/
structure Machine (π : Type) where
  /-- The buffer cache. -/
  cache : Bcache π
  /-- The blocks of the root disk. -/
  disk : Nat → Block
  /-- The in-memory log. -/
  log : Log

variable {π : Type}

/-- `binit`: zeroed buffers, the last one in front. -/
def binit : Bcache π where
  buf _ := ⟨false, false, 0, 0, none, 0, Block.zero⟩
  mru := (List.finRange NBUF).reverse

/-- `refcnt == 0 && (flags & B_DIRTY) == 0`: the buffer may be recycled. -/
def Buf.unused (b : Buf π) : Bool := b.refcnt == 0 && !b.dirty

namespace Bcache

/-- Replace one buffer. -/
def set (c : Bcache π) (i : Fin NBUF) (b : Buf π) : Bcache π :=
  { c with buf := Function.update c.buf i b }

/-- The first loop of `bget`: is the block already cached? -/
def cached (c : Bcache π) (dev blockno : Nat) : Option (Fin NBUF) :=
  c.mru.find? fun i => (c.buf i).dev == dev && (c.buf i).blockno == blockno

/-- The second loop of `bget`: the least recently used buffer that may be recycled. -/
def victim (c : Bcache π) : Option (Fin NBUF) :=
  c.mru.reverse.find? fun i => (c.buf i).unused

/-- `bget` before `acquiresleep`. -/
def bget (c : Bcache π) (dev blockno : Nat) : Except Stop (Fin NBUF × Bcache π) :=
  match c.cached dev blockno with
  | some i => .ok (i, c.set i { c.buf i with refcnt := (c.buf i).refcnt + 1 })
  | none =>
    match c.victim with
    | some i =>
      .ok (i, c.set i { c.buf i with dev, blockno, valid := false, dirty := false, refcnt := 1 })
    | none => .error (.panic "bget: no buffers")

/-- One pass of the loop of `acquiresleep`; `none` when the caller goes to sleep. -/
def acquiresleep (c : Bcache π) (p : π) (i : Fin NBUF) : Option (Bcache π) :=
  match (c.buf i).holder with
  | some _ => none
  | none => some (c.set i { c.buf i with holder := some p })

/-- The end of `brelse`: drop the reference; the last one moves the buffer to the front. -/
def release (c : Bcache π) (i : Fin NBUF) : Bcache π :=
  let c := c.set i { c.buf i with holder := none, refcnt := (c.buf i).refcnt - 1 }
  if (c.buf i).refcnt = 0 then { c with mru := i :: c.mru.erase i } else c

/-- `isBufFull`: no more than `1 + MAXOPBLOCKS` buffers may be recycled. -/
def isBufFull (c : Bcache π) : Bool :=
  decide ((c.mru.reverse.filter fun i => (c.buf i).unused).length ≤ 1 + MAXOPBLOCKS)

end Bcache

namespace Machine

variable [DecidableEq π]

/-- Replace one buffer. -/
def setBuf (m : Machine π) (i : Fin NBUF) (b : Buf π) : Machine π :=
  { m with cache := m.cache.set i b }

/-- `iderw`: write a dirty buffer, else read the block. -/
def iderw (m : Machine π) (p : π) (i : Fin NBUF) : Except Stop (Machine π) :=
  let b := m.cache.buf i
  if b.holder ≠ some p then .error (.panic "iderw: buf not locked")
  else if b.valid && !b.dirty then .error (.panic "iderw: nothing to do")
  else if FSSIZE ≤ b.blockno then .error (.panic "incorrect blockno")
  else if b.dirty then
    .ok { m.setBuf i { b with valid := true, dirty := false } with
      disk := Function.update m.disk b.blockno b.data }
  else .ok (m.setBuf i { b with valid := true, data := m.disk b.blockno })

/-- The end of `bread`: read the block unless the buffer is valid. -/
def fill (m : Machine π) (p : π) (i : Fin NBUF) : Except Stop (Machine π) :=
  if (m.cache.buf i).valid then .ok m else m.iderw p i

/-- `bread`. -/
def bread (m : Machine π) (p : π) (blockno : Nat) : Except Stop (Block × Machine π) :=
  match m.cache.bget ROOTDEV blockno with
  | .error reason => .error reason
  | .ok (i, c) =>
    match c.acquiresleep p i with
    | none => .error .blocked
    | some c =>
      match { m with cache := c }.fill p i with
      | .error reason => .error reason
      | .ok m => .ok ((m.cache.buf i).data, m)

/-- `bwrite`. -/
def bwrite (m : Machine π) (p : π) (i : Fin NBUF) : Except Stop (Machine π) :=
  if (m.cache.buf i).holder ≠ some p then .error (.panic "bwrite")
  else (m.setBuf i { m.cache.buf i with dirty := true }).iderw p i

/-- `brelse`. -/
def brelse (m : Machine π) (p : π) (i : Fin NBUF) : Except Stop (Machine π) :=
  if (m.cache.buf i).holder ≠ some p then .error (.panic "brelse")
  else .ok { m with cache := m.cache.release i }

/-- `log_write`. -/
def logWrite (m : Machine π) (i : Fin NBUF) : Except Stop (Machine π) :=
  match m.log.write (m.cache.buf i).blockno with
  | .error reason => .error reason
  | .ok log => .ok { m.setBuf i { m.cache.buf i with dirty := true } with log }

/-- The buffer of a block that a process holds. -/
def held (m : Machine π) (p : π) (blockno : Nat) : Option (Fin NBUF) :=
  (List.finRange NBUF).find? fun i =>
    decide ((m.cache.buf i).holder = some p) && (m.cache.buf i).dev == ROOTDEV &&
      (m.cache.buf i).blockno == blockno

/-- Buffer requests of a process. -/
def handler (p : π) : Handler bufSignature (Machine π) Stop
  | .bread blockno, m => m.bread p blockno
  | .modify blockno update, m =>
    match m.held p blockno with
    | none => .error (.unheld blockno)
    | some i => .ok ((), m.setBuf i { m.cache.buf i with data := update (m.cache.buf i).data })
  | .logWrite blockno, m =>
    match m.held p blockno with
    | none => .error (.unheld blockno)
    | some i => (m.logWrite i).map fun m => ((), m)
  | .bwrite blockno, m =>
    match m.held p blockno with
    | none => .error (.unheld blockno)
    | some i => (m.bwrite p i).map fun m => ((), m)
  | .brelse blockno, m =>
    match m.held p blockno with
    | none => .error (.unheld blockno)
    | some i => (m.brelse p i).map fun m => ((), m)

/-- Run kernel code of a process. -/
abbrev exec {α : Type} (p : π) (code : Kernel α) (m : Machine π) : Except Stop (α × Machine π) :=
  Program.run (handler p) code m

/-! ## Transactions -/

/-- One pass of the loop of `begin_op`; `none` when the caller goes to sleep. -/
def beginOp (m : Machine π) : Option (Machine π) :=
  (m.log.beginOp m.cache.isBufFull).map fun log => { m with log }

/-- `commit()`, which leaves `lh.n = 0`, then `committing = 0`. -/
def commitAndClear (m : Machine π) (p : π) : Except Stop (Machine π) :=
  match m.exec p (commit m.log) with
  | .error reason => .error reason
  | .ok (log, m) => .ok { m with log := { log with committing := false } }

/-- `end_op`. -/
def endOp (m : Machine π) (p : π) : Except Stop (Machine π) :=
  match m.log.endOp m.cache.isBufFull with
  | .error reason => .error reason
  | .ok (log, doCommit) =>
    if doCommit then { m with log }.commitAndClear p else .ok { m with log }

/-- `sync`. -/
def sync (m : Machine π) (p : π) : Except Stop (Machine π) :=
  { m with log := { m.log with committing := true } }.commitAndClear p

/-- One pass of the loop of `begin_op` of project 2. -/
def beginOp2 (m : Machine π) : Option (Machine π) :=
  m.log.beginOp2.map fun log => { m with log }

/-- `end_op` of project 2. -/
def endOp2 (m : Machine π) (p : π) : Except Stop (Machine π) :=
  match m.log.endOp2 with
  | .error reason => .error reason
  | .ok (log, doCommit) =>
    if doCommit then { m with log }.commitAndClear p else .ok { m with log }

end Machine

end Xv6
