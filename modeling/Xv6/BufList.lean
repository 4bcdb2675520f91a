import Xv6.Bio
import Xv6.Lib.CircularList

/-!
# The buffer cache with its pointers

`bio.c` with the list of the buffers as it is stored, through `prev` and `next` of the buffers and
of `bcache.head`, and with any number of processes in `bread`, `bwrite`, `log_write` and `brelse`.
A process is interrupted between the parts of a call that a lock or a disk request separates.
-/

namespace Xv6

/-- The nodes of the list. -/
inductive BufNode where
  /-- `bcache.head`. -/
  | head
  /-- A buffer. -/
  | buf (i : Fin NBUF)
  deriving DecidableEq

/-- `bcache` with the pointers of its list. -/
structure LinkedCache (π : Type) where
  /-- `buf[NBUF]`, without `prev` and `next`. -/
  buf : Fin NBUF → Buf π
  /-- `prev` and `next` of the buffers and of the head. -/
  links : Links BufNode

namespace LinkedCache

variable {π : Type}

/-- `binit`: each buffer in turn becomes the first of the list. -/
def binit : LinkedCache π where
  buf _ := ⟨false, false, 0, 0, none, 0, Block.zero⟩
  links := (List.finRange NBUF).foldl (fun l i => l.push .head (.buf i))
    ⟨fun _ => .head, fun _ => .head⟩

/-- Replace one buffer. -/
def set (c : LinkedCache π) (i : Fin NBUF) (b : Buf π) : LinkedCache π :=
  { c with buf := Function.update c.buf i b }

/-- A test of a buffer, as a test of a node. -/
def test (c : LinkedCache π) (holds : Buf π → Bool) : BufNode → Bool
  | .head => false
  | .buf i => holds (c.buf i)

/-- The first loop of `bget`, along `next`. -/
def cached (c : LinkedCache π) (dev blockno : Nat) : Option (Option BufNode) :=
  c.links.find .head (c.test fun b => b.dev == dev && b.blockno == blockno) (NBUF + 1) (c.links.next .head)

/-- The second loop of `bget`, along `prev`. -/
def victim (c : LinkedCache π) : Option (Option BufNode) :=
  c.links.flip.find .head (c.test Buf.unused) (NBUF + 1) (c.links.prev .head)

/-- `bget` before `acquiresleep`; absent when a loop does not end within the number of buffers. -/
def bget (c : LinkedCache π) (dev blockno : Nat) : Option (Except Stop (Fin NBUF × LinkedCache π)) :=
  match c.cached dev blockno with
  | some (some (.buf i)) =>
    some (.ok (i, c.set i { c.buf i with refcnt := (c.buf i).refcnt + 1 }))
  | some none =>
    match c.victim with
    | some (some (.buf i)) =>
      some (.ok (i, c.set i { c.buf i with dev, blockno, valid := false, dirty := false, refcnt := 1 }))
    | some none => some (.error (.panic "bget: no buffers"))
    | _ => none
  | _ => none

/-- The locked part of `brelse`. -/
def drop (c : LinkedCache π) (i : Fin NBUF) : LinkedCache π :=
  let c := c.set i { c.buf i with refcnt := (c.buf i).refcnt - 1 }
  if (c.buf i).refcnt = 0 then { c with links := (c.links.unlink (.buf i)).push .head (.buf i) } else c

end LinkedCache

/-- Where a process is with a buffer it got from `bget`. -/
inductive BufStage where
  /-- In `bget`, about to get the buffer's lock. -/
  | waiting
  /-- In `bread` with the buffer locked. -/
  | locked
  /-- `bread` has returned. -/
  | held
  /-- In `brelse` after `releasesleep`. -/
  | leaving
  deriving DecidableEq

/-- A buffer that a process got from `bget` and has not given back. -/
structure BufRef (π : Type) where
  /-- The process. -/
  proc : π
  /-- The buffer. -/
  buf : Fin NBUF
  /-- `dev` as passed to `bread`. -/
  dev : Nat
  /-- `blockno` as passed to `bread`. -/
  blockno : Nat
  /-- Where the process is. -/
  stage : BufStage
  deriving DecidableEq

/-- The cache, the disks and the processes that use buffers. -/
structure BufState (π : Type) where
  /-- `bcache`. -/
  cache : LinkedCache π
  /-- The blocks of the disks 0 and 1. -/
  disk : Nat → Nat → Block
  /-- The buffers in use, once for each process that uses them. -/
  refs : List (BufRef π)

/-- What may happen next. -/
inductive BufEvent (π : Type) where
  /-- A process calls `bread` and runs to `acquiresleep`. -/
  | bget (p : π) (dev blockno : Nat)
  /-- `acquiresleep` returns. -/
  | acquire (r : BufRef π)
  /-- The rest of `bread`. -/
  | fill (r : BufRef π)
  /-- A store into the data. -/
  | modify (r : BufRef π) (update : Block → Block)
  /-- `log_write`. -/
  | logWrite (r : BufRef π)
  | bwrite (r : BufRef π)
  /-- `brelse` up to and with `releasesleep`. -/
  | releasesleep (r : BufRef π)
  /-- The rest of `brelse`. -/
  | drop (r : BufRef π)

namespace BufState

variable {π : Type} [DecidableEq π]

/-- A process goes on with its buffer. -/
def advance (s : BufState π) (r : BufRef π) (stage : BufStage) : BufState π :=
  { s with refs := { r with stage } :: s.refs.erase r }

/-- Replace one buffer. -/
def set (s : BufState π) (i : Fin NBUF) (b : Buf π) : BufState π := { s with cache := s.cache.set i b }

/-- `iderw`, with the number of the disk in the last bit of `dev`; it panics unless the caller
holds the buffer, there is something to do, disk 1 is present and the block exists. -/
def iderw (havedisk1 : Bool) (s : BufState π) (p : π) (i : Fin NBUF) : Option (BufState π) :=
  let b := s.cache.buf i
  if b.holder ≠ some p ∨ (b.valid = true ∧ b.dirty = false) ∨ (b.dev ≠ 0 ∧ havedisk1 = false) ∨ FSSIZE ≤ b.blockno then
    none
  else if b.dirty = true then
    some { s.set i { b with valid := true, dirty := false } with
      disk := Function.update s.disk (b.dev % 2) (Function.update (s.disk (b.dev % 2)) b.blockno b.data) }
  else some (s.set i { b with valid := true, data := s.disk (b.dev % 2) b.blockno })

/-- One step of a process with a buffer it uses. -/
def use (havedisk1 : Bool) (s : BufState π) (r : BufRef π) : BufEvent π → Option (BufState π)
  | .bget _ _ _ => none
  | .acquire _ =>
    if r.stage = .waiting ∧ (s.cache.buf r.buf).holder = none then
      some ((s.set r.buf { s.cache.buf r.buf with holder := some r.proc }).advance r .locked)
    else none
  | .fill _ =>
    if r.stage = .locked then
      if (s.cache.buf r.buf).valid = true then some (s.advance r .held)
      else (iderw havedisk1 s r.proc r.buf).map fun t => t.advance r .held
    else none
  | .modify _ update =>
    if r.stage = .held then
      some (s.set r.buf { s.cache.buf r.buf with data := update (s.cache.buf r.buf).data })
    else none
  | .logWrite _ =>
    if r.stage = .held then some (s.set r.buf { s.cache.buf r.buf with dirty := true }) else none
  | .bwrite _ =>
    if r.stage = .held ∧ (s.cache.buf r.buf).holder = some r.proc then
      iderw havedisk1 (s.set r.buf { s.cache.buf r.buf with dirty := true }) r.proc r.buf
    else none
  | .releasesleep _ =>
    if r.stage = .held ∧ (s.cache.buf r.buf).holder = some r.proc then
      some ((s.set r.buf { s.cache.buf r.buf with holder := none }).advance r .leaving)
    else none
  | .drop _ =>
    if r.stage = .leaving then
      some { s with cache := s.cache.drop r.buf, refs := s.refs.erase r }
    else none

/-- The buffer in use that an event is about. -/
def subject : BufEvent π → Option (BufRef π)
  | .bget _ _ _ => none
  | .acquire r => some r
  | .fill r => some r
  | .modify r _ => some r
  | .logWrite r => some r
  | .bwrite r => some r
  | .releasesleep r => some r
  | .drop r => some r

/-- One step. A panic, and a loop that does not end, is a step that does not exist. -/
def next (havedisk1 : Bool) (s : BufState π) (event : BufEvent π) : Option (BufState π) :=
  match subject event with
  | some r => if r ∈ s.refs then use havedisk1 s r event else none
  | none =>
    match event with
    | .bget p dev blockno =>
      match s.cache.bget dev blockno with
      | some (.ok (i, cache)) => some { s with cache, refs := ⟨p, i, dev, blockno, .waiting⟩ :: s.refs }
      | _ => none
    | _ => none

/-- Steps. -/
def Step (havedisk1 : Bool) (s : BufState π) (event : BufEvent π) (t : BufState π) : Prop :=
  next havedisk1 s event = some t

/-- After `binit`. -/
def start (disk : Nat → Nat → Block) : BufState π where
  cache := LinkedCache.binit
  disk := disk
  refs := []

end BufState

end Xv6
