import Mathlib.Data.BitVec
import Xv6.Bio
import Xv6.Lib.Chain

/-!
# Disk drivers

The queued driver `ide.c` with the controller it talks to, and the driver `memide.c` that copies
from and to memory at once. Everything between `acquire(&idelock)` and where a function sleeps or
releases the lock is one step. Requests are numbered in the order in which they join the queue.
The controller executes a command that was started, on the sector that its registers name, and
interrupts once for it. A panic is a step that does not exist.
-/

namespace Xv6

/-- `buf.h`: the buffer has been read from disk. -/
def B_VALID : BitVec 32 := 2

/-- `buf.h`: the buffer needs to be written to disk. -/
def B_DIRTY : BitVec 32 := 4

/-- `struct buf` as the drivers see it. -/
structure DiskBuf (π β : Type) where
  flags : BitVec 32
  dev : Nat
  blockno : Nat
  /-- The holder of `lock`. -/
  holder : Option π
  /-- `qnext`: disk queue. -/
  qnext : Option β
  data : Block

namespace DiskBuf

variable {π β : Type}

/-- `(b->flags & (B_VALID|B_DIRTY)) == B_VALID`: the buffer is in sync with the disk. -/
def synced (b : DiskBuf π β) : Prop := b.flags &&& (B_VALID ||| B_DIRTY) = B_VALID

instance (b : DiskBuf π β) : Decidable b.synced := inferInstanceAs (Decidable (_ = _))

/-- `b->flags & B_DIRTY`. -/
def dirty (b : DiskBuf π β) : Prop := b.flags &&& B_DIRTY ≠ 0

instance (b : DiskBuf π β) : Decidable b.dirty := inferInstanceAs (Decidable (_ ≠ _))

end DiskBuf

/-! ## Controller -/

/-- What `idestart` writes to the ports. -/
structure IdeCommand where
  /-- Port `0x1f2`: number of sectors. -/
  sectors : Nat
  /-- Ports `0x1f3` to `0x1f5`: the low bytes of the sector. -/
  low : Nat × Nat × Nat
  /-- Port `0x1f6`: the drive and the high bits of the sector. -/
  high : Nat
  /-- Port `0x1f7`: the command. -/
  command : Nat
  /-- The words written to port `0x1f0`. -/
  out : Option Block

/-- The sector that the registers name. -/
def IdeCommand.sector (c : IdeCommand) : Nat :=
  c.low.1 + 2 ^ 8 * c.low.2.1 + 2 ^ 16 * c.low.2.2 + 2 ^ 24 * (c.high % 2 ^ 4)

/-- The drive that the registers name. -/
def IdeCommand.drive (c : IdeCommand) : Nat := c.high / 2 ^ 4 % 2

/-- `IDE_CMD_READ`. -/
def IDE_CMD_READ : Nat := 0x20

/-- `IDE_CMD_WRITE`. -/
def IDE_CMD_WRITE : Nat := 0x30

/-- The blocks of the two drives. -/
abbrev Drives : Type := Nat → Nat → Block

/-- A block is written. -/
def Drives.write (disk : Drives) (drive sector : Nat) (data : Block) : Drives :=
  Function.update disk drive (Function.update (disk drive) sector data)

/-- Where the controller is. -/
inductive Controller where
  /-- Ready for a command. -/
  | idle
  /-- It has a command to execute. -/
  | busy (c : IdeCommand)
  /-- It has executed a command, with these words at port `0x1f0`. -/
  | finished (c : IdeCommand) (port : Block)

/-- The disk and the port after a command. -/
def IdeCommand.execute (c : IdeCommand) (disk : Drives) : Drives × Block :=
  match c.out with
  | some data => if c.command = IDE_CMD_WRITE then (disk.write c.drive c.sector data, data) else (disk, data)
  | none => (disk, disk c.drive c.sector)

/-- `idestart`. A block is one sector. -/
def idestart {π β : Type} (b : DiskBuf π β) : Option IdeCommand :=
  if FSSIZE ≤ b.blockno then none
  else
    let sector := b.blockno
    some {
      sectors := 1
      low := (sector % 2 ^ 8, sector / 2 ^ 8 % 2 ^ 8, sector / 2 ^ 16 % 2 ^ 8)
      high := 0xe0 ||| (b.dev % 2 * 2 ^ 4) ||| (sector / 2 ^ 24 % 2 ^ 4)
      command := if b.dirty then IDE_CMD_WRITE else IDE_CMD_READ
      out := if b.dirty then some b.data else none }

/-! ## Queue -/

/-- Where a call of `iderw` is. -/
inductive IdeStage where
  /-- It sleeps on its buffer. -/
  | asleep
  /-- `wakeup` has woken it. -/
  | woken
  /-- Something else, such as `kill`, has woken it. -/
  | roused
  deriving DecidableEq

/-- A call of `iderw`. -/
structure IdeCall (β : Type) where
  /-- The number of the request. -/
  number : Nat
  /-- The buffer. -/
  buf : β
  /-- Where the call is. -/
  stage : IdeStage

/-- The driver, its buffers, the processes that call it and the disk. -/
structure Ide (π β : Type) where
  havedisk1 : Bool
  idequeue : Option β
  /-- The buffers. -/
  buf : β → DiskBuf π β
  disk : Drives
  controller : Controller
  /-- The call that each process is in. -/
  caller : π → Option (IdeCall β)
  /-- How many requests have joined the queue. -/
  count : Nat

/-- What may happen next. -/
inductive IdeEvent (π β : Type) where
  /-- A process calls `iderw`. -/
  | iderw (p : π) (b : β)
  /-- The controller executes its command. -/
  | execute
  /-- The interrupt for the command that was executed. -/
  | ideintr
  /-- A process that was woken tests its buffer. -/
  | resume (p : π)
  /-- A process that sleeps is made runnable by something else than the driver. -/
  | rouse (p : π)
  /-- A buffer that is in no request changes: its lock, its block, its data or its flags. -/
  | change (b : β) (flags : BitVec 32) (dev blockno : Nat) (holder : Option π) (data : Block)

/-- What has happened. -/
inductive IdeStep (π β : Type) where
  /-- A request joined the queue, with its buffer as it was, and its command if it was started. -/
  | submitted (p : π) (b : β) (request : DiskBuf π β) (started : Option IdeCommand)
  /-- A command was executed. -/
  | executed
  /-- A request was completed, and the next one started if there is one. -/
  | completed (b : β) (started : Option IdeCommand)
  /-- A call returned. -/
  | returned (p : π) (call : IdeCall β)
  /-- Something else. -/
  | quiet

namespace Ide

variable {π β : Type} [DecidableEq π] [DecidableEq β] [Fintype β]

/-- A buffer changes. -/
def setBuf (s : Ide π β) (b : β) (buf : DiskBuf π β) : Ide π β :=
  { s with buf := Function.update s.buf b buf }

/-- A process enters a call, goes on in it, or leaves it. -/
def setCaller (s : Ide π β) (p : π) (call : Option (IdeCall β)) : Ide π β :=
  { s with caller := Function.update s.caller p call }

/-- `b->qnext = x`. -/
def link (s : Ide π β) (b : β) (x : Option β) : Ide π β := s.setBuf b { s.buf b with qnext := x }

/-- Append `b` to `idequeue`. -/
def append (s : Ide π β) (b : β) : Ide π β :=
  let s := s.link b none
  match s.idequeue with
  | none => { s with idequeue := some b }
  | some x => s.link (Chain.last (fun b => (s.buf b).qnext) x (Fintype.card β)) (some b)

/-- `iderw` up to where it sleeps. Its loop does not find the buffer in sync, since the flags are
as they were when it was called. -/
def iderw (s : Ide π β) (p : π) (b : β) : Option (IdeStep π β × Ide π β) :=
  let request := s.buf b
  if request.holder ≠ some p ∨ request.synced ∨ (request.dev ≠ 0 ∧ s.havedisk1 = false) then none
  else
    let t := (s.append b).setCaller p (some ⟨s.count, b, .asleep⟩)
    let t := { t with count := s.count + 1 }
    if t.idequeue = some b then
      (idestart request).map fun c =>
        (.submitted p b request (some c), { t with controller := .busy c })
    else some (.submitted p b request none, t)

/-- `wakeup(b)`. -/
def wakeup (s : Ide π β) (b : β) : Ide π β :=
  { s with caller := fun p => (s.caller p).map fun call =>
      if call.buf = b ∧ call.stage = .asleep then { call with stage := .woken } else call }

/-- `ideintr` with these words at the port. -/
def ideintr (s : Ide π β) (port : Block) : Option (IdeStep π β × Ide π β) :=
  match s.idequeue with
  | none => some (.quiet, { s with controller := .idle })
  | some b =>
    let buf := s.buf b
    let t := { s with idequeue := buf.qnext, controller := .idle }
    let data := if buf.dirty then buf.data else port
    let t := (t.setBuf b { buf with
      data := data, flags := (buf.flags ||| B_VALID) &&& ~~~B_DIRTY }).wakeup b
    match t.idequeue with
    | none => some (.completed b none, t)
    | some x => (idestart (t.buf x)).map fun c => (.completed b (some c), { t with controller := .busy c })

/-- Whether a process is in a call of `iderw` on this buffer. -/
def inRequest (s : Ide π β) (b : β) (p : π) : Bool :=
  match s.caller p with
  | none => false
  | some call => decide (call.buf = b)

/-- One step. -/
def next (s : Ide π β) : IdeEvent π β → Option (IdeStep π β × Ide π β)
  | .iderw p b =>
    match s.caller p with
    | none => s.iderw p b
    | some _ => none
  | .execute =>
    match s.controller with
    | .busy c =>
      let after := c.execute s.disk
      some (.executed, { s with disk := after.1, controller := .finished c after.2 })
    | _ => none
  | .ideintr =>
    match s.controller with
    | .finished _ port => s.ideintr port
    | _ => none
  | .resume p =>
    match s.caller p with
    | none => none
    | some call =>
      if call.stage = .asleep then none
      else if (s.buf call.buf).synced then some (.returned p call, s.setCaller p none)
      else some (.quiet, s.setCaller p (some { call with stage := .asleep }))
  | .rouse p =>
    match s.caller p with
    | none => none
    | some call =>
      if call.stage = .asleep then some (.quiet, s.setCaller p (some { call with stage := .roused }))
      else none
  | .change b flags dev blockno holder data =>
    let buf := s.buf b
    let locked := match buf.holder with
      | none => false
      | some p => s.inRequest b p
    if locked then none
    else some (.quiet, s.setBuf b { buf with flags, dev, blockno, holder, data })

/-- Steps with what they did. -/
def Step (s : Ide π β) (step : IdeStep π β) (t : Ide π β) : Prop := ∃ event, s.next event = some (step, t)

/-- The driver after boot, with any buffers that are in no queue and any disk. -/
def start (havedisk1 : Bool) (buf : β → DiskBuf π β) (disk : Drives) : Ide π β where
  havedisk1 := havedisk1
  idequeue := none
  buf := buf
  disk := disk
  controller := .idle
  caller := fun _ => none
  count := 0

end Ide

/-! ## In memory -/

/-- `memide.c`: the blocks of `memdisk`. -/
structure Memide where
  disksize : Nat
  memdisk : Nat → Block

/-- `iderw` of `memide.c`: the buffer and the disk it leaves. -/
def Memide.iderw {π β : Type} [DecidableEq π] (m : Memide) (p : π) (b : DiskBuf π β) :
    Option (DiskBuf π β × Memide) :=
  if b.holder ≠ some p ∨ b.synced ∨ b.dev ≠ 1 ∨ m.disksize ≤ b.blockno then none
  else if b.dirty then
    let b := { b with flags := b.flags &&& ~~~B_DIRTY }
    let m := { m with memdisk := Function.update m.memdisk b.blockno b.data }
    some ({ b with flags := b.flags ||| B_VALID }, m)
  else
    let b := { b with data := m.memdisk b.blockno }
    some ({ b with flags := b.flags ||| B_VALID }, m)

end Xv6
