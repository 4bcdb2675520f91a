import Xv6.Layout
import Xv6.Lib.Program

/-!
# Kernel code over buffers

The file system and the log touch the disk through locked buffers only. Their code is written
here as programs over five requests, each naming the block whose buffer it uses: `bread`,
a store into `b->data`, `log_write`, `bwrite` and `brelse`. What the requests do is decided by
a handler: the idealized store or the machine with its `NBUF` buffers.
-/

namespace Xv6

/-- Why kernel code does not return. -/
inductive Stop where
  /-- `panic(message)`. -/
  | panic (message : String)
  /-- The caller sleeps and nothing it waits for will happen. -/
  | blocked
  /-- A check of the proofs, not of the kernel: a changed buffer is released unrecorded. -/
  | unrecorded (blockno : Nat)
  /-- A request on a block whose buffer the caller does not hold. The code has a pointer to the
  buffer only while it holds it. -/
  | unheld (blockno : Nat)
  deriving DecidableEq, Repr

/-- Requests on the buffer of one block. There is one device, so blocks are named by number. -/
inductive BufOp where
  /-- `bread(dev, blockno)`: lock the buffer of the block and read its data. -/
  | bread (blockno : Nat)
  /-- A store into `b->data` of a locked buffer. -/
  | modify (blockno : Nat) (update : Block → Block)
  /-- `log_write(b)`. -/
  | logWrite (blockno : Nat)
  /-- `bwrite(b)`. -/
  | bwrite (blockno : Nat)
  /-- `brelse(b)`. -/
  | brelse (blockno : Nat)

/-- The signature of buffer requests; only `bread` answers with data. -/
def bufSignature : Signature where
  Op := BufOp
  Answer
    | .bread _ => Block
    | _ => Unit

/-- Kernel code over buffers. -/
abbrev Kernel (α : Type) : Type := Program bufSignature Stop α

/-- `panic(message)`. -/
def panic {α : Type} (message : String) : Kernel α := .stop (.panic message)

/-- `bread(dev, blockno)`. -/
def bread (blockno : Nat) : Kernel Block := .perform (S := bufSignature) (.bread blockno)

/-- Store into the data of the locked buffer of a block. -/
def modify (blockno : Nat) (update : Block → Block) : Kernel Unit :=
  .perform (S := bufSignature) (.modify blockno update)

/-- `log_write(b)`. -/
def logWrite (blockno : Nat) : Kernel Unit := .perform (S := bufSignature) (.logWrite blockno)

/-- `bwrite(b)`. -/
def bwrite (blockno : Nat) : Kernel Unit := .perform (S := bufSignature) (.bwrite blockno)

/-- `brelse(b)`. -/
def brelse (blockno : Nat) : Kernel Unit := .perform (S := bufSignature) (.brelse blockno)

end Xv6
