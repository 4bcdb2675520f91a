import Xv6.Fs

/-!
# Writing to open files

`filewrite` and `filepwrite` of `file.c`: a buffer is written in pieces small enough for one
transaction. The calls of `begin_op` and `end_op` around each piece leave the contents alone, so they
are not part of it.
-/

namespace Xv6

/-- `struct file` with the flag that writing tests. -/
structure WritableFile extends File where
  writable : Bool

/-- `int max = ((MAXOPBLOCKS-1-1-2) / 2) * 512`. -/
def maxPiece : Nat := (MAXOPBLOCKS - 1 - 1 - 2) / 2 * 512

/-- The loop of `filepwrite` over the bytes of `addr` not yet written, ending with those that are
left. Each piece is written at the same `off`. -/
def filepwriteLoop (sb : Superblock) (devsw : Devsw) (ip : Inode) (off : Nat) (rest : List UInt8) :
    Nat → Kernel (Inode × List UInt8)
  | 0 => pure (ip, rest)
  | fuel + 1 =>
    if rest.length = 0 then pure (ip, rest)
    else do
      let n1 := min rest.length maxPiece
      let (ip, r) ← writei sb devsw ip (rest.take n1) off
      if r < 0 then pure (ip, rest)
      else if r ≠ n1 then panic "short filewrite"
      else filepwriteLoop sb devsw ip off (rest.drop n1) fuel

/-- `filepwrite` of the `n = addr.length` bytes of `addr`; `pipewrite` stands for the writer of the
file's pipe. -/
def filepwrite (sb : Superblock) (devsw : Devsw) (pipewrite : List UInt8 → Kernel Int) (f : WritableFile)
    (ip : Inode) (addr : List UInt8) (off : Int) : Kernel (Inode × Int) :=
  if f.writable = false then pure (ip, -1)
  else match f.type with
    | .pipe => do
      let r ← pipewrite addr
      pure (ip, r)
    | .inode => do
      let (ip, rest) ← filepwriteLoop sb devsw ip (toUint off) addr addr.length
      pure (ip, if rest.length = 0 then addr.length else -1)
    | .none => panic "filewrite"

/-- The body of the loop of `filewrite`, from `begin_op` to `end_op`: one piece of the bytes of `addr` not
yet written goes to `f->off`. -/
def filewritePiece (sb : Superblock) (devsw : Devsw) (f : WritableFile) (ip : Inode) (rest : List UInt8) :
    Kernel (WritableFile × Inode × Int) := do
  let (ip, r) ← writei sb devsw ip (rest.take (min rest.length maxPiece)) f.off
  pure (if 0 < r then { f with off := add32 f.off r.toNat } else f, ip, r)

/-- The loop of `filewrite` over the bytes of `addr` not yet written, ending with those that are left. -/
def filewriteLoop (sb : Superblock) (devsw : Devsw) (f : WritableFile) (ip : Inode) (rest : List UInt8) :
    Nat → Kernel (WritableFile × Inode × List UInt8)
  | 0 => pure (f, ip, rest)
  | fuel + 1 =>
    if rest.length = 0 then pure (f, ip, rest)
    else do
      let (f, ip, r) ← filewritePiece sb devsw f ip rest
      if r < 0 then pure (f, ip, rest)
      else if r ≠ min rest.length maxPiece then panic "short filewrite"
      else filewriteLoop sb devsw f ip (rest.drop (min rest.length maxPiece)) fuel

/-- `filewrite` of the `n = addr.length` bytes of `addr`. -/
def filewrite (sb : Superblock) (devsw : Devsw) (pipewrite : List UInt8 → Kernel Int) (f : WritableFile)
    (ip : Inode) (addr : List UInt8) : Kernel (WritableFile × Inode × Int) :=
  if f.writable = false then pure (f, ip, -1)
  else match f.type with
    | .pipe => do
      let r ← pipewrite addr
      pure (f, ip, r)
    | .inode => do
      let (f, ip, rest) ← filewriteLoop sb devsw f ip addr addr.length
      pure (f, ip, if rest.length = 0 then addr.length else -1)
    | .none => panic "filewrite"

end Xv6
