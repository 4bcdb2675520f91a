import Xv6.Fs
import Xv6.Names

/-!
# Directory entries in bytes

`dirlookup` and `dirlink` of `fs.c` over the content of a directory, sixteen bytes an entry: two
bytes of inode number and a name that is padded with zeros and has no terminator when it fills
its `DIRSIZ` bytes. A string is the bytes from its address on; the string functions of
`string.c` read no further than they must. The inode that `dirlookup` gets is named by its
number.
-/

namespace Xv6

/-! ## Strings -/

/-- The bytes from an address on. -/
abbrev Chars : Type := Nat → UInt8

/-- A string of some bytes, with a NUL behind them. -/
def chars (bytes : List UInt8) : Chars := fun i => bytes.getD i 0

/-- The string one byte further. -/
def Chars.next (s : Chars) : Chars := fun i => s (i + 1)

/-- `strncmp`. -/
def strncmp (p q : Chars) : Nat → Int
  | 0 => 0
  | n + 1 => if p 0 ≠ 0 ∧ p 0 = q 0 then strncmp p.next q.next n else (p 0).toNat - (q 0).toNat

/-- The bytes that `strncpy` stores: the string up to its NUL, then zeros. -/
def strncpy (t : Chars) : Nat → List UInt8
  | 0 => []
  | n + 1 => t 0 :: if t 0 = 0 then List.replicate n 0 else strncpy t.next n

/-- `namecmp`. -/
def namecmp (s t : Chars) : Int := strncmp s t DIRSIZ

/-! ## Entries -/

/-- `sizeof(struct dirent)`. -/
def direntSize : Nat := 16

/-- `de.inum`, a little-endian `ushort`. -/
def deInum (de : List UInt8) : Nat := (de.getD 0 0).toNat + 256 * (de.getD 1 0).toNat

/-- `de.name`. -/
def deName (de : List UInt8) : Chars := fun i => de.getD (2 + i) 0

/-- The bytes of an entry after `strncpy(de.name, name, DIRSIZ); de.inum = inum`. -/
def putDirent (inum : Nat) (name : Chars) : List UInt8 :=
  UInt8.ofNat inum :: UInt8.ofNat (inum / 256) :: strncpy name DIRSIZ

/-! ## Calls -/

/-- The loop of `dirlookup`, from an offset on. -/
def dirlookupFrom (sb : Superblock) (devsw : Devsw) (dp : Inode) (name : Chars) (off : Nat) :
    Nat → Kernel (Inode × Option (Nat × Nat))
  | 0 => pure (dp, none)
  | fuel + 1 =>
    if off < dp.size then do
      let (dp, r, de) ← readi sb devsw dp off direntSize
      if r ≠ direntSize then panic "dirlookup read"
      else if deInum de = 0 then dirlookupFrom sb devsw dp name (off + direntSize) fuel
      else if namecmp name (deName de) = 0 then pure (dp, some (deInum de, off))
      else dirlookupFrom sb devsw dp name (off + direntSize) fuel
    else pure (dp, none)

/-- `dirlookup`: the inode number and the offset of the entry of a name. -/
def dirlookup (sb : Superblock) (devsw : Devsw) (dp : Inode) (name : Chars) :
    Kernel (Inode × Option (Nat × Nat)) :=
  if dp.type ≠ T_DIR then panic "dirlookup not DIR"
  else dirlookupFrom sb devsw dp name 0 (dp.size / direntSize + 1)

/-- The second loop of `dirlink`: the offset of an empty entry, or of the end. -/
def emptyDirentFrom (sb : Superblock) (devsw : Devsw) (dp : Inode) (off : Nat) :
    Nat → Kernel (Inode × Nat)
  | 0 => pure (dp, off)
  | fuel + 1 =>
    if off < dp.size then do
      let (dp, r, de) ← readi sb devsw dp off direntSize
      if r ≠ direntSize then panic "dirlink read"
      else if deInum de = 0 then pure (dp, off)
      else emptyDirentFrom sb devsw dp (off + direntSize) fuel
    else pure (dp, off)

/-- `dirlink`: write a new entry into a directory. -/
def dirlink (sb : Superblock) (devsw : Devsw) (dp : Inode) (name : Chars) (inum : Nat) :
    Kernel (Inode × Int) := do
  let (dp, found) ← dirlookup sb devsw dp name
  match found with
  | some _ => pure (dp, -1)
  | none => do
    let (dp, off) ← emptyDirentFrom sb devsw dp 0 (dp.size / direntSize + 1)
    let (dp, r) ← writei sb devsw dp (putDirent inum name) off
    if r ≠ direntSize then panic "dirlink" else pure (dp, 0)

/-- The part of `sys_unlink` that removes an entry: -1 if there is none, else zeros over it. -/
def unlinkDirent (sb : Superblock) (devsw : Devsw) (dp : Inode) (name : Chars) :
    Kernel (Inode × Int) := do
  let (dp, found) ← dirlookup sb devsw dp name
  match found with
  | none => pure (dp, -1)
  | some (_, off) => do
    let (dp, r) ← writei sb devsw dp (List.replicate direntSize 0) off
    if r ≠ direntSize then panic "unlink: writei" else pure (dp, 0)

end Xv6
