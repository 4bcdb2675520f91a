import Xv6.Log

/-!
# Block allocation and inode content

The part of `fs.c` that maps file offsets to disk blocks, and the readers of `file.c` above it.
An inode is passed as a value and returned changed. Offsets, lengths and addresses are
unsigned 32-bit numbers; the additions that the code tests for wrapping carry the modulus.
-/

namespace Xv6

/-! ## Allocation -/

/-- `bzero`: zero a block. -/
def bzero (bno : Nat) : Kernel Unit := do
  let _ ← bread bno
  modify bno fun _ => Block.zero
  logWrite bno
  brelse bno

/-- The inner loop of `balloc` over one free map block: the first clear bit from `bi` on whose
block exists. -/
def findFree (sb : Superblock) (data : Block) (b bi : Nat) : Nat → Option Nat
  | 0 => none
  | fuel + 1 =>
    if b + bi < sb.size then
      if data.bit bi then findFree sb data b (bi + 1) fuel else some bi
    else none

/-- The outer loop of `balloc`, from block `b` on. -/
def ballocFrom (sb : Superblock) (b : Nat) : Nat → Kernel Nat
  | 0 => panic "balloc: out of blocks"
  | fuel + 1 =>
    if b < sb.size then do
      let data ← bread (BBLOCK b sb)
      match findFree sb data b 0 BPB with
      | some bi => do
        modify (BBLOCK b sb) (Block.setBit · bi)
        logWrite (BBLOCK b sb)
        brelse (BBLOCK b sb)
        bzero (b + bi)
        pure (b + bi)
      | none => do
        brelse (BBLOCK b sb)
        ballocFrom sb (b + BPB) fuel
    else panic "balloc: out of blocks"

/-- `balloc`: allocate a zeroed disk block. The fuel covers every free map block. -/
def balloc (sb : Superblock) : Kernel Nat := ballocFrom sb 0 (sb.size / BPB + 1)

/-! ## Inodes -/

/-- `stat.h`: directory. -/
def T_DIR : Int := 1

/-- `stat.h`: file. -/
def T_FILE : Int := 2

/-- `stat.h`: device. -/
def T_DEV : Int := 3

/-- The copy of a disk inode held in `struct inode`, with its number. -/
structure Inode where
  /-- Inode number. -/
  inum : Nat
  /-- File type, a `short`. -/
  type : Int
  /-- Major device number, a `short`. -/
  major : Int
  /-- Minor device number, a `short`. -/
  minor : Int
  /-- Number of links, a `short`. -/
  nlink : Int
  /-- Size of the file in bytes. -/
  size : Nat
  /-- `uint addrs[NDIRECT+3]`. -/
  addrs : Fin (NDIRECT + 3) → Nat

/-- `ip->addrs[i] = addr`. -/
def Inode.setAddr (ip : Inode) (i : Fin (NDIRECT + 3)) (addr : Nat) : Inode :=
  { ip with addrs := Function.update ip.addrs i addr }

/-- Direct block numbers are indices into `addrs`. -/
theorem direct_lt {bn : Nat} (direct : bn < NDIRECT) : bn < NDIRECT + 3 :=
  Nat.lt_of_lt_of_le direct (Nat.le_add_right _ _)

/-- Slot of the single indirect block, `addrs[NDIRECT]`. -/
def slotSingle : Fin (NDIRECT + 3) := ⟨NDIRECT, by decide⟩

/-- Slot of the doubly indirect block, `addrs[NDIRECT+1]`. -/
def slotDouble : Fin (NDIRECT + 3) := ⟨NDIRECT + 1, by decide⟩

/-- Slot of the triply indirect block, `addrs[NDIRECT+2]`. -/
def slotTriple : Fin (NDIRECT + 3) := ⟨NDIRECT + 2, by decide⟩

/-- The 16 bits of a `short`. -/
def shortBits (value : Int) : Nat := (value % 65536).toNat

/-- The words of `struct dinode` in slot `inum % IPB`: two shorts a word, then the size and
the addresses. -/
def putDinode (ip : Inode) (data : Block) : Block :=
  let base := 16 * (ip.inum % IPB)
  let data := data.setWord base (shortBits ip.type + 65536 * shortBits ip.major)
  let data := data.setWord (base + 1) (shortBits ip.minor + 65536 * shortBits ip.nlink)
  let data := data.setWord (base + 2) ip.size
  (List.finRange (NDIRECT + 3)).foldl (fun data i => data.setWord (base + 3 + i.val) (ip.addrs i)) data

/-- The `short` with given 16 bits. -/
def toShort (bits : Nat) : Int := if bits < 32768 then bits else bits - 65536

/-- The fields of `struct dinode` in slot `inum % IPB`, as `ilock` copies them. -/
def getDinode (inum : Nat) (data : Block) : Inode where
  inum := inum
  type := toShort (data.word (16 * (inum % IPB)) % 65536)
  major := toShort (data.word (16 * (inum % IPB)) / 65536)
  minor := toShort (data.word (16 * (inum % IPB) + 1) % 65536)
  nlink := toShort (data.word (16 * (inum % IPB) + 1) / 65536)
  size := data.word (16 * (inum % IPB) + 2)
  addrs i := data.word (16 * (inum % IPB) + 3 + i.val)

/-- `iupdate`: copy a modified in-memory inode to disk. -/
def iupdate (sb : Superblock) (ip : Inode) : Kernel Unit := do
  let _ ← bread (IBLOCK ip.inum sb)
  modify (IBLOCK ip.inum sb) (putDinode ip)
  logWrite (IBLOCK ip.inum sb)
  brelse (IBLOCK ip.inum sb)

/-! ## Block map -/

/-- `if((addr = ip->addrs[i]) == 0) ip->addrs[i] = addr = balloc(ip->dev);` -/
def loadSlot (sb : Superblock) (ip : Inode) (i : Fin (NDIRECT + 3)) : Kernel (Inode × Nat) :=
  if ip.addrs i = 0 then do
    let addr ← balloc sb
    pure (ip.setAddr i addr, addr)
  else pure (ip, ip.addrs i)

/-- One level of an index tree: `bp = bread(addr)`, then
`if((addr = a[i]) == 0) a[i] = addr = balloc(ip->dev)`, then `brelse(bp)`. Only the single
indirect range calls `log_write(bp)` after the store. -/
def loadEntry (sb : Superblock) (logged : Bool) (addr i : Nat) : Kernel Nat := do
  let data ← bread addr
  if data.word i = 0 then do
    let fresh ← balloc sb
    modify addr (Block.setWord · i fresh)
    if logged then logWrite addr else pure ()
    brelse addr
    pure fresh
  else do
    brelse addr
    pure (data.word i)

/-- The end of the doubly and triply indirect ranges: `bp = bread(addr); log_write(bp);
brelse(bp);` on the data block. -/
def touchData (addr : Nat) : Kernel Unit := do
  let _ ← bread addr
  logWrite addr
  brelse addr

/-- The single indirect range of `bmap`. -/
def bmapSingle (sb : Superblock) (ip : Inode) (bn : Nat) : Kernel (Inode × Nat) := do
  let (ip, addr) ← loadSlot sb ip slotSingle
  let addr ← loadEntry sb true addr bn
  pure (ip, addr)

/-- The doubly indirect range of `bmap`. -/
def bmapDouble (sb : Superblock) (ip : Inode) (bn : Nat) : Kernel (Inode × Nat) := do
  let (ip, addr) ← loadSlot sb ip slotDouble
  let addr ← loadEntry sb false addr (bn / NINDIRECT)
  let addr ← loadEntry sb false addr (bn % NINDIRECT)
  touchData addr
  pure (ip, addr)

/-- The triply indirect range of `bmap`. -/
def bmapTriple (sb : Superblock) (ip : Inode) (bn : Nat) : Kernel (Inode × Nat) := do
  let (ip, addr) ← loadSlot sb ip slotTriple
  let addr ← loadEntry sb false addr (bn / (NINDIRECT * NINDIRECT))
  let addr ← loadEntry sb false addr (bn % (NINDIRECT * NINDIRECT) / NINDIRECT)
  let addr ← loadEntry sb false addr (bn % NINDIRECT)
  touchData addr
  pure (ip, addr)

/-- `bmap`: the disk block address of the `bn`th block of an inode, allocating if there is
none. -/
def bmap (sb : Superblock) (ip : Inode) (bn : Nat) : Kernel (Inode × Nat) :=
  if h : bn < NDIRECT then loadSlot sb ip ⟨bn, direct_lt h⟩
  else if bn - NDIRECT < NINDIRECT then bmapSingle sb ip (bn - NDIRECT)
  else if bn - NDIRECT - NINDIRECT < NINDIRECT * NINDIRECT then
    bmapDouble sb ip (bn - NDIRECT - NINDIRECT)
  else if bn - NDIRECT - NINDIRECT - NINDIRECT * NINDIRECT < NINDIRECT * NINDIRECT * NINDIRECT then
    bmapTriple sb ip (bn - NDIRECT - NINDIRECT - NINDIRECT * NINDIRECT)
  else panic "bmap: out of range"

/-! ## Inode content -/

/-- `struct devsw`: the device functions of each major number, absent where the pointer is
null. -/
structure Devsw where
  /-- `devsw[major].read`. -/
  read : Int → Option (Inode → Nat → Kernel (Int × List UInt8))
  /-- `devsw[major].write`. -/
  write : Int → Option (Inode → List UInt8 → Kernel Int)

/-- Unsigned 32-bit addition. -/
def add32 (a b : Nat) : Nat := (a + b) % 2 ^ 32

/-- The copy loop of `readi`, with `rest = n - tot` bytes left to read at `off`. -/
def readLoop (sb : Superblock) (ip : Inode) (off rest : Nat) :
    Nat → Kernel (Inode × List UInt8)
  | 0 => pure (ip, [])
  | fuel + 1 =>
    if rest = 0 then pure (ip, [])
    else do
      let (ip, addr) ← bmap sb ip (off / BSIZE)
      let data ← bread addr
      let m := min rest (BSIZE - off % BSIZE)
      brelse addr
      let (ip, bytes) ← readLoop sb ip (off + m) (rest - m) fuel
      pure (ip, data.extract (off % BSIZE) m ++ bytes)

/-- `readi`: the result and the bytes stored to `dst`. -/
def readi (sb : Superblock) (devsw : Devsw) (ip : Inode) (off n : Nat) :
    Kernel (Inode × Int × List UInt8) :=
  if ip.type = T_DEV then
    if ip.major < 0 ∨ NDEV ≤ ip.major then pure (ip, -1, [])
    else match devsw.read ip.major with
      | none => pure (ip, -1, [])
      | some read => do
        let (r, bytes) ← read ip n
        pure (ip, r, bytes)
  else if off > ip.size ∨ add32 off n < off then pure (ip, -1, [])
  else do
    let n := if add32 off n > ip.size then ip.size - off else n
    let (ip, bytes) ← readLoop sb ip off n n
    pure (ip, n, bytes)

/-- The copy loop of `writei` over the bytes of `src` not yet written, ending with the final
offset. -/
def writeLoop (sb : Superblock) (ip : Inode) (off : Nat) (src : List UInt8) :
    Nat → Kernel (Inode × Nat)
  | 0 => pure (ip, off)
  | fuel + 1 =>
    if src.length = 0 then pure (ip, off)
    else do
      let (ip, addr) ← bmap sb ip (off / BSIZE)
      let _ ← bread addr
      let m := min src.length (BSIZE - off % BSIZE)
      modify addr (Block.splice · (off % BSIZE) (src.take m))
      logWrite addr
      brelse addr
      writeLoop sb ip (off + m) (src.drop m) fuel

/-- `writei` of the `n = src.length` bytes of `src`. -/
def writei (sb : Superblock) (devsw : Devsw) (ip : Inode) (src : List UInt8) (off : Nat) :
    Kernel (Inode × Int) :=
  if ip.type = T_DEV then
    if ip.major < 0 ∨ NDEV ≤ ip.major then pure (ip, -1)
    else match devsw.write ip.major with
      | none => pure (ip, -1)
      | some write => do
        let r ← write ip src
        pure (ip, r)
  else if off > ip.size ∨ add32 off src.length < off then pure (ip, -1)
  else if add32 off src.length > MAXFILE * BSIZE then pure (ip, -1)
  else do
    let (ip, off) ← writeLoop sb ip off src src.length
    if 0 < src.length ∧ off > ip.size then do
      let ip := { ip with size := off }
      iupdate sb ip
      pure (ip, src.length)
    else pure (ip, src.length)

/-! ## Open files -/

/-- `struct file` types. -/
inductive FileType where
  | none | pipe | inode
  deriving DecidableEq, Repr

/-- The fields of `struct file` that reading uses; the inode it points to is passed beside. -/
structure File where
  type : FileType
  readable : Bool
  /-- `off`, a `uint`. -/
  off : Nat

/-- An `int` passed as a `uint`. -/
def toUint (n : Int) : Nat := (n % 2 ^ 32).toNat

/-- `fileread`; `piperead` stands for the reader of the file's pipe. No transaction is open
around the call of `readi`. -/
def fileread (sb : Superblock) (devsw : Devsw) (piperead : Int → Kernel (Int × List UInt8))
    (f : File) (ip : Inode) (n : Int) : Kernel (File × Inode × Int × List UInt8) :=
  if f.readable = false then pure (f, ip, -1, [])
  else match f.type with
    | .pipe => do
      let (r, bytes) ← piperead n
      pure (f, ip, r, bytes)
    | .inode => do
      let (ip, r, bytes) ← readi sb devsw ip f.off (toUint n)
      pure (if r > 0 then { f with off := add32 f.off r.toNat } else f, ip, r, bytes)
    | .none => panic "fileread"

/-- `filepread`: as `fileread` at a given offset, leaving `f->off`. -/
def filepread (sb : Superblock) (devsw : Devsw) (piperead : Int → Kernel (Int × List UInt8))
    (f : File) (ip : Inode) (n off : Int) : Kernel (Inode × Int × List UInt8) :=
  if f.readable = false then pure (ip, -1, [])
  else match f.type with
    | .pipe => do
      let (r, bytes) ← piperead n
      pure (ip, r, bytes)
    | .inode => readi sb devsw ip (toUint off) (toUint n)
    | .none => panic "fileread"

end Xv6
