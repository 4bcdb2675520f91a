import Xv6.Dirent

/-!
# Building the disk image

`mkfs.c`: the program on the host that writes the first file system. It shares the format of
`fs.h` with the kernel and has its own `ialloc`, `balloc` and block map. `iappend` knows direct
and single indirect addresses only. A fault is an assertion that fails or an index outside an
array.
-/

namespace Xv6

/-- Why `mkfs` does not finish as written. -/
inductive MkfsFault where
  /-- `assert` fails. -/
  | assertion (text : String)
  /-- An array is indexed outside its bounds. -/
  | outside (array : String) (index : Nat)
  deriving DecidableEq, Repr

/-- The image, with `freeinode` and `freeblock`. -/
structure DiskImage where
  /-- The sectors of the image, one block each. -/
  sectors : Nat → Block
  /-- The next inode number. -/
  freeinode : Nat
  /-- The first block not in use. -/
  freeblock : Nat

/-- `nmeta`: boot block, super block, log, inode blocks and free map. -/
def DiskImage.nmeta : Nat := 2 + LOGSIZE + (200 / IPB + 1) + (40000 / BPB + 1)

/-- The words of the super block. -/
def superWords : List Nat :=
  [mkfsSuperblock.size, mkfsSuperblock.size - DiskImage.nmeta, mkfsSuperblock.ninodes, mkfsSuperblock.nlog,
    mkfsSuperblock.logstart, mkfsSuperblock.inodestart, mkfsSuperblock.bmapstart]

/-- The image before any inode: zeroes and the super block. -/
def blankImage : DiskImage where
  sectors b := if b = 1 then Block.ofWords fun i => superWords.getD i 0 else Block.zero
  freeinode := 1
  freeblock := DiskImage.nmeta

namespace DiskImage

/-- `wsect`. -/
def wsect (img : DiskImage) (sec : Nat) (buf : Block) : DiskImage :=
  { img with sectors := Function.update img.sectors sec buf }

/-- `rinode`. -/
def rinode (img : DiskImage) (inum : Nat) : Inode :=
  getDinode inum (img.sectors (IBLOCK inum mkfsSuperblock))

/-- `winode`. -/
def winode (img : DiskImage) (din : Inode) : DiskImage :=
  img.wsect (IBLOCK din.inum mkfsSuperblock) (putDinode din (img.sectors (IBLOCK din.inum mkfsSuperblock)))

/-- `ialloc`. -/
def ialloc (img : DiskImage) (type : Int) : Nat × DiskImage :=
  (img.freeinode, { img with freeinode := img.freeinode + 1 }.winode
    { inum := img.freeinode, type, major := 0, minor := 0, nlink := 1, size := 0, addrs := fun _ => 0 })

/-- The image after `freeblock++`. -/
def taken (img : DiskImage) : DiskImage := { img with freeblock := img.freeblock + 1 }

/-- `if(addrs[i] == 0) addrs[i] = freeblock++`. -/
def loadAddr (img : DiskImage) (din : Inode) (i : Fin (NDIRECT + 3)) : Inode × DiskImage :=
  if din.addrs i = 0 then (din.setAddr i img.freeblock, img.taken) else (din, img)

/-- The block of `iappend` for file block `fbn`: the address `x` and what was allocated for it. -/
def appendBlock (img : DiskImage) (din : Inode) (fbn : Nat) :
    Except MkfsFault (Nat × Inode × DiskImage) :=
  if h : fbn < NDIRECT then
    let i : Fin (NDIRECT + 3) := ⟨fbn, direct_lt h⟩
    let (din, img) := img.loadAddr din i
    .ok (din.addrs i, din, img)
  else
    let (din, img) := img.loadAddr din slotSingle
    let indirect := img.sectors (din.addrs slotSingle)
    if NINDIRECT ≤ fbn - NDIRECT then .error (.outside "indirect" (fbn - NDIRECT))
    else if indirect.word (fbn - NDIRECT) = 0 then
      .ok (img.freeblock, din,
        img.taken.wsect (din.addrs slotSingle) (indirect.setWord (fbn - NDIRECT) img.freeblock))
    else .ok (indirect.word (fbn - NDIRECT), din, img)

/-- The loop of `iappend` over the bytes `p` not yet written. -/
def appendLoop (img : DiskImage) (din : Inode) (off : Nat) (p : List UInt8) :
    Nat → Except MkfsFault (Inode × DiskImage × Nat)
  | 0 => .ok (din, img, off)
  | fuel + 1 =>
    if p.length = 0 then .ok (din, img, off)
    else if MAXFILE ≤ off / BSIZE then .error (.assertion "fbn < MAXFILE")
    else do
      let (x, din, img) ← img.appendBlock din (off / BSIZE)
      let n1 := min p.length ((off / BSIZE + 1) * BSIZE - off)
      let img := img.wsect x ((img.sectors x).splice (off - off / BSIZE * BSIZE) (p.take n1))
      appendLoop img din (off + n1) (p.drop n1) fuel

/-- `iappend`. -/
def iappend (img : DiskImage) (inum : Nat) (p : List UInt8) : Except MkfsFault DiskImage := do
  let (din, img, off) ← img.appendLoop (img.rinode inum) (img.rinode inum).size p p.length
  pure (img.winode { din with size := off })

end DiskImage

/-- The bits that `balloc` of `mkfs` sets. -/
def bitmap (used : Nat) : Block := (List.range used).foldl Block.setBit Block.zero

namespace DiskImage

/-- `balloc` of `mkfs`: mark the first blocks as used. -/
def balloc (img : DiskImage) (used : Nat) : Except MkfsFault DiskImage :=
  if BSIZE * 8 ≤ used then .error (.assertion "used < BSIZE*8")
  else .ok (img.wsect mkfsSuperblock.bmapstart (bitmap used))

/-- `while((cc = read(fd, buf, sizeof(buf))) > 0) iappend(inum, buf, cc);`. -/
def appendAll (img : DiskImage) (inum : Nat) : List (List UInt8) → Except MkfsFault DiskImage
  | [] => .ok img
  | buf :: rest => do
    let img ← img.iappend inum buf
    appendAll img inum rest

end DiskImage

/-- A file on the host: its name, and the bytes that each `read` returned. -/
structure HostFile where
  /-- `argv[i]`. -/
  name : List UInt8
  /-- What `read` returned, call by call. -/
  reads : List (List UInt8)
  /-- A call returns some bytes, at most `sizeof(buf)`. -/
  pieces : ∀ buf ∈ reads, 0 < buf.length ∧ buf.length ≤ BSIZE

/-- The content of a file on the host. -/
def HostFile.content (file : HostFile) : List UInt8 := file.reads.flatten

/-- The name in the image: a leading `_` is skipped. -/
def HostFile.entryName (file : HostFile) : List UInt8 :=
  if file.name.head? = some 95 then file.name.drop 1 else file.name

namespace DiskImage

/-- The loop of `main` over the files. -/
def addFiles (img : DiskImage) (rootino : Nat) : List HostFile → Except MkfsFault DiskImage
  | [] => .ok img
  | file :: rest =>
    if slash ∈ file.name then .error (.assertion "index(argv[i], '/') == 0")
    else do
      let (inum, img) := img.ialloc T_FILE
      let img ← img.iappend rootino (putDirent inum (chars file.entryName))
      let img ← img.appendAll inum file.reads
      addFiles img rootino rest

end DiskImage

/-- `main`: the image of some files. -/
def mkfsMain (files : List HostFile) : Except MkfsFault DiskImage := do
  let (rootino, img) := blankImage.ialloc T_DIR
  if rootino ≠ ROOTINO then .error (.assertion "rootino == ROOTINO")
  else do
    let img ← img.iappend rootino (putDirent rootino (chars dot))
    let img ← img.iappend rootino (putDirent rootino (chars dotdot))
    let img ← img.addFiles rootino files
    -- fix size of root inode dir
    let din := img.rinode rootino
    let img := img.winode { din with size := (din.size / BSIZE + 1) * BSIZE }
    img.balloc img.freeblock

end Xv6
