import Mathlib.Logic.Function.Basic
import Xv6.Syscall

/-!
# Names and links

The calls of `sysfile.c` that create, link, unlink, open and close files and change directories,
with the functions of `fs.c` under them, each call atomic. An inode is its disk copy, which the
in-memory copy always equals; a directory's content is the list of its entries, and a byte offset is
16 times the index of an entry. A call either returns or stops with the text of a panic. Full
directories and a full disk are left out.
-/

namespace Xv6

/-- `fs.h`: characters of a name. -/
def DIRSIZ : Nat := 14

/-- `fs.h`: the root's inode number. -/
def ROOTINO : Nat := 1

/-- `mkfs.c`: number of inodes. -/
def NINODES : Nat := 200

/-- `param.h`: maximum number of active inodes. -/
def NINODE : Nat := 50

/-- A name of a directory entry up to its first NUL, at most `DIRSIZ` bytes. -/
abbrev Name : Type := List UInt8

/-- `"."`. -/
def dot : Name := [46]

/-- `".."`. -/
def dotdot : Name := [46, 46]

/-- `'/'`. -/
def slash : UInt8 := 47

/-- The value of a sum that is stored in a `short`. -/
def short (n : Int) : Int := (n + 2 ^ 15) % 2 ^ 16 - 2 ^ 15

/-- `struct dirent`. -/
structure Dirent where
  /-- `inum`, 0 for an entry that is not in use. -/
  inum : Nat
  name : Name
  deriving DecidableEq

/-- An inode as the calls on names see it. -/
structure Node where
  /-- `type`, 0 for an inode that is free. -/
  type : Int
  major : Int
  minor : Int
  nlink : Int
  /-- The entries of a directory. -/
  entries : List Dirent
  deriving DecidableEq

/-- Inodes, the references to them, and the processes that hold these. -/
@[ext]
structure Names where
  /-- The inodes. -/
  inode : Nat → Node
  /-- `ref` of the cache entry of an inode, 0 if it has none. -/
  ref : Nat → Nat
  /-- `valid` of the cache entry. -/
  valid : Nat → Bool
  /-- `cwd` of a process, if there is such a process. -/
  cwd : Nat → Option Nat
  /-- `ofile` of a process. -/
  ofile : Nat → Nat → Option Nat
  /-- `ref` of an entry of the file table. -/
  fileRef : Nat → Nat
  /-- `ip` of a file of type `FD_INODE`. -/
  fileIp : Nat → Option Nat

/-- `skipelem`: the next path element, cut to `DIRSIZ` bytes, and the path behind it. -/
def skipelem (path : List UInt8) : Option (Name × List UInt8) :=
  match path.dropWhile (· == slash) with
  | [] => none
  | first :: rest =>
    let s := first :: rest
    some ((s.takeWhile (· != slash)).take DIRSIZ, (s.dropWhile (· != slash)).dropWhile (· == slash))

/-- The entry of a name: the inode it names and its index. -/
def findEntry (name : Name) : List Dirent → Option (Nat × Nat)
  | [] => none
  | e :: rest =>
    if e.inum ≠ 0 ∧ e.name = name then some (e.inum, 0)
    else (findEntry name rest).map fun (inum, off) => (inum, off + 1)

/-- An entry is written in the first place that is not in use, or at the end. -/
def putEntry (de : Dirent) : List Dirent → List Dirent
  | [] => [de]
  | e :: rest => if e.inum = 0 then de :: rest else e :: putEntry de rest

/-- `isdirempty`. -/
def isdirempty (entries : List Dirent) : Bool := (entries.drop 2).all fun e => e.inum == 0

namespace Names

/-- Replace an inode. -/
def setInode (s : Names) (inum : Nat) (ip : Node) : Names := { s with inode := Function.update s.inode inum ip }

/-- Replace the entries of a directory. -/
def setEntries (s : Names) (dp : Nat) (entries : List Dirent) : Names :=
  s.setInode dp { s.inode dp with entries }

/-- `ip->nlink += k` and `iupdate`. -/
def addLink (s : Names) (ip : Nat) (k : Int) : Names :=
  s.setInode ip { s.inode ip with nlink := short ((s.inode ip).nlink + k) }

/-- Replace a reference count. -/
def setRef (s : Names) (inum n : Nat) : Names := { s with ref := Function.update s.ref inum n }

/-- Replace a `valid`. -/
def setValid (s : Names) (inum : Nat) (valid : Bool) : Names := { s with valid := Function.update s.valid inum valid }

/-- The number of cache entries in use. -/
def cached (s : Names) : Nat := (List.range NINODES).countP fun inum => 0 < s.ref inum

/-- `iget`. -/
def iget (s : Names) (inum : Nat) : Except String Names :=
  if 0 < s.ref inum then .ok (s.setRef inum (s.ref inum + 1))
  else if NINODE ≤ s.cached then .error "iget: no inodes"
  else .ok ((s.setRef inum 1).setValid inum false)

/-- `idup`. -/
def idup (s : Names) (inum : Nat) : Names := s.setRef inum (s.ref inum + 1)

/-- `ilock`. -/
def ilock (s : Names) (inum : Nat) : Except String Names :=
  if s.ref inum = 0 then .error "ilock"
  else if s.valid inum then .ok s
  else if (s.inode inum).type = 0 then .error "ilock: no type"
  else .ok (s.setValid inum true)

/-- `iput` frees an inode without links when its last reference goes. -/
def reclaim (s : Names) (inum : Nat) : Names :=
  if s.valid inum ∧ (s.inode inum).nlink = 0 ∧ s.ref inum = 1 then
    (s.setInode inum { s.inode inum with type := 0, entries := [] }).setValid inum false
  else s

/-- `iput`. -/
def iput (s : Names) (inum : Nat) : Names := (s.reclaim inum).setRef inum ((s.reclaim inum).ref inum - 1)

/-- `ialloc`. -/
def ialloc (s : Names) (type : Int) : Except String (Nat × Names) :=
  match (List.range' 1 (NINODES - 1)).find? fun inum => (s.inode inum).type = 0 with
  | none => .error "ialloc: no inodes"
  | some inum => do
    let s ← (s.setInode inum ⟨type, 0, 0, 0, []⟩).iget inum
    pure (inum, s)

/-- `dirlookup`: the inode and the index of the entry. -/
def dirlookup (s : Names) (dp : Nat) (name : Name) : Except String (Option (Nat × Nat) × Names) :=
  if (s.inode dp).type ≠ T_DIR then .error "dirlookup not DIR"
  else
    match findEntry name (s.inode dp).entries with
    | none => .ok (none, s)
    | some (inum, off) => do
      let s ← s.iget inum
      pure (some (inum, off), s)

/-- `dirlink`: false if the name is present. -/
def dirlink (s : Names) (dp : Nat) (name : Name) (inum : Nat) : Except String (Bool × Names) := do
  match ← s.dirlookup dp name with
  | (some (ip, _), s) => pure (false, s.iput ip)
  | (none, s) => pure (true, s.setEntries dp (putEntry ⟨inum, name⟩ (s.inode dp).entries))

/-- The loop of `namex`, over `fuel` path elements at most. -/
def namexLoop (nameiparent : Bool) : Nat → Names → Nat → List UInt8 → Except String (Option (Nat × Name) × Names)
  | 0, s, ip, _ => pure (none, s.iput ip)
  | fuel + 1, s, ip, path =>
    match skipelem path with
    | none => if nameiparent then pure (none, s.iput ip) else pure (some (ip, []), s)
    | some (name, path) => do
      let s ← s.ilock ip
      if (s.inode ip).type ≠ T_DIR then pure (none, s.iput ip)
      else if nameiparent && path.isEmpty then pure (some (ip, name), s)
      else
        match ← s.dirlookup ip name with
        | (none, s) => pure (none, s.iput ip)
        | (some (next, _), s) => namexLoop nameiparent fuel (s.iput ip) next path

/-- The inode at which a walk of a process starts, with a reference. -/
def start (s : Names) (p : Nat) (path : List UInt8) : Except String (Nat × Names) :=
  if path.head? = some slash then do
    let s ← s.iget ROOTINO
    pure (ROOTINO, s)
  else
    match s.cwd p with
    | none => .error "no process"
    | some ip => pure (ip, s.idup ip)

/-- `namex`: the inode and the last name. -/
def namex (s : Names) (p : Nat) (path : List UInt8) (nameiparent : Bool) :
    Except String (Option (Nat × Name) × Names) := do
  let (ip, s) ← s.start p path
  namexLoop nameiparent (path.length + 1) s ip path

/-! ## System calls -/

/-- The part of `sys_link` at the label `bad`. -/
def linkBad (s : Names) (ip : Nat) : Except String (Int × Names) := do
  let s ← s.ilock ip
  pure (-1, (s.addLink ip (-1)).iput ip)

/-- The part of `sys_link` after the link has been counted. -/
def linkTo (s : Names) (p : Nat) (new : List UInt8) (ip : Nat) : Except String (Int × Names) := do
  match ← s.namex p new true with
  | (none, s) => s.linkBad ip
  | (some (dp, name), s) => do
    let s ← s.ilock dp
    match ← s.dirlink dp name ip with
    | (false, s) => (s.iput dp).linkBad ip
    | (true, s) => pure (0, (s.iput dp).iput ip)

/-- `sys_link`. -/
def sysLink (s : Names) (p : Nat) (old new : List UInt8) : Except String (Int × Names) := do
  match ← s.namex p old false with
  | (none, s) => pure (-1, s)
  | (some (ip, _), s) => do
    let s ← s.ilock ip
    if (s.inode ip).type = T_DIR then pure (-1, s.iput ip) else (s.addLink ip 1).linkTo p new ip

/-- The part of `sys_unlink` that removes the entry. -/
def removeEntry (s : Names) (dp ip off : Nat) : Names :=
  let s := s.setEntries dp ((s.inode dp).entries.set off ⟨0, []⟩)
  let s := if (s.inode ip).type = T_DIR then s.addLink dp (-1) else s
  ((s.iput dp).addLink ip (-1)).iput ip

/-- The part of `sys_unlink` after the entry has been found. -/
def unlinkEntry (s : Names) (dp ip off : Nat) : Except String (Int × Names) := do
  let s ← s.ilock ip
  if (s.inode ip).nlink < 1 then .error "unlink: nlink < 1"
  else if (s.inode ip).type = T_DIR ∧ isdirempty (s.inode ip).entries = false then pure (-1, (s.iput ip).iput dp)
  else pure (0, s.removeEntry dp ip off)

/-- `sys_unlink`. -/
def sysUnlink (s : Names) (p : Nat) (path : List UInt8) : Except String (Int × Names) := do
  match ← s.namex p path true with
  | (none, s) => pure (-1, s)
  | (some (dp, name), s) => do
    let s ← s.ilock dp
    if name = dot ∨ name = dotdot then pure (-1, s.iput dp)
    else
      match ← s.dirlookup dp name with
      | (none, s) => pure (-1, s.iput dp)
      | (some (ip, off), s) => s.unlinkEntry dp ip off

/-- The part of `create` that makes the entries `.` and `..`. -/
def createDots (s : Names) (ip dp : Nat) : Except String Names := do
  match ← (s.addLink dp 1).dirlink ip dot ip with
  | (false, _) => .error "create dots"
  | (true, s) =>
    match ← s.dirlink ip dotdot dp with
    | (false, _) => .error "create dots"
    | (true, s) => pure s

/-- The part of `create` after the inode has been allocated. -/
def createAs (s : Names) (dp : Nat) (name : Name) (ip : Nat) (type major minor : Int) :
    Except String (Option Nat × Names) := do
  let s ← s.ilock ip
  let s := s.setInode ip { s.inode ip with major, minor, nlink := 1 }
  let s ← if type = T_DIR then s.createDots ip dp else pure s
  match ← s.dirlink dp name ip with
  | (false, _) => .error "create: dirlink"
  | (true, s) => pure (some ip, s.iput dp)

/-- `create`: the inode, locked. -/
def create (s : Names) (p : Nat) (path : List UInt8) (type major minor : Int) : Except String (Option Nat × Names) := do
  match ← s.namex p path true with
  | (none, s) => pure (none, s)
  | (some (dp, name), s) => do
    let s ← s.ilock dp
    match ← s.dirlookup dp name with
    | (some (ip, _), s) => do
      let s ← (s.iput dp).ilock ip
      if type = T_FILE ∧ (s.inode ip).type = T_FILE then pure (some ip, s) else pure (none, s.iput ip)
    | (none, s) => do
      let (ip, s) ← s.ialloc type
      s.createAs dp name ip type major minor

/-- `sys_mkdir` and `sys_mknod`. -/
def sysMake (s : Names) (p : Nat) (path : List UInt8) (type major minor : Int) : Except String (Int × Names) := do
  match ← s.create p path type major minor with
  | (none, s) => pure (-1, s)
  | (some ip, s) => pure (0, s.iput ip)

/-- `filealloc`. -/
def filealloc (s : Names) : Option Nat := (List.range NFILE).find? fun f => s.fileRef f == 0

/-- `fdalloc`. -/
def fdalloc (s : Names) (p : Nat) : Option Nat := (List.range NOFILE).find? fun fd => (s.ofile p fd).isNone

/-- The part of `sys_open` that opens the inode. -/
def openFile (s : Names) (p ip : Nat) : Int × Names :=
  match s.filealloc, s.fdalloc p with
  | some f, some fd =>
    (fd, { s with
      ofile := Function.update s.ofile p (Function.update (s.ofile p) fd (some f))
      fileRef := Function.update s.fileRef f 1
      fileIp := Function.update s.fileIp f (some ip) })
  | _, _ => (-1, s.iput ip)

/-- `sys_open` with `O_CREATE`. -/
def openCreate (s : Names) (p : Nat) (path : List UInt8) : Except String (Int × Names) := do
  match ← s.create p path T_FILE 0 0 with
  | (none, s) => pure (-1, s)
  | (some ip, s) => pure (s.openFile p ip)

/-- `sys_open` without `O_CREATE`; `rdonly` says that the mode is `O_RDONLY`. -/
def openExisting (s : Names) (p : Nat) (path : List UInt8) (rdonly : Bool) : Except String (Int × Names) := do
  match ← s.namex p path false with
  | (none, s) => pure (-1, s)
  | (some (ip, _), s) => do
    let s ← s.ilock ip
    if (s.inode ip).type = T_DIR ∧ rdonly = false then pure (-1, s.iput ip) else pure (s.openFile p ip)

/-- `fileclose` of a file that is an inode. -/
def fileclose (s : Names) (f : Nat) : Except String Names :=
  if s.fileRef f < 1 then .error "fileclose"
  else if 0 < s.fileRef f - 1 then pure { s with fileRef := Function.update s.fileRef f (s.fileRef f - 1) }
  else
    let t := { s with fileRef := Function.update s.fileRef f 0, fileIp := Function.update s.fileIp f none }
    match s.fileIp f with
    | none => pure t
    | some ip => pure (t.iput ip)

/-- `sys_close`. -/
def sysClose (s : Names) (p fd : Nat) : Except String (Int × Names) :=
  match s.ofile p fd with
  | none => pure (-1, s)
  | some f => do
    let s ← { s with ofile := Function.update s.ofile p (Function.update (s.ofile p) fd none) }.fileclose f
    pure (0, s)

/-- `sys_chdir`. -/
def sysChdir (s : Names) (p : Nat) (path : List UInt8) : Except String (Int × Names) := do
  match ← s.namex p path false with
  | (none, s) => pure (-1, s)
  | (some (ip, _), s) => do
    let s ← s.ilock ip
    if (s.inode ip).type ≠ T_DIR then pure (-1, s.iput ip)
    else
      match s.cwd p with
      | none => .error "no process"
      | some old =>
        let s := s.iput old
        pure (0, { s with cwd := Function.update s.cwd p (some ip) })

end Names

/-- Calls on names. -/
inductive NameCall where
  /-- `open(path, omode)`. -/
  | open (path : List UInt8) (creates rdonly : Bool)
  /-- `mkdir(path)`. -/
  | mkdir (path : List UInt8)
  /-- `mknod(path, major, minor)`. -/
  | mknod (path : List UInt8) (major minor : Int)
  /-- `link(old, new)`. -/
  | link (old new : List UInt8)
  /-- `unlink(path)`. -/
  | unlink (path : List UInt8)
  /-- `close(fd)`. -/
  | close (fd : Nat)
  /-- `chdir(path)`. -/
  | chdir (path : List UInt8)

namespace Names

/-- A call by a process: what it returns and leaves, or the panic. -/
def call (s : Names) (p : Nat) : NameCall → Except String (Int × Names)
  | .open path creates rdonly => if creates then s.openCreate p path else s.openExisting p path rdonly
  | .mkdir path => s.sysMake p path T_DIR 0 0
  | .mknod path major minor => s.sysMake p path T_DEV major minor
  | .link old new => s.sysLink p old new
  | .unlink path => s.sysUnlink p path
  | .close fd => s.sysClose p fd
  | .chdir path => s.sysChdir p path

/-- The next state, if there is such a process and it does not panic. -/
def step (s : Names) (event : Nat × NameCall) : Option Names :=
  if (s.cwd event.1).isSome then
    match s.call event.1 event.2 with
    | .ok (_, t) => some t
    | .error _ => none
  else none

end Names

/-- The inodes of an image that `mkfs` makes of files with these names. -/
def mkfs (files : List Name) (inum : Nat) : Node :=
  if inum = ROOTINO then
    let entries := ⟨ROOTINO, dot⟩ :: ⟨ROOTINO, dotdot⟩ :: files.mapIdx fun i name => ⟨i + 2, name⟩
    ⟨T_DIR, 0, 0, 1, entries ++ List.replicate ((entries.length / 32 + 1) * 32 - entries.length) ⟨0, []⟩⟩
  else if 2 ≤ inum ∧ inum < files.length + 2 then ⟨T_FILE, 0, 0, 1, []⟩
  else ⟨0, 0, 0, 0, []⟩

/-- A freshly made image, with these processes in its root. -/
def booted (files : List Name) (procs : List Nat) : Names where
  inode := mkfs files
  ref inum := if inum = ROOTINO then procs.length else 0
  valid inum := inum == ROOTINO
  cwd p := if p ∈ procs then some ROOTINO else none
  ofile _ _ := none
  fileRef _ := 0
  fileIp _ := none

end Xv6
