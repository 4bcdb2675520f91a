import Xv6.Fs
import Xv6.Space

/-!
# Arguments and results of system calls

How the system calls of `sysfile.c` and `sysproc.c` that give a result through a pointer fetch
their arguments, and what the kernel stores through the pointer: `read`, `pread`, `fstat`, `pipe`,
`thread_create` and `thread_join`. A call of `piperead` or `consoleread` is taken at its end, with
the input it got until then; the latter ends like one whose LWP is killed when the input ends.
-/

namespace Xv6

/-- `param.h`: open files per process. -/
def NOFILE : Nat := 16

/-- `param.h`: open files per system. -/
def NFILE : Nat := 100

/-- `file.h`: the major number of the console. -/
def CONSOLE : Int := 1

/-- The value of a word as an `int`. -/
def sint (word : Nat) : Int := if word < 2 ^ 31 then word else word - 2 ^ 32

/-- The bytes of a word, the lowest first. -/
def wordBytes (word : Nat) : List UInt8 :=
  [.ofNat word, .ofNat (word / 2 ^ 8), .ofNat (word / 2 ^ 16), .ofNat (word / 2 ^ 24)]

/-- The bytes of a `short`, the lowest first. -/
def shortBytes (value : Int) : List UInt8 := (wordBytes (uint value)).take 2

/-- Bytes with the addresses at which they are stored from `addr` on. -/
def storeAt (addr : Nat) (bytes : List UInt8) : List (Nat × UInt8) :=
  bytes.zipIdx.map fun (value, i) => (uint (addr + i), value)

/-- The open files of the system, and of one process. -/
structure OpenFiles where
  /-- `ofile`, as indices of `ftable.file`. -/
  ofile : Fin NOFILE → Option (Fin NFILE)
  ref : Fin NFILE → Nat
  /-- The fields of an open file. -/
  file : Fin NFILE → File
  ip : Fin NFILE → Inode

/-- An LWP that has made a system call, and what the kernel knows of it. -/
structure Caller where
  /-- The process table. -/
  sys : System
  /-- `myproc()`. -/
  lwp : Lwp
  /-- `allocuvm` refuses sizes from `KERNBASE` on. -/
  user : (sys.proc lwp).sz ≤ KERNBASE
  /-- `tf->esp`. -/
  esp : Nat
  /-- Its memory. -/
  memory : Nat → UInt8
  /-- Its open files. -/
  files : OpenFiles

/-- What a system call returns, if it does not sleep, and the bytes that it stores through its
pointer. -/
structure Outcome where
  result : Option Int
  stores : List (Nat × UInt8)

/-- The call returns -1 and stores nothing. -/
def Outcome.failed : Outcome := ⟨some (-1), []⟩

namespace Caller

/-! ## Arguments -/

/-- `curproc->sz`. -/
def sz (c : Caller) : Nat := (c.sys.proc c.lwp).sz

/-- The word at an address. -/
def load (c : Caller) (addr : Nat) : Nat :=
  (c.memory addr).toNat + (c.memory (addr + 1)).toNat * 2 ^ 8 + (c.memory (addr + 2)).toNat * 2 ^ 16 +
    (c.memory (addr + 3)).toNat * 2 ^ 24

/-- `argint`: the word, to be read as an `int`. -/
def argint (c : Caller) (n : Nat) : Option Nat :=
  let addr := uint (c.esp + 4 + 4 * n)
  if fetchint c.sz addr then some (c.load addr) else none

/-- `argptr`. -/
def argptr (c : Caller) (n : Nat) (size : Int) : Option Nat :=
  match c.argint n with
  | none => none
  | some i => if Xv6.argptr c.sz i size then some i else none

/-- `argfd`: the open file. -/
def argfd (c : Caller) (n : Nat) : Option (Fin NFILE) :=
  match c.argint n with
  | none => none
  | some fd => if inside : fd < NOFILE then c.files.ofile ⟨fd, inside⟩ else none

/-! ## Files -/

/-- `piperead` of a pipe that holds `data`. -/
def piperead (c : Caller) (data : List UInt8) (writeopen : Bool) (n : Int) : Kernel (Int × List UInt8) :=
  if data = [] ∧ writeopen then
    if (c.sys.proc c.lwp).killed then pure (-1, []) else .stop .blocked
  else
    let bytes := data.take n.toNat
    pure (bytes.length, bytes)

/-- The loop of `consoleread`, with `n` bytes left of `target`. -/
def consoleLoop (target : Nat) : Nat → List UInt8 → Int × List UInt8
  | 0, _ => (target, [])
  | _ + 1, [] => (-1, [])
  | n + 1, c :: input =>
    if c = 4 then (target - (n + 1 : Nat), [])
    else if c = 10 then (target - n, [c])
    else
      let (r, bytes) := consoleLoop target n input
      (r, c :: bytes)

/-- `consoleread`. -/
def consoleread (input : List UInt8) (_ : Inode) (n : Nat) : Kernel (Int × List UInt8) :=
  pure (consoleLoop n n input)

/-- `devsw` after `consoleinit`. -/
def devices (input : List UInt8) (write : Int → Option (Inode → List UInt8 → Kernel Int)) : Devsw where
  read major := if major = CONSOLE then some (consoleread input) else none
  write := write

/-- `stati`: the fields of `struct stat` with their offsets. -/
def stati (ip : Inode) : List (Nat × List UInt8) :=
  [(0, shortBytes ip.type), (4, wordBytes ROOTDEV), (8, wordBytes ip.inum), (12, shortBytes ip.nlink),
    (16, wordBytes ip.size)]

/-- `sizeof(struct stat)`. -/
def statSize : Int := 20

/-- `filestat`. -/
def filestat (f : File) (ip : Inode) (addr : Nat) : Outcome :=
  match f.type with
  | .inode => ⟨some 0, (stati ip).flatMap fun (off, bytes) => storeAt (addr + off) bytes⟩
  | _ => .failed

/-- `sys_read`: the file it leaves, and its outcome. -/
def sysRead (c : Caller) (sb : Superblock) (devsw : Devsw) (pipe : List UInt8 × Bool) : Kernel (OpenFiles × Outcome) :=
  match c.argfd 0, c.argint 2 with
  | some i, some n =>
    match c.argptr 1 (sint n) with
    | none => pure (c.files, .failed)
    | some addr => do
      let (f, ip, r, bytes) ←
        fileread sb devsw (c.piperead pipe.1 pipe.2) (c.files.file i) (c.files.ip i) (sint n)
      pure ({ c.files with file := Function.update c.files.file i f, ip := Function.update c.files.ip i ip },
        ⟨some r, storeAt addr bytes⟩)
  | _, _ => pure (c.files, .failed)

/-- `sys_pread`. -/
def sysPread (c : Caller) (sb : Superblock) (devsw : Devsw) (pipe : List UInt8 × Bool) : Kernel (OpenFiles × Outcome) :=
  match c.argfd 0, c.argint 2 with
  | some i, some n =>
    match c.argptr 1 (sint n), c.argint 3 with
    | some addr, some off => do
      let (ip, r, bytes) ←
        filepread sb devsw (c.piperead pipe.1 pipe.2) (c.files.file i) (c.files.ip i) (sint n) (sint off)
      pure ({ c.files with ip := Function.update c.files.ip i ip }, ⟨some r, storeAt addr bytes⟩)
    | _, _ => pure (c.files, .failed)
  | _, _ => pure (c.files, .failed)

/-- `sys_fstat`. -/
def sysFstat (c : Caller) : Outcome :=
  match c.argfd 0, c.argptr 1 statSize with
  | some i, some addr => filestat (c.files.file i) (c.files.ip i) addr
  | _, _ => .failed

/-! ## Pipes -/

/-- `filealloc`. -/
def filealloc (files : OpenFiles) : Option (Fin NFILE × OpenFiles) :=
  ((List.finRange NFILE).find? fun i => files.ref i == 0).map fun i =>
    (i, { files with ref := Function.update files.ref i 1 })

/-- `fileclose` of a file with one reference. -/
def fileclose (files : OpenFiles) (i : Fin NFILE) : OpenFiles :=
  { files with
    ref := Function.update files.ref i 0
    file := Function.update files.file i { files.file i with type := .none } }

/-- `pipealloc`, with the answer of `kalloc`. -/
def pipealloc (files : OpenFiles) (kalloc : Bool) : Option (Fin NFILE × Fin NFILE) × OpenFiles :=
  match filealloc files with
  | none => (none, files)
  | some (rf, files) =>
    match filealloc files with
    | none => (none, fileclose files rf)
    | some (wf, files) =>
      if kalloc then
        let file := Function.update files.file rf { files.file rf with type := .pipe, readable := true }
        (some (rf, wf), { files with file := Function.update file wf { file wf with type := .pipe, readable := false } })
      else (none, fileclose (fileclose files rf) wf)

/-- `fdalloc`. -/
def fdalloc (files : OpenFiles) (i : Fin NFILE) : Option (Fin NOFILE × OpenFiles) :=
  ((List.finRange NOFILE).find? fun fd => (files.ofile fd).isNone).map fun fd =>
    (fd, { files with ofile := Function.update files.ofile fd (some i) })

/-- `sys_pipe`: the open files it leaves, and its outcome. -/
def sysPipe (c : Caller) (kalloc : Bool) : OpenFiles × Outcome :=
  match c.argptr 0 8 with
  | none => (c.files, .failed)
  | some addr =>
    match pipealloc c.files kalloc with
    | (none, files) => (files, .failed)
    | (some (rf, wf), files) =>
      match fdalloc files rf with
      | none => (fileclose (fileclose files rf) wf, .failed)
      | some (fd0, files) =>
        match fdalloc files wf with
        | none =>
          let files := { files with ofile := Function.update files.ofile fd0 none }
          (fileclose (fileclose files rf) wf, .failed)
        | some (fd1, files) => (files, ⟨some 0, storeAt addr (wordBytes fd0) ++ storeAt (addr + 4) (wordBytes fd1)⟩)

/-! ## LWPs -/

/-- `thread_create` after the choice of `next_tid`, with the pointer to the result. -/
def threadCreate (c : Caller) (thread tid : Nat) (outcome : StackOutcome) : Option (System × Outcome) :=
  (c.sys.threadCreate c.lwp tid outcome).map fun s =>
    (s, if outcome = .mapped then ⟨some 0, storeAt thread (wordBytes tid)⟩ else .failed)

/-- `sys_thread_create`, which has chosen `next_tid` if it has fetched its arguments. -/
def sysThreadCreate (c : Caller) (outcome : StackOutcome) : Option (System × Outcome) :=
  match c.argint 0, c.argint 1, c.argint 2 with
  | some thread, some _, some _ =>
    match c.sys.call c.lwp with
    | .threadCreate tid => c.threadCreate thread tid outcome
    | _ => none
  | _, _, _ => some (c.sys, .failed)

/-- What a pass of the loop of `thread_join` returns and stores. -/
def joinOutcome (retval : Nat) : JoinResult → Outcome
  | .collected _ value => ⟨some 0, storeAt retval (wordBytes value)⟩
  | .failed => .failed
  | .asleep => ⟨none, []⟩

/-- `sys_thread_join` with its first pass. -/
def sysThreadJoin (c : Caller) : Option (System × Outcome) :=
  match c.argint 0, c.argint 1 with
  | some thread, some retval =>
    (c.sys.threadJoin c.lwp thread).map fun (result, s) => (s, joinOutcome retval result)
  | _, _ => some (c.sys, .failed)

/-- The next pass of `thread_join`. -/
def rejoin (c : Caller) (retval : Nat) : Option (System × Outcome) :=
  match c.sys.call c.lwp with
  | .threadJoin thread => (c.sys.joinPass c.lwp thread).map fun (result, s) => (s, joinOutcome retval result)
  | _ => none

end Caller

end Xv6
