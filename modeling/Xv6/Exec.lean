import Xv6.Syscall
import Xv6.UserPages

/-!
# Loading a program

`exec.c` with `loaduvm`, as a program over physical memory: the ELF header and the segments, the stack
with its guard page, the arguments, and every exit to `bad`. A file is what `readi` answers for an offset and a length. The process's name and its trap
frame are left out; what the latter gets is in the result.
-/

namespace Xv6

/-- `elf.h`: the first word of an ELF file. -/
def ELF_MAGIC : Nat := 0x464C457F

/-- `elf.h`: the type of a segment to load. -/
def ELF_PROG_LOAD : Nat := 1

/-- `sizeof(struct elfhdr)`. -/
def elfhdrSize : Nat := 52

/-- `sizeof(struct proghdr)`. -/
def proghdrSize : Nat := 32

/-- `param.h`: max exec arguments. -/
def MAXARG : Nat := 32

/-- What `readi` answers for an offset and a length: the bytes it copies, or -1. -/
abbrev Contents : Type := Nat → Nat → Option (List UInt8)

/-- A little-endian field of some bytes. -/
def fieldAt (bytes : List UInt8) (offset size : Nat) : Nat :=
  ((bytes.drop offset).take size).foldr (fun byte rest => byte.toNat + 256 * rest) 0

/-- What `exec` commits to: the directory and the size, `elf.entry` and the stack pointer. -/
structure ExecImage where
  pgdir : Nat
  sz : Nat
  /-- `tf->eip`. -/
  entry : Nat
  /-- `tf->esp`. -/
  sp : Nat

namespace Vm

/-! ## Segments -/

/-- The loop of `loaduvm`, over `fuel` pages at most: false for -1. -/
def loadLoop (pgdir addr : Nat) (readi : Contents) (offset sz : Nat) : Nat → Nat → Vm Bool
  | 0, _ => pure true
  | fuel + 1, i =>
    if i < sz then do
      match ← walkpgdir pgdir (uint (addr + i)) false with
      | none => panic "loaduvm: address should exist"
      | some (pgtab, j) =>
        let pte ← load pgtab j
        let n := min (sz - i) PGSIZE
        match readi (uint (offset + i)) n with
        | none => pure false
        | some bytes =>
          storeBytes (pte / PGSIZE) 0 bytes
          if bytes.length = n then loadLoop pgdir addr readi offset sz fuel (uint (i + PGSIZE)) else pure false
    else pure true

/-- `loaduvm`. -/
def loaduvm (pgdir addr : Nat) (readi : Contents) (offset sz : Nat) : Vm Bool :=
  if addr % PGSIZE ≠ 0 then panic "loaduvm: addr must be page aligned"
  else loadLoop pgdir addr readi offset sz (2 ^ 20) 0

/-! ## `exec` -/

/-- The loop over the program headers: the size, or nothing for an exit to `bad`. -/
def loadSegments (pgdir : Nat) (readi : Contents) : Nat → Nat → Nat → Vm (Option Nat)
  | 0, _, sz => pure (some sz)
  | count + 1, off, sz =>
    match readi off proghdrSize with
    | none => pure none
    | some ph =>
      let vaddr := fieldAt ph 8 4
      let filesz := fieldAt ph 16 4
      let memsz := fieldAt ph 20 4
      if ph.length ≠ proghdrSize then pure none
      else if fieldAt ph 0 4 ≠ ELF_PROG_LOAD then loadSegments pgdir readi count (uint (off + proghdrSize)) sz
      else if memsz < filesz then pure none
      else if uint (vaddr + memsz) < vaddr then pure none
      else do
        let sz ← allocuvm pgdir sz (uint (vaddr + memsz))
        if sz = 0 then pure none
        else if vaddr % PGSIZE ≠ 0 then pure none
        else if ← loaduvm pgdir vaddr readi (fieldAt ph 4 4) filesz then
          loadSegments pgdir readi count (uint (off + proghdrSize)) sz
        else pure none

/-- The loop over the arguments: the stack pointer and the addresses of the strings, or nothing for an
exit to `bad`. -/
def pushArgs (pgdir : Nat) : List (List UInt8) → Nat → List Nat → Vm (Option (Nat × List Nat))
  | [], sp, pushed => pure (some (sp, pushed))
  | arg :: rest, sp, pushed =>
    if MAXARG ≤ pushed.length then pure none
    else do
      let sp := uint ((sp : Int) - (arg.length + 1)) / 4 * 4
      if ← copyout pgdir sp (arg ++ [0]) then pushArgs pgdir rest sp (pushed ++ [sp]) else pure none

/-- The stack from its base on: the size and the stack pointer, or nothing for an exit to `bad`. -/
def pushStack (pgdir base : Nat) (argv : List (List UInt8)) : Vm (Option (Nat × Nat)) := do
  let sz ← allocuvm pgdir base (uint (base + 2 * PGSIZE))
  if sz = 0 then pure none
  else do
    clearpteu pgdir (uint ((sz : Int) - 2 * PGSIZE))
    match ← pushArgs pgdir argv sz [] with
    | none => pure none
    | some (sp, pushed) =>
      let argc := pushed.length
      let ustack := [0xffffffff, argc, uint ((sp : Int) - (argc + 1) * 4)] ++ pushed ++ [0]
      let sp := uint ((sp : Int) - (3 + argc + 1) * 4)
      if ← copyout pgdir sp (ustack.flatMap wordBytes) then pure (some (sz, sp)) else pure none

/-- The exits to `bad` once there is a directory. -/
def orFree {α : Type} (pgdir : Nat) (p : Vm (Option α)) : Vm (Option α) := do
  match ← p with
  | none => do
    freevm pgdir
    pure none
  | some value => pure (some value)

/-- `exec` from the ELF header to the commit: nothing for an exit to `bad`. -/
def loadImage (k : KernelImage) (readi : Contents) (argv : List (List UInt8)) : Vm (Option ExecImage) :=
  match readi 0 elfhdrSize with
  | none => pure none
  | some elf =>
    if elf.length ≠ elfhdrSize then pure none
    else if fieldAt elf 0 4 ≠ ELF_MAGIC then pure none
    else do
      match ← setupkvm k with
      | none => pure none
      | some pgdir =>
        orFree pgdir do
          match ← loadSegments pgdir readi (fieldAt elf 44 2) (fieldAt elf 28 4) 0 with
          | none => pure none
          | some sz =>
            match ← pushStack pgdir (PGROUNDUP sz) argv with
            | none => pure none
            | some (sz, sp) => pure (some ⟨pgdir, sz, fieldAt elf 24 4, sp⟩)

end Vm

namespace System

/-- `exec` before it looks for the file: an LWP that is no master leaves its group. -/
def execEntry (s : System) (p : Lwp) : System := if (s.proc p).tid ≠ 1 then s.execDeleteThread p else s

/-- The LWP gets a new image. -/
def commitImage (s : System) (p : Lwp) (image : ExecImage) : System :=
  s.setProc p { s.proc p with
    pgdir := some image.pgdir, sz := image.sz,
    state := if (s.proc p).state = .sleeping then .runnable else (s.proc p).state }

end System

/-- A master frees the directory it had. -/
def Vm.freeOld (q : Proc) : Vm Unit :=
  if q.tid = 1 then
    match q.pgdir with
    | none => panic "freevm: no pgdir"
    | some oldpgdir => freevm oldpgdir
  else pure ()

/-- `exec`: its result and the process table. No file stands for a path that `namei` does not find. -/
def Vm.exec (k : KernelImage) (s : System) (p : Lwp) (file : Option Contents) (argv : List (List UInt8)) :
    Vm (Int × System) :=
  match file with
  | none => pure (-1, s.execEntry p)
  | some readi => do
    match ← loadImage k readi argv with
    | none => pure (-1, s.execEntry p)
    | some image =>
      freeOld (s.proc p)
      pure (0, (s.execEntry p).commitImage p image)

end Xv6
