import Xv6.Lib.Program
import Xv6.Space

/-!
# Physical pages and page tables

`kalloc.c` and the functions of `vm.c` that build, fill, copy and free page directories, as
programs over physical memory. Pages are named by their frame, the physical address divided by
the page size; a kernel address and the physical address behind it are not told apart. The
handler of the memory operations keeps the free list and stops when a page on it is freed, read or
written.
-/

namespace Xv6

/-- `memlayout.h`: top physical memory. -/
def PHYSTOP : Nat := 0xE000000

/-- `memlayout.h`: start of extended memory. -/
def EXTMEM : Nat := 0x100000

/-- `memlayout.h`: other devices are at high addresses. -/
def DEVSPACE : Nat := 0xFE000000

/-- `memlayout.h`: address where the kernel is linked. -/
def KERNLINK : Nat := KERNBASE + EXTMEM

/-- `mmu.h`: directory entries per page directory. -/
def NPDENTRIES : Nat := 1024

/-- `mmu.h`: page directory index. -/
def PDX (va : Nat) : Nat := va / (NPDENTRIES * PGSIZE)

/-- `mmu.h`: page table index. -/
def PTX (va : Nat) : Nat := va / PGSIZE % NPDENTRIES

/-- `mmu.h`: writeable. -/
def PTE_W : Nat := 2

/-- `mmu.h`: user. -/
def PTE_U : Nat := 4

/-- `pa | perm | PTE_P` of a page-aligned `pa`. -/
def pteWord (pa perm : Nat) : Nat := pa + (perm / 2 * 2 + 1)

/-- The word has `PTE_P`. -/
def present (w : Nat) : Bool := w % 2 == 1

/-- The frame of an entry that is present. -/
def frameOf (w : Nat) : Option Nat := if present w then some (w / PGSIZE) else none

/-- Addresses that the linker chooses. -/
structure KernelImage where
  /-- `data`, the end of the kernel's read-only part. -/
  data : Nat
  /-- `V2P(end)`, the end of the kernel. -/
  last : Nat
  /-- The read-only part is not empty. -/
  data_low : KERNLINK < data
  /-- `kernel.ld` aligns it. -/
  data_aligned : data % PGSIZE = 0
  /-- It ends in the kernel. -/
  data_inside : data < KERNBASE + last
  /-- The kernel is loaded below the top of memory. -/
  last_low : last ≤ PHYSTOP

/-- Why the memory functions stop. -/
inductive MemStop where
  /-- `panic(message)`. -/
  | panic (message : String)
  /-- A page is freed that is free. -/
  | freedTwice (frame : Nat)
  /-- A page is read or written that is free. -/
  | dangling (frame : Nat)
  deriving DecidableEq

/-- Operations on physical memory. -/
inductive MemOp where
  /-- `kalloc()`. -/
  | kalloc
  /-- `kfree(v)`. -/
  | kfree (frame : Nat)
  /-- A read of a word of a page. -/
  | load (frame i : Nat)
  /-- A write to a word of a page. -/
  | store (frame i w : Nat)
  /-- `memset(v, 0, PGSIZE)`. -/
  | clear (frame : Nat)
  /-- `memmove(dst, src, PGSIZE)`. -/
  | copy (dst src : Nat)

/-- The signature of the memory operations. -/
def memSignature : Signature where
  Op := MemOp
  Answer
    | .kalloc => Option Nat
    | .load _ _ => Nat
    | _ => Unit

/-- Kernel code over physical memory. -/
abbrev Vm (α : Type) : Type := Program memSignature MemStop α

/-- Physical memory: the words of every page, and the pages on `kmem.freelist` in its order. -/
structure Memory where
  /-- The words. -/
  word : Nat → Nat → Nat
  /-- `kmem.freelist`. -/
  free : List Nat

namespace Memory

/-- Replace the words of a page. -/
def setFrame (m : Memory) (frame : Nat) (words : Nat → Nat) : Memory :=
  { m with word := Function.update m.word frame words }

/-- Replace one word. -/
def set (m : Memory) (frame i w : Nat) : Memory := m.setFrame frame (Function.update (m.word frame) i w)

/-- `r->next` of a page that is put on the free list. -/
def next (m : Memory) : Nat :=
  match m.free with
  | [] => 0
  | frame :: _ => KERNBASE + frame * PGSIZE

/-- `kfree`: the page is filled with junk and put on the free list. -/
def release (m : Memory) (frame : Nat) : Memory :=
  { m.setFrame frame fun i => if i = 0 then m.next else 0x01010101 with free := frame :: m.free }

/-- The page may be passed to `kfree`. -/
def usable (k : KernelImage) (frame : Nat) : Bool :=
  decide (k.last ≤ frame * PGSIZE ∧ frame * PGSIZE < PHYSTOP)

/-- A step that reads or writes a page. -/
def access {α : Type} (m : Memory) (frame : Nat) (result : α × Memory) : Except MemStop (α × Memory) :=
  if frame ∈ m.free then .error (.dangling frame) else .ok result

/-- The memory operations. -/
def handler (k : KernelImage) : Handler memSignature Memory MemStop
  | .kalloc, m =>
    match m.free with
    | [] => .ok (none, m)
    | frame :: rest => .ok (some frame, { m with free := rest })
  | .kfree frame, m =>
    if usable k frame = false then .error (.panic "kfree")
    else if frame ∈ m.free then .error (.freedTwice frame)
    else .ok ((), m.release frame)
  | .load frame i, m => m.access frame (m.word frame i, m)
  | .store frame i w, m => m.access frame ((), m.set frame i w)
  | .clear frame, m => m.access frame ((), m.setFrame frame fun _ => 0)
  | .copy dst src, m =>
    if src ∈ m.free then .error (.dangling src) else m.access dst ((), m.setFrame dst (m.word src))

end Memory

namespace Vm

/-- `kalloc()`. -/
def kalloc : Vm (Option Nat) := .perform (S := memSignature) .kalloc

/-- `kfree(v)`. -/
def kfree (frame : Nat) : Vm Unit := .perform (S := memSignature) (.kfree frame)

/-- Read a word of a page. -/
def load (frame i : Nat) : Vm Nat := .perform (S := memSignature) (.load frame i)

/-- Write a word of a page. -/
def store (frame i w : Nat) : Vm Unit := .perform (S := memSignature) (.store frame i w)

/-- `memset(v, 0, PGSIZE)`. -/
def clear (frame : Nat) : Vm Unit := .perform (S := memSignature) (.clear frame)

/-- `memmove(dst, src, PGSIZE)`. -/
def copy (dst src : Nat) : Vm Unit := .perform (S := memSignature) (.copy dst src)

/-- `panic(message)`. -/
def panic {α : Type} (message : String) : Vm α := .stop (.panic message)

/-- `walkpgdir`: the page table and the index of the entry. -/
def walkpgdir (pgdir va : Nat) (alloc : Bool) : Vm (Option (Nat × Nat)) := do
  let pde ← load pgdir (PDX va)
  match frameOf pde with
  | some pgtab => pure (some (pgtab, PTX va))
  | none =>
    if alloc then do
      match ← kalloc with
      | none => pure none
      | some pgtab =>
        clear pgtab
        store pgdir (PDX va) (pteWord (pgtab * PGSIZE) (PTE_W + PTE_U))
        pure (some (pgtab, PTX va))
    else pure none

/-- The loop of `mappages`, with `fuel` more pages after this one at most. -/
def mapLoop (pgdir last perm : Nat) : Nat → Nat → Nat → Vm Bool
  | 0, _, _ => pure true
  | fuel + 1, a, pa => do
    match ← walkpgdir pgdir a true with
    | none => pure false
    | some (pgtab, i) =>
      let pte ← load pgtab i
      if present pte then panic "remap"
      else
        store pgtab i (pteWord pa perm)
        if a = last then pure true else mapLoop pgdir last perm fuel (uint (a + PGSIZE)) (uint (pa + PGSIZE))

/-- `mappages`: false if there is no page for a page table. -/
def mappages (pgdir va size pa perm : Nat) : Vm Bool :=
  let a := va / PGSIZE * PGSIZE
  let last := uint (va + size - 1) / PGSIZE * PGSIZE
  mapLoop pgdir last perm (2 ^ 20) a pa

/-- The loop of `deallocuvm`, over `fuel` pages at most. -/
def deallocLoop (pgdir oldsz : Nat) : Nat → Nat → Vm Unit
  | 0, _ => pure ()
  | fuel + 1, a =>
    if a < oldsz then do
      match ← walkpgdir pgdir a false with
      | none => deallocLoop pgdir oldsz fuel (uint ((PDX a + 1) * (NPDENTRIES * PGSIZE)))
      | some (pgtab, i) =>
        let pte ← load pgtab i
        if present pte then
          if pte / PGSIZE = 0 then panic "kfree"
          else do
            kfree (pte / PGSIZE)
            store pgtab i 0
            deallocLoop pgdir oldsz fuel (uint (a + PGSIZE))
        else deallocLoop pgdir oldsz fuel (uint (a + PGSIZE))
    else pure ()

/-- `deallocuvm`. -/
def deallocuvm (pgdir oldsz newsz : Nat) : Vm Nat :=
  if oldsz ≤ newsz then pure oldsz
  else do
    deallocLoop pgdir oldsz (2 ^ 20) (PGROUNDUP newsz)
    pure newsz

/-- The page table that an entry of the directory names is freed. -/
def freeTable (pde : Nat) : Vm Unit :=
  match frameOf pde with
  | some pgtab => kfree pgtab
  | none => pure ()

/-- The loop of `freevm` over `count` entries of the directory from index `i` on. -/
def freeTables (pgdir : Nat) : Nat → Nat → Vm Unit
  | 0, _ => pure ()
  | count + 1, i => do
    let pde ← load pgdir i
    freeTable pde
    freeTables pgdir count (i + 1)

/-- `freevm`. -/
def freevm (pgdir : Nat) : Vm Unit := do
  if pgdir = 0 then panic "freevm: no pgdir"
  else
    let _ ← deallocuvm pgdir KERNBASE 0
    freeTables pgdir NPDENTRIES 0
    kfree pgdir

/-- The kernel's mappings, `kmap`: virtual and physical start, physical end and permissions. -/
def kmap (k : KernelImage) : List (Nat × Nat × Nat × Nat) :=
  [(KERNBASE, 0, EXTMEM, PTE_W), (KERNLINK, KERNLINK - KERNBASE, k.data - KERNBASE, 0),
    (k.data, k.data - KERNBASE, PHYSTOP, PTE_W), (DEVSPACE, DEVSPACE, 0, PTE_W)]

/-- The loop of `setupkvm`: false if there is no page for a page table. -/
def mapKernel (pgdir : Nat) : List (Nat × Nat × Nat × Nat) → Vm Bool
  | [] => pure true
  | (virt, start, finish, perm) :: rest => do
    if ← mappages pgdir virt (uint ((finish : Int) - start)) start perm then mapKernel pgdir rest
    else pure false

/-- `setupkvm`. -/
def setupkvm (k : KernelImage) : Vm (Option Nat) := do
  match ← kalloc with
  | none => pure none
  | some pgdir =>
    clear pgdir
    if DEVSPACE < KERNBASE + PHYSTOP then panic "PHYSTOP too high"
    else if ← mapKernel pgdir (kmap k) then pure (some pgdir)
    else do
      freevm pgdir
      pure none

/-- The loop of `allocuvm`, over `fuel` pages at most. -/
def allocLoop (pgdir oldsz newsz : Nat) : Nat → Nat → Vm Nat
  | 0, _ => pure newsz
  | fuel + 1, a =>
    if a < newsz then do
      match ← kalloc with
      | none => do
        let _ ← deallocuvm pgdir newsz oldsz
        pure 0
      | some mem =>
        clear mem
        if ← mappages pgdir a PGSIZE (mem * PGSIZE) (PTE_W + PTE_U) then allocLoop pgdir oldsz newsz fuel (uint (a + PGSIZE))
        else do
          let _ ← deallocuvm pgdir newsz oldsz
          kfree mem
          pure 0
    else pure newsz

/-- `allocuvm`. -/
def allocuvm (pgdir oldsz newsz : Nat) : Vm Nat :=
  if KERNBASE ≤ newsz then pure 0
  else if newsz < oldsz then pure oldsz
  else allocLoop pgdir oldsz newsz (2 ^ 20) (PGROUNDUP oldsz)

/-- The loop of `copyuvm`, over `fuel` pages at most: false if there is no page. -/
def copyLoop (pgdir d sz : Nat) : Nat → Nat → Vm Bool
  | 0, _ => pure true
  | fuel + 1, i =>
    if i < sz then do
      match ← walkpgdir pgdir i false with
      | none => panic "copyuvm: pte should exist"
      | some (pgtab, j) =>
        let pte ← load pgtab j
        if present pte = false then panic "copyuvm: page not present"
        else
          match ← kalloc with
          | none => pure false
          | some mem => do
            copy mem (pte / PGSIZE)
            if ← mappages d i PGSIZE (mem * PGSIZE) (pte % PGSIZE) then copyLoop pgdir d sz fuel (uint (i + PGSIZE))
            else do
              kfree mem
              pure false
    else pure true

/-- `copyuvm`. -/
def copyuvm (k : KernelImage) (pgdir sz : Nat) : Vm (Option Nat) := do
  match ← setupkvm k with
  | none => pure none
  | some d =>
    if ← copyLoop pgdir d sz (2 ^ 20) 0 then pure (some d)
    else do
      freevm d
      pure none

/-- What `delete_thread` does with the memory of an LWP. -/
def deleteThread (tid pgdir kstack sz base : Nat) : Vm Unit := do
  if tid = 1 then freevm pgdir
  kfree kstack
  let _ ← deallocuvm pgdir sz base
  pure ()

end Vm

end Xv6
