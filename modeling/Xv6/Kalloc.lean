import Xv6.Vm

/-!
# The list of free pages in memory

`kalloc.c` as it keeps its list: `kmem.freelist` points to the first free page, and the first word
of each free page to the next. The operations of a kernel program on this memory check nothing
that the code does not check. Then what `main` puts on the list. The lock is left out.
-/

namespace Xv6

/-- `memlayout.h`: the kernel address of a physical address. -/
def P2V (pa : Nat) : Nat := uint (pa + KERNBASE)

/-- `memlayout.h`: the physical address of a kernel address. -/
def V2P (va : Nat) : Nat := uint (va - KERNBASE)

/-- The words of every page, and `kmem.freelist`. -/
structure PhysicalMemory where
  /-- The words. -/
  word : Nat → Nat → Nat
  /-- `kmem.freelist`, 0 if there is no free page. -/
  freelist : Nat

namespace PhysicalMemory

/-- Replace the words of a page. -/
def setFrame (r : PhysicalMemory) (frame : Nat) (words : Nat → Nat) : PhysicalMemory :=
  { r with word := Function.update r.word frame words }

/-- Replace one word. -/
def set (r : PhysicalMemory) (frame i w : Nat) : PhysicalMemory :=
  r.setFrame frame (Function.update (r.word frame) i w)

/-- `kalloc`: a kernel address, 0 if there is no page. -/
def kalloc (r : PhysicalMemory) : Nat × PhysicalMemory :=
  let run := r.freelist
  if run ≠ 0 then (run, { r with freelist := r.word (V2P run / PGSIZE) 0 }) else (run, r)

/-- The test of `kfree`. -/
def refuses (k : KernelImage) (v : Nat) : Bool :=
  decide (v % PGSIZE ≠ 0 ∨ v < P2V k.last ∨ PHYSTOP ≤ V2P v)

/-- `kfree`. -/
def kfree (k : KernelImage) (r : PhysicalMemory) (v : Nat) : Except MemStop PhysicalMemory :=
  if refuses k v then .error (.panic "kfree")
  else
    let frame := V2P v / PGSIZE
    let r := r.setFrame frame fun _ => 0x01010101
    let r := r.set frame 0 r.freelist
    .ok { r with freelist := v }

/-- The operations of a kernel program. -/
def handler (k : KernelImage) : Handler memSignature PhysicalMemory MemStop
  | .kalloc, r =>
    let (v, r) := r.kalloc
    .ok (if v = 0 then none else some (V2P v / PGSIZE), r)
  | .kfree frame, r => (r.kfree k (P2V (frame * PGSIZE))).map fun r => ((), r)
  | .load frame i, r => .ok (r.word frame i, r)
  | .store frame i w, r => .ok ((), r.set frame i w)
  | .clear frame, r => .ok ((), r.setFrame frame fun _ => 0)
  | .copy dst src, r => .ok ((), r.setFrame dst (r.word src))

end PhysicalMemory

namespace Vm

/-- The loop of `freerange`, over `fuel` pages at most. -/
def freeLoop (vend : Nat) : Nat → Nat → Vm Unit
  | 0, _ => pure ()
  | fuel + 1, p =>
    if p + PGSIZE ≤ vend then do
      kfree (V2P p / PGSIZE)
      freeLoop vend fuel (p + PGSIZE)
    else pure ()

/-- `freerange`. -/
def freerange (vstart vend : Nat) : Vm Unit := freeLoop vend (2 ^ 20) (PGROUNDUP vstart)

/-- What `kinit1` maps with `entrypgdir`. -/
def KINIT1END : Nat := 4 * 1024 * 1024

/-- `kinit1` as `main` calls it. -/
def kinit1 (k : KernelImage) : Vm Unit := freerange (P2V k.last) (P2V KINIT1END)

/-- `kinit2` as `main` calls it. -/
def kinit2 : Vm Unit := freerange (P2V KINIT1END) (P2V PHYSTOP)

/-- `main`, with what it does between `kinit1` and `kinit2`. -/
def kinit (k : KernelImage) (setup : Vm Unit) : Vm Unit := do
  kinit1 k
  setup
  kinit2

end Vm

end Xv6
