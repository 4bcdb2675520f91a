import Xv6.Vm

/-!
# User pages of a directory

`clearpteu`, `uva2ka` and `copyout` of `vm.c` and `growproc` of `proc.c`, as programs over physical
memory.
-/

namespace Xv6

/-- A word with another byte at an index. -/
def withByte (word i : Nat) (value : UInt8) : Nat :=
  word - word / 256 ^ i % 256 * 256 ^ i + value.toNat * 256 ^ i

namespace Vm

/-- `clearpteu`. -/
def clearpteu (pgdir uva : Nat) : Vm Unit := do
  match ← walkpgdir pgdir uva false with
  | none => panic "clearpteu"
  | some (pgtab, i) =>
    let pte ← load pgtab i
    store pgtab i (pte - pte / PTE_U % 2 * PTE_U)

/-- `uva2ka`: the frame of a page that the user can access. Without a page table the code follows a
null pointer. -/
def uva2ka (pgdir uva : Nat) : Vm (Option Nat) := do
  match ← walkpgdir pgdir uva false with
  | none => panic "trap"
  | some (pgtab, i) =>
    let pte ← load pgtab i
    if present pte = false then pure none
    else if pte / PTE_U % 2 = 0 then pure none
    else pure (some (pte / PGSIZE))

/-- `memmove` of bytes into a page. -/
def storeBytes (frame : Nat) : Nat → List UInt8 → Vm Unit
  | _, [] => pure ()
  | offset, byte :: rest => do
    let w ← load frame (offset / 4)
    store frame (offset / 4) (withByte w (offset % 4) byte)
    storeBytes frame (offset + 1) rest

/-- The loop of `copyout`, over `fuel` pages at most: false for -1. -/
def copyoutLoop (pgdir : Nat) : Nat → Nat → List UInt8 → Vm Bool
  | 0, _, _ => pure true
  | fuel + 1, va, buf =>
    if buf.length = 0 then pure true
    else do
      let va0 := va / PGSIZE * PGSIZE
      match ← uva2ka pgdir va0 with
      | none => pure false
      | some pa0 =>
        let n := min (PGSIZE - (va - va0)) buf.length
        storeBytes pa0 (va - va0) (buf.take n)
        copyoutLoop pgdir fuel (uint (va0 + PGSIZE)) (buf.drop n)

/-- `copyout`: every round copies a byte at least. -/
def copyout (pgdir va : Nat) (buf : List UInt8) : Vm Bool := copyoutLoop pgdir buf.length va buf

/-- `growproc` of a group with this directory and this size: its result, and the size that the master
has then. -/
def growproc (pgdir sz : Nat) (n : Int) : Vm (Int × Nat) :=
  if 0 < n then do
    let newsz ← allocuvm pgdir sz (uint (sz + n))
    if newsz = 0 then pure (-1, sz) else pure (0, newsz)
  else if n < 0 then do
    let newsz ← deallocuvm pgdir sz (uint (sz + n))
    if newsz = 0 then pure (-1, sz) else pure (0, newsz)
  else pure (0, sz)

end Vm

end Xv6
