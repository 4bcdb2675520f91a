import Xv6.Fs

/-!
# Moving bytes

The two `memmove` functions of the repository: that of `string.c`, linked into the kernel, and
that of `ulib.c`, linked into every user program. Memory is a byte for each address; pointers
are unsigned 32-bit numbers, and so is the last argument of the kernel's function. The user
library's last argument is a signed number.
-/

namespace Xv6

/-- The bytes of an address space. -/
abbrev Bytes := Nat → UInt8

/-- `*addr = b`. -/
def Bytes.store (m : Bytes) (addr : Nat) (b : UInt8) : Bytes :=
  fun a => if a = addr then b else m a

/-- `p - 1` for a pointer `p`, which wraps below zero. -/
def before32 (p : Nat) : Nat := (p + (2 ^ 32 - 1)) % 2 ^ 32

/-- `while(n-- > 0) *d++ = *s++;` -/
def copyUp (m : Bytes) (d s : Nat) : Nat → Bytes
  | 0 => m
  | n + 1 => copyUp (m.store d (m s)) (add32 d 1) (add32 s 1) n

/-- `while(n-- > 0) *--d = *--s;` -/
def copyDown (m : Bytes) (d s : Nat) : Nat → Bytes
  | 0 => m
  | n + 1 => copyDown (m.store (before32 d) (m (before32 s))) (before32 d) (before32 s) n

/-- `memmove` of `string.c`: the memory it leaves and the pointer it returns. -/
def StringC.memmove (m : Bytes) (dst src n : Nat) : Bytes × Nat :=
  if src < dst ∧ dst < add32 src n then
    (copyDown m (add32 dst n) (add32 src n) n, dst)
  else (copyUp m dst src n, dst)

/-- The word `n` read as a signed number. -/
def signed32 (n : Nat) : Int := if n < 2 ^ 31 then n else (n : Int) - 2 ^ 32

/-- `memmove` of `ulib.c`, whose loop runs only while the signed `n` is positive. -/
def Ulib.memmove (m : Bytes) (dst src : Nat) (n : Int) : Bytes × Nat :=
  (copyUp m dst src n.toNat, dst)

end Xv6
