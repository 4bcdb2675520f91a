import Xv6.MemMove

/-!
# The allocator of the user library

`free`, `morecore` and `malloc` of `umalloc.c` over the bytes of a process. A `Header` is eight
bytes: the pointer `ptr` and then the word `size`, which counts units of eight bytes. Pointers and
words are unsigned 32-bit numbers. What `sbrk` does is given by the kernel's answers: it extends the
break by its signed argument where the kernel agrees and the new break is an address, and otherwise
it returns -1. The loops take fuel, a bound on their rounds.
-/

namespace Xv6

namespace Malloc

/-! ## Words in memory -/

/-- The word at an address, its low byte first. -/
def load32 (m : Bytes) (a : Nat) : Nat :=
  (m a).toNat + 2 ^ 8 * (m (a + 1)).toNat + 2 ^ 16 * (m (a + 2)).toNat +
    2 ^ 24 * (m (a + 3)).toNat

/-- A word written at an address. -/
def store32 (m : Bytes) (a v : Nat) : Bytes :=
  (((m.store a (UInt8.ofNat v)).store (a + 1) (UInt8.ofNat (v / 2 ^ 8))).store (a + 2)
    (UInt8.ofNat (v / 2 ^ 16))).store (a + 3) (UInt8.ofNat (v / 2 ^ 24))

/-! ## Heap -/

/-- `sizeof(Header)`. -/
def sizeofHeader : Nat := 8

/-- What the allocator works on. -/
structure Heap where
  /-- The bytes of the process. -/
  mem : Bytes
  /-- `freep`, where the last search of the free list ended. -/
  freep : Nat
  /-- The break of the process. -/
  brk : Nat

/-- `p->s.ptr`. -/
def Heap.ptr (h : Heap) (p : Nat) : Nat := load32 h.mem p

/-- `p->s.size`. -/
def Heap.size (h : Heap) (p : Nat) : Nat := load32 h.mem (p + 4)

/-- `p->s.ptr = q`. -/
def Heap.setPtr (h : Heap) (p q : Nat) : Heap := { h with mem := store32 h.mem p q }

/-- `p->s.size = n`. -/
def Heap.setSize (h : Heap) (p n : Nat) : Heap := { h with mem := store32 h.mem (p + 4) n }

/-- `p + n` for a pointer to headers. -/
def plus (p n : Nat) : Nat := (p + sizeofHeader * n) % 2 ^ 32

/-! ## `free` -/

/-- The loop of `free` stops at `p`: the block belongs between `p` and the next one, or it lies at
one end of the list and `p` is the last. -/
def stopsAt (h : Heap) (bp p : Nat) : Bool :=
  decide (p < bp ∧ bp < h.ptr p) || decide (h.ptr p ≤ p ∧ (p < bp ∨ bp < h.ptr p))

/-- The loop of `free`. -/
def findPlace (h : Heap) (bp : Nat) : Nat → Nat → Option Nat
  | 0, _ => none
  | fuel + 1, p => if stopsAt h bp p then some p else findPlace h bp fuel (h.ptr p)

/-- The block `bp` linked in front of what follows `p`, or joined with it. -/
def joinUpper (h : Heap) (bp p : Nat) : Heap :=
  if plus bp (h.size bp) = h.ptr p then
    let h := h.setSize bp (add32 (h.size bp) (h.size (h.ptr p)))
    h.setPtr bp (h.ptr (h.ptr p))
  else h.setPtr bp (h.ptr p)

/-- The block `bp` linked behind `p`, or joined with it. -/
def joinLower (h : Heap) (bp p : Nat) : Heap :=
  if plus p (h.size p) = bp then
    let h := h.setSize p (add32 (h.size p) (h.size bp))
    h.setPtr p (h.ptr bp)
  else h.setPtr p bp

/-- `free`, with the number of rounds its loop may take. -/
def free (fuel : Nat) (h : Heap) (ap : Nat) : Option Heap := do
  let bp := (ap + (2 ^ 32 - sizeofHeader)) % 2 ^ 32
  let p ← findPlace h bp fuel h.freep
  some { joinLower (joinUpper h bp p) bp p with freep := p }

/-! ## `morecore` -/

/-- Whether the kernel extends a break by so many bytes. -/
abbrev Kernel := Nat → Int → Bool

/-- `(char*)-1`. -/
def failed : Nat := 2 ^ 32 - 1

/-- `sbrk`: the old break, or -1. -/
def sbrk (kernel : Kernel) (h : Heap) (n : Int) : Nat × Heap :=
  if kernel h.brk n = true ∧ 0 ≤ h.brk + n ∧ h.brk + n < 2 ^ 32 then
    (h.brk, { h with brk := (h.brk + n).toNat })
  else (failed, h)

/-- The least number of units that `morecore` asks for. -/
def leastUnits : Nat := 4096

/-- The argument of `sbrk` in `morecore`, `nu * sizeof(Header)` as an `int`. -/
def sbrkArg (nu : Nat) : Int := signed32 (nu * sizeofHeader % 2 ^ 32)

/-- `morecore`: the new `freep`, or zero. -/
def morecore (kernel : Kernel) (fuel : Nat) (h : Heap) (nu : Nat) : Option (Nat × Heap) :=
  let nu := if nu < leastUnits then leastUnits else nu
  let got := sbrk kernel h (sbrkArg nu)
  if got.1 = failed then some (0, got.2)
  else do
    let h ← free fuel (got.2.setSize got.1 nu) (plus got.1 1)
    some (h.freep, h)

/-! ## `malloc` -/

/-- `nunits`: the units of a block of `nbytes` bytes, with its header. -/
def nunitsOf (nbytes : Nat) : Nat := add32 nbytes (sizeofHeader - 1) / sizeofHeader + 1

/-- A block that is large enough is taken, or its tail. -/
def take (h : Heap) (prevp p nunits : Nat) : Nat × Heap :=
  if h.size p = nunits then (plus p 1, { h.setPtr prevp (h.ptr p) with freep := prevp })
  else
    let h := h.setSize p (h.size p - nunits)
    let q := plus p (h.size p)
    (plus q 1, { h.setSize q nunits with freep := prevp })

/-- The loop of `malloc`. -/
def mallocLoop (kernel : Kernel) (nunits : Nat) : Nat → Heap → Nat → Nat → Option (Nat × Heap)
  | 0, _, _, _ => none
  | fuel + 1, h, prevp, p =>
    if nunits ≤ h.size p then some (take h prevp p nunits)
    else if p = h.freep then do
      let more ← morecore kernel fuel h nunits
      if more.1 = 0 then some (0, more.2)
      else mallocLoop kernel nunits fuel more.2 more.1 (more.2.ptr more.1)
    else mallocLoop kernel nunits fuel h p (h.ptr p)

/-- The list that holds nothing but `base`. -/
def startList (base : Nat) (h : Heap) : Heap :=
  { (h.setPtr base base).setSize base 0 with freep := base }

/-- `malloc`: the block's address, or zero. `base` is the address of the static header. -/
def malloc (base : Nat) (kernel : Kernel) (fuel : Nat) (h : Heap) (nbytes : Nat) :
    Option (Nat × Heap) :=
  let h := if h.freep = 0 then startList base h else h
  mallocLoop kernel (nunitsOf nbytes) fuel h h.freep (h.ptr h.freep)

/-! ## Runs -/

/-- A block that was allocated and is not yet freed. -/
structure Block where
  /-- What `malloc` returned. -/
  p : Nat
  /-- The bytes that were asked for. -/
  nbytes : Nat
  deriving DecidableEq

/-- A process between its calls. -/
structure State where
  heap : Heap
  /-- The blocks that are not yet freed. -/
  live : List Block

/-- Where the process has its memory before the first call. -/
structure Image where
  /-- The address of `base`. -/
  base : Nat
  /-- The break. -/
  lo : Nat
  /-- `base` is not at address zero. -/
  base_pos : 0 < base
  /-- `base` is below the break. -/
  base_below : base + sizeofHeader ≤ lo
  /-- The break is an address. -/
  lo_lt : lo < 2 ^ 32

/-- The bytes that the program may write: those of its blocks, and those below the first break
except `base`. -/
def Image.Owns (img : Image) (live : List Block) (a : Nat) : Prop :=
  (∃ b ∈ live, b.p ≤ a ∧ a < b.p + b.nbytes) ∨
    a < img.lo ∧ ¬ (img.base ≤ a ∧ a < img.base + sizeofHeader)

/-- A step of the process, where the calls of `malloc` meet a condition. -/
inductive Step (met : Heap → Nat → Kernel → Prop) (img : Image) : State → State → Prop
  /-- A call of `malloc` returns. -/
  | malloc {s : State} {nbytes fuel p : Nat} {kernel : Kernel} {heap : Heap}
      (word : nbytes < 2 ^ 32) (meets : met s.heap nbytes kernel)
      (returned : Malloc.malloc img.base kernel fuel s.heap nbytes = some (p, heap)) :
      Step met img s ⟨heap, if p = 0 then s.live else ⟨p, nbytes⟩ :: s.live⟩
  /-- A call of `free` for a block that is not yet freed returns. -/
  | free {s : State} {b : Block} {fuel : Nat} {heap : Heap} (member : b ∈ s.live)
      (returned : Malloc.free fuel s.heap b.p = some heap) : Step met img s ⟨heap, s.live.erase b⟩
  /-- The program writes into its own memory. -/
  | write {s : State} {mem : Bytes}
      (same : ∀ a, ¬ img.Owns s.live a → mem a = s.heap.mem a) :
      Step met img s ⟨{ s.heap with mem := mem }, s.live⟩

/-- The states of a process, where the calls of `malloc` meet a condition. -/
inductive Run (met : Heap → Nat → Kernel → Prop) (img : Image) : State → Prop
  /-- Before the first call `freep` is zero. -/
  | start (mem : Bytes) : Run met img ⟨⟨mem, 0, img.lo⟩, []⟩
  /-- A step. -/
  | step {s s' : State} (run : Run met img s) (step : Step met img s s') : Run met img s'

end Malloc

end Xv6
