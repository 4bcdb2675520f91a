import Xv6.Process

/-!
# User memory

The user part of the page directories as maps from pages to page-table entries, with the
functions of `vm.c` that fill and empty them page by page, and the checks of `syscall.c` on the
addresses that a process passes. Over them the system calls by which the LWPs of a group share
one directory: `thread_create`, `thread_join`, `sbrk` and `exec`. How many pages the kernel can
find is part of the event. A panic has no result.
-/

namespace Xv6

/-- `memlayout.h`: the first kernel virtual address. -/
def KERNBASE : Nat := 0x80000000

/-- The value of a sum of unsigned integers. -/
def uint (n : Int) : Nat := (n % 2 ^ 32).toNat

/-- `mmu.h`: the next multiple of `PGSIZE`, as an unsigned integer. -/
def PGROUNDUP (sz : Nat) : Nat := (sz + PGSIZE - 1) % 2 ^ 32 / PGSIZE * PGSIZE

/-- The page-table entries of user pages that are present, with `PTE_U`. -/
abbrev PageMap : Type := Nat → Option Bool

/-- The pages of a loop from `PGROUNDUP(from)` as long as the address is below `to`. -/
def pageRange (low high : Nat) : List Nat :=
  List.range' (PGROUNDUP low / PGSIZE) ((high + PGSIZE - 1) / PGSIZE - PGROUNDUP low / PGSIZE)

/-! ## Page directories -/

/-- `deallocuvm`: the size it returns and the entries it leaves. Above `KERNBASE` it would free
the kernel's mappings, the first of which is a panic: no result. -/
def deallocuvm (pages : PageMap) (oldsz newsz : Nat) : Option (Nat × PageMap) :=
  if oldsz ≤ newsz then some (oldsz, pages)
  else if KERNBASE < oldsz then none
  else some (newsz, (pageRange newsz oldsz).foldl (fun pages page => Function.update pages page none) pages)

/-- The loop of `allocuvm`, with memory for `room` pages: whether memory sufficed. A page that is
present is the panic "remap". -/
def allocPages : List Nat → Nat → PageMap → Option (Bool × PageMap)
  | [], _, pages => some (true, pages)
  | _ :: _, 0, pages => some (false, pages)
  | page :: rest, room + 1, pages =>
    match pages page with
    | some _ => none
    | none => allocPages rest room (Function.update pages page (some true))

/-- `allocuvm`: the size it returns and the entries it leaves. -/
def allocuvm (pages : PageMap) (oldsz newsz room : Nat) : Option (Nat × PageMap) :=
  if KERNBASE ≤ newsz then some (0, pages)
  else if newsz < oldsz then some (oldsz, pages)
  else
    match allocPages (pageRange oldsz newsz) room pages with
    | none => none
    | some (true, pages) => some (newsz, pages)
    | some (false, pages) => (deallocuvm pages newsz oldsz).map fun (_, pages) => (0, pages)

/-- `clearpteu` of a page whose page table is there. -/
def clearpteu (pages : PageMap) (uva : Nat) : PageMap :=
  match pages (uva / PGSIZE) with
  | none => pages
  | some _ => Function.update pages (uva / PGSIZE) (some false)

/-- `copyout` finds every page of the range present and accessible to the user. -/
def copyout (pages : PageMap) (va len : Nat) : Bool :=
  (List.range' (va / PGSIZE) ((va + len + PGSIZE - 1) / PGSIZE - va / PGSIZE)).all fun page =>
    pages page == some true

/-- The loop of `copyuvm`, with memory for `room` pages: the entries of the copy, if memory
sufficed. A page that is not present is a panic. -/
def copyPages : List Nat → Nat → PageMap → PageMap → Option (Option PageMap)
  | [], _, _, copy => some (some copy)
  | page :: rest, room, pages, copy =>
    match pages page, room with
    | none, _ => none
    | some _, 0 => some none
    | some user, room + 1 => copyPages rest room pages (Function.update copy page (some user))

/-- `copyuvm`. -/
def copyuvm (pages : PageMap) (sz room : Nat) : Option (Option PageMap) :=
  copyPages (pageRange 0 sz) room pages fun _ => none

/-! ## Checks on addresses -/

/-- `fetchint` accepts the address. -/
def fetchint (sz addr : Nat) : Bool := decide (addr < sz ∧ uint (addr + 4) ≤ sz)

/-- `fetchstr`: the length of the string, if it is accepted. -/
def fetchstr (sz addr : Nat) (memory : Nat → Nat) : Option Nat :=
  if addr < sz then (List.range (sz - addr)).find? fun i => memory (addr + i) == 0 else none

/-- `argptr` accepts the block, once it has fetched its address. -/
def argptr (sz addr : Nat) (size : Int) : Bool :=
  decide (0 ≤ size ∧ addr < sz ∧ uint (addr + size) ≤ sz)

/-! ## Groups and their directories -/

/-- The tables and the user part of every page directory. -/
structure Space where
  /-- The tables. -/
  sys : System
  /-- The page directories. -/
  pages : Nat → PageMap

/-- The base of the next stack of a group. -/
def System.nextBase (s : System) (master : Lwp) : Nat :=
  match (s.proc master).stack with
  | base :: _ => base
  | [] => (s.proc master).sz

/-- Steps of the LWPs of a group. -/
inductive SpaceEvent where
  /-- The LWP gets a processor. -/
  | run (p : Lwp)
  | yield (p : Lwp)
  /-- `thread_create` up to the choice of `next_tid`. -/
  | choose (p : Lwp)
  /-- The rest of `thread_create`, with memory for `room` pages. -/
  | create (p : Lwp) (room : Nat)
  /-- `thread_exit`. -/
  | threadExit (p : Lwp) (retval : Nat)
  /-- `thread_join` with its first pass. -/
  | join (p : Lwp) (thread : Nat)
  /-- The next pass of `thread_join`. -/
  | rejoin (p : Lwp)
  /-- `sbrk`, with memory for `room` pages. -/
  | sbrk (p : Lwp) (n : Int) (room : Nat)
  /-- `exec` by a master of a program whose segments end at these addresses, in a new directory. -/
  | exec (p : Lwp) (pgdir : Nat) (ends : List Nat)

/-- The LWP that takes the step. -/
def SpaceEvent.lwp : SpaceEvent → Lwp
  | .run p => p
  | .yield p => p
  | .choose p => p
  | .create p _ => p
  | .threadExit p _ => p
  | .join p _ => p
  | .rejoin p => p
  | .sbrk p _ _ => p
  | .exec p _ _ => p

namespace Space

/-- Replace the entries of one directory. -/
def setPages (x : Space) (pgdir : Nat) (pages : PageMap) : Space :=
  { x with pages := Function.update x.pages pgdir pages }

/-- `thread_create` after the choice of `next_tid`. Stacks whose end is no unsigned integer are
left out. -/
def threadCreate (x : Space) (p : Lwp) (tid room : Nat) : Option Space :=
  match (x.sys.proc p).master with
  | none => none
  | some master =>
    match (x.sys.proc master).pgdir with
    | none => none
    | some pgdir =>
      let base := x.sys.nextBase master
      if 2 ^ 32 ≤ base + 2 * PGSIZE then none
      else
        match allocuvm (x.pages pgdir) base (base + 2 * PGSIZE) room with
        | none => none
        | some (0, pages) =>
          (x.sys.threadCreate p tid .noMemory).map fun sys => { x with sys }.setPages pgdir pages
        | some (sz, pages) =>
          let pages := clearpteu pages (sz - 2 * PGSIZE)
          if copyout pages (sz - 8) 8 then
            (x.sys.threadCreate p tid .mapped).map fun sys => { x with sys }.setPages pgdir pages
          else
            match deallocuvm pages (base + 2 * PGSIZE) base, x.sys.threadCreate p tid .noCopy with
            | some (_, pages), some sys => some ({ x with sys }.setPages pgdir pages)
            | _, _ => none

/-- `growproc`. -/
def growproc (x : Space) (p : Lwp) (n : Int) (room : Nat) : Option Space :=
  match (x.sys.proc p).master with
  | none => none
  | some master =>
    match (x.sys.proc master).pgdir with
    | none => none
    | some pgdir =>
      let sz := (x.sys.proc master).sz
      let result :=
        if 0 < n then allocuvm (x.pages pgdir) sz (uint (sz + n)) room
        else if n < 0 then deallocuvm (x.pages pgdir) sz (uint (sz + n))
        else some (sz, x.pages pgdir)
      match result with
      | none => none
      | some (newsz, pages) =>
        if n ≠ 0 ∧ newsz = 0 then some (x.setPages pgdir pages)
        else
          let sys := x.sys.setProc master { x.sys.proc master with sz := newsz }
          some ({ x with sys }.setPages pgdir pages)

/-- The end of `delete_thread` of an LWP that is no master. -/
def unmap (x : Space) (q : Lwp) (sys : System) : Option Space :=
  match (x.sys.proc q).pgdir with
  | none => none
  | some pgdir =>
    (deallocuvm (x.pages pgdir) (x.sys.proc q).sz (x.sys.proc q).base).map fun (_, pages) =>
      { x with sys }.setPages pgdir pages

/-- One pass of the loop of `thread_join`. -/
def joinPass (x : Space) (p : Lwp) (thread : Nat) : Option Space :=
  match x.sys.joinPass p thread with
  | none => none
  | some (.collected q _, sys) => x.unmap q sys
  | some (_, sys) => some { x with sys }

/-- The loop over the segments of a program, with memory enough. -/
def loadSegments : List Nat → Nat → PageMap → Option (Nat × PageMap)
  | [], sz, pages => some (sz, pages)
  | last :: rest, sz, pages =>
    match allocuvm pages sz last (KERNBASE / PGSIZE) with
    | none => none
    | some (sz, pages) => if sz = 0 then some (0, pages) else loadSegments rest sz pages

/-- The image that `exec` builds: its size, 0 when it fails. -/
def loadImage (ends : List Nat) : Option (Nat × PageMap) :=
  match loadSegments ends 0 fun _ => none with
  | none => none
  | some (sz, pages) =>
    if sz = 0 ∧ ends ≠ [] then some (0, pages)
    else
      match allocuvm pages (PGROUNDUP sz) (PGROUNDUP sz + 2 * PGSIZE) (KERNBASE / PGSIZE) with
      | none => none
      | some (0, pages) => some (0, pages)
      | some (sz, pages) => some (sz, clearpteu pages (sz - 2 * PGSIZE))

/-- `exec` by a master. -/
def exec (x : Space) (p : Lwp) (pgdir : Nat) (ends : List Nat) : Option Space :=
  match loadImage ends with
  | none => none
  | some (0, _) => some x
  | some (sz, pages) =>
    match (x.sys.proc p).pgdir with
    | none => none
    | some oldpgdir =>
      (x.sys.execCommit p true pgdir sz).map fun sys =>
        ({ x with sys }.setPages oldpgdir fun _ => none).setPages pgdir pages

/-- A step of a running LWP inside a given system call. -/
def inside (x : Space) (p : Lwp) (call : Call) (next : Option Space) : Option Space :=
  if (x.sys.proc p).state = .running ∧ x.sys.call p = call then next else none

/-- A step that leaves the memory alone. -/
def table (x : Space) (event : Event) : Option Space := (x.sys.step event).map fun sys => { x with sys }

/-- One step. -/
def step (x : Space) : SpaceEvent → Option Space
  | .run p => x.table (.run p)
  | .yield p => x.table (.yield p)
  | .choose p => x.table (.threadChoose p)
  | .create p room =>
    match x.sys.call p with
    | .threadCreate tid => x.inside p (.threadCreate tid) (x.threadCreate p tid room)
    | _ => none
  | .threadExit p retval => x.table (.threadExit p retval)
  | .join p thread =>
    x.inside p .none (if (x.sys.proc p).tid ≠ 1 then some x else x.joinPass p thread)
  | .rejoin p =>
    match x.sys.call p with
    | .threadJoin thread => x.inside p (.threadJoin thread) (x.joinPass p thread)
    | _ => none
  | .sbrk p n room => x.inside p .none (x.growproc p n room)
  | .exec p pgdir ends =>
    x.inside p .none (if (x.sys.proc p).tid ≠ 1 then none else x.exec p pgdir ends)

end Space

end Xv6
