import Xv6.Space

/-!
# The memory of a group

What the LWPs of a group share, without the tables it is kept in: the size that the master keeps,
the bases of recycled stacks, the stacks of the other LWPs and the pages. The changes of this
memory are those that the steps of the LWPs are meant to make.
-/

namespace Xv6

/-! ## The abstract memory -/

/-- The stack of an LWP that is no master. -/
structure ThreadStack where
  /-- Where it starts. -/
  base : Nat
  /-- The size of memory that the LWP keeps. -/
  sz : Nat
  /-- The LWP is started and has not exited. -/
  started : Bool

/-- The memory of a group. -/
@[ext]
structure GroupMemory where
  /-- The size of memory that the master keeps. -/
  sz : Nat
  /-- The recycled bases, the newest first. -/
  free : List Nat
  /-- The stacks of the other LWPs until they are collected. -/
  threads : Lwp → Option ThreadStack
  /-- The pages of the directory. -/
  pages : PageMap

/-- What a step asks of the memory. -/
inductive MemoryAction where
  /-- Nothing. -/
  | rest
  /-- A stack for a new LWP, with memory for `room` pages. -/
  | create (room : Nat)
  /-- The deletion of an LWP. -/
  | collect (q : Lwp)
  /-- `sbrk`, with memory for `room` pages. -/
  | sbrk (n : Int) (room : Nat)
  /-- A new image, whose segments end at these addresses. -/
  | exec (ends : List Nat)

namespace GroupMemory

/-- Where the next stack starts. -/
def nextBase (g : GroupMemory) : Nat :=
  match g.free with
  | base :: _ => base
  | [] => g.sz

/-- The base is taken, from the recycled ones or from the end of memory. -/
def takeBase (g : GroupMemory) : GroupMemory :=
  match g.free with
  | _ :: rest => { g with free := rest }
  | [] => { g with sz := g.sz + 2 * PGSIZE }

/-- What `sbrk` gets: the new size, 0 if it fails, and the pages. -/
def growth (g : GroupMemory) (n : Int) (room : Nat) : Option (Nat × PageMap) :=
  if 0 < n then allocuvm g.pages g.sz (uint (g.sz + n)) room
  else if n < 0 then deallocuvm g.pages g.sz (uint (g.sz + n))
  else some (g.sz, g.pages)

/-- The sizes that the started LWPs other than the master keep. -/
def startedSizes (threads : Lwp → Option ThreadStack) : List Nat :=
  (List.finRange NPROC).filterMap fun q =>
    match threads q with
    | some stack => if stack.started then some stack.sz else none
    | none => none

/-- Every step is allowed but `exec`. -/
def imageStays (_ : GroupMemory) : MemoryAction → Bool
  | .exec _ => false
  | _ => true

/-- The changes of the memory. -/
inductive Changes (g : GroupMemory) : MemoryAction → GroupMemory → Prop where
  /-- Nothing changes. -/
  | rested : Changes g .rest g
  /-- An LWP exits. -/
  | exited (q : Lwp) (stack : ThreadStack) : g.threads q = some stack →
      Changes g .rest { g with threads := Function.update g.threads q (some { stack with started := false }) }
  /-- An LWP gets its stack. -/
  | created (room : Nat) (np : Lwp) (pages : PageMap) : g.threads np = none →
      allocuvm g.pages g.nextBase (g.nextBase + 2 * PGSIZE) room = some (g.nextBase + 2 * PGSIZE, pages) →
      Changes g (.create room) { g.takeBase with
        threads := Function.update g.threads np (some ⟨g.nextBase, g.nextBase + 2 * PGSIZE, true⟩)
        pages := clearpteu pages g.nextBase }
  /-- There is no memory for the stack; its base is lost. -/
  | uncreated (room : Nat) (pages : PageMap) :
      allocuvm g.pages g.nextBase (g.nextBase + 2 * PGSIZE) room = some (0, pages) →
      Changes g (.create room) { g.takeBase with pages }
  /-- The stack of an LWP is unmapped and its base recycled. -/
  | collected (q : Lwp) (stack : ThreadStack) (sz : Nat) (pages : PageMap) : g.threads q = some stack →
      deallocuvm g.pages stack.sz stack.base = some (sz, pages) →
      Changes g (.collect q)
        { g with free := stack.base :: g.free, threads := Function.update g.threads q none, pages }
  /-- `sbrk` returns the old size. -/
  | grown (n : Int) (room sz : Nat) (pages : PageMap) : g.growth n room = some (sz, pages) →
      ¬(n ≠ 0 ∧ sz = 0) → Changes g (.sbrk n room) { g with sz, pages }
  /-- `sbrk` returns -1. -/
  | ungrown (n : Int) (room : Nat) (pages : PageMap) : g.growth n room = some (0, pages) → n ≠ 0 →
      Changes g (.sbrk n room) { g with pages }
  /-- `exec` replaces the image. -/
  | replaced (ends : List Nat) (sz : Nat) (pages : PageMap) : sz ≠ 0 →
      Space.loadImage ends = some (sz, pages) → Changes g (.exec ends) { g with sz, pages }
  /-- `exec` fails. -/
  | unloaded (ends : List Nat) : Changes g (.exec ends) g

end GroupMemory

/-! ## The memory of a group in the tables -/

/-- The stack of an LWP of the group of `m`. -/
def Proc.threadStack (r : Proc) (m : Lwp) : Option ThreadStack :=
  if r.state ≠ .unused ∧ r.master = some m then some ⟨r.base, r.sz, r.state.started⟩ else none

namespace Space

/-- The pages of the directory of an LWP. -/
def directory (x : Space) (p : Lwp) : PageMap :=
  match (x.sys.proc p).pgdir with
  | some pgdir => x.pages pgdir
  | none => fun _ => none

/-- The memory of the group of `m`. -/
def memory (x : Space) (m : Lwp) : GroupMemory where
  sz := (x.sys.proc m).sz
  free := (x.sys.proc m).stack
  threads q := if q = m then none else (x.sys.proc q).threadStack m
  pages := x.directory m

/-- The zombie that `thread_join` finds. -/
def exited (x : Space) (p : Lwp) (thread : Nat) : Option Lwp :=
  firstSlot fun q => decide ((x.sys.proc q).pid = (x.sys.proc p).pid ∧ (x.sys.proc q).tid = thread) &&
    decide ((x.sys.proc q).state = .zombie)

/-- What `thread_join` asks of the memory. -/
def joinAction (x : Space) (p : Lwp) (thread : Nat) : MemoryAction :=
  match x.exited p thread with
  | some q => .collect q
  | none => .rest

/-- What a step asks of the memory. -/
def action (x : Space) : SpaceEvent → MemoryAction
  | .create _ room => .create room
  | .sbrk _ n room => .sbrk n room
  | .exec _ _ ends => .exec ends
  | .join p thread => if (x.sys.proc p).tid = 1 then x.joinAction p thread else .rest
  | .rejoin p =>
    match x.sys.call p with
    | .threadJoin thread => x.joinAction p thread
    | _ => .rest
  | _ => .rest

end Space

end Xv6
