import Mathlib.Logic.Function.Basic
import Mathlib.Algebra.Ring.Int.Defs
import Mathlib.Algebra.Ring.Nat
import Mathlib.Data.List.FinRange

/-!
# The process table and the scheduler's tables

`struct proc`, the stride table and the multi-level feedback queue of project 3, with the
functions of `sched.c` that fill and empty queue nodes and with `find_master`, `allocproc`
and `delete_thread` of `proc.c`. An LWP is a slot of the process table; the LWPs of a process
share its `pid` and point to its master, the LWP with `tid` 1. Page directories are named by
numbers; which are allocated is part of the state. An operation that would follow a null
pointer, divide by zero or panic has no next state.
-/

namespace Xv6

/-- `param.h`: maximum number of processes. -/
def NPROC : Nat := 64

/-- `mmu.h`: bytes mapped by a page. -/
def PGSIZE : Nat := 4096

/-- `stride1`. -/
def stride1 : Int := 2 ^ 20

/-- An LWP: a slot of the process table. -/
abbrev Lwp : Type := Fin NPROC

/-- An index of `s_table` or of a queue of `m_table`. -/
abbrev Entry : Type := Fin NPROC

instance : NeZero NPROC := ⟨by decide⟩

/-- There are three queues. -/
instance threeQueues : NeZero 3 := ⟨by decide⟩

/-- `enum procstate`. -/
inductive RunState where
  /-- `UNUSED`. -/
  | unused
  /-- `EMBRYO`. -/
  | embryo
  /-- `SLEEPING`. -/
  | sleeping
  /-- `RUNNABLE`. -/
  | runnable
  /-- `RUNNING`. -/
  | running
  /-- `ZOMBIE`. -/
  | zombie
  deriving DecidableEq, Repr

/-- `enum stridestate`. -/
inductive StrideState where
  /-- `USED`; the value 0, which the code also writes as `UNUSED`. -/
  | used
  /-- `EMPTY`. -/
  | empty
  /-- `MLFQ`. -/
  | mlfq
  /-- `STRIDE`. -/
  | stride
  deriving DecidableEq, Repr

/-- What a process sleeps on. -/
inductive Chan where
  /-- A process. -/
  | proc (p : Lwp)
  /-- Something else in the kernel. -/
  | other (n : Nat)
  deriving DecidableEq, Repr

/-- A node of the queues: its queue and its index there. -/
abbrev NodeRef : Type := Fin 3 × Entry

/-- `struct proc`. -/
structure Proc where
  /-- `sz`: size of process memory. -/
  sz : Nat
  pgdir : Option Nat
  /-- `kstack` is not null. -/
  kstack : Bool
  state : RunState
  pid : Nat
  parent : Option Lwp
  /-- `chan`: if not null, sleeping on it. -/
  chan : Option Chan
  killed : Bool
  schedstate : StrideState
  /-- `pstride`, an entry of `s_table`. -/
  pstride : Option Entry
  /-- `pmlfq_node`, a node of `m_table`. -/
  pmlfqNode : Option NodeRef
  retVal : Nat
  tid : Nat
  master : Option Lwp
  /-- `base`: start of the LWP's stack. -/
  base : Nat
  /-- `cur`: the LWP of the group that was picked last. -/
  cur : Lwp
  /-- `stack[0 .. stack_size)`, the newest base first. -/
  stack : List Nat
  deriving DecidableEq

/-- `struct stride`. -/
structure Stride where
  tickets : Int
  /-- `stride`: `stride1 / tickets`. -/
  stride : Int
  pass : Int
  pid : Nat
  isMLFQ : Bool
  state : StrideState
  deriving DecidableEq

/-- `struct mlfq_node`. -/
structure MlfqNode where
  state : StrideState
  /-- `eticks`: elapsed ticks. -/
  eticks : Nat
  pid : Nat
  prior : Fin 3
  deriving DecidableEq

/-- `struct fq`. -/
structure Fq where
  table : Entry → MlfqNode
  count : Int
  /-- `recent_index`. -/
  recentIndex : Entry

/-- The system call that an LWP is inside of, between two of its steps. -/
inductive Call where
  /-- None. -/
  | none
  /-- `fork`, with the slot that `allocproc` returned. -/
  | fork (np : Lwp)
  /-- `thread_create`, with `next_tid`. -/
  | threadCreate (tid : Nat)
  /-- `exec`, with its `isMaster`. -/
  | exec (isMaster : Bool)
  /-- `set_cpu_share`, with `master_thread`, its argument and `min_pass`. -/
  | setCpuShare (master : Lwp) (inquire minPass : Int)
  /-- The loop of `exit`. -/
  | exit
  /-- The loop of `wait`. -/
  | wait
  /-- The loop of `thread_join`, with its first argument. -/
  | threadJoin (thread : Nat)
  deriving DecidableEq

/-- A call of `freevm` on the directory of an LWP. -/
structure Freevm where
  /-- The directory. -/
  pgdir : Nat
  /-- The other slots that had it as `pgdir` and were `EMBRYO`, `SLEEPING`, `RUNNABLE` or `RUNNING`. -/
  users : List Lwp
  deriving DecidableEq

/-- The process table and the tables of the scheduler. -/
structure System where
  /-- `ptable.proc`. -/
  proc : Lwp → Proc
  /-- `s_table`. -/
  sTable : Entry → Stride
  /-- `m_table`. -/
  mTable : Fin 3 → Fq
  nextpid : Nat
  initproc : Lwp
  schedticks : Nat
  /-- The page directories that are allocated. -/
  dirs : Nat → Bool
  /-- The calls of `freevm` on directories of LWPs so far. -/
  freed : List Freevm
  /-- The system call each LWP is inside of. -/
  call : Lwp → Call

/-- The slot is taken and its process has not exited. -/
def RunState.live : RunState → Bool
  | .embryo => true
  | .sleeping => true
  | .runnable => true
  | .running => true
  | _ => false

/-- The process has been started and has not exited. -/
def RunState.started : RunState → Bool
  | .sleeping => true
  | .runnable => true
  | .running => true
  | _ => false

/-- The first index with a property, in the order of a table. -/
def firstSlot (wanted : Fin NPROC → Bool) : Option (Fin NPROC) := (List.finRange NPROC).find? wanted

namespace System

/-- Replace one slot. -/
def setProc (s : System) (p : Lwp) (q : Proc) : System :=
  { s with proc := Function.update s.proc p q }

/-- Change every slot. -/
def mapProc (s : System) (change : Proc → Proc) : System :=
  { s with proc := fun q => change (s.proc q) }

/-- The LWP enters or leaves a system call. -/
def setCall (s : System) (p : Lwp) (call : Call) : System :=
  { s with call := Function.update s.call p call }

/-- A node of the queues. -/
def node (s : System) (n : NodeRef) : MlfqNode := (s.mTable n.1).table n.2

/-- Replace one node. -/
def setNode (s : System) (n : NodeRef) (m : MlfqNode) : System :=
  let queue := { s.mTable n.1 with table := Function.update (s.mTable n.1).table n.2 m }
  { s with mTable := Function.update s.mTable n.1 queue }

/-- Add to the counter of a queue. -/
def addCount (s : System) (prior : Fin 3) (change : Int) : System :=
  let queue := { s.mTable prior with count := (s.mTable prior).count + change }
  { s with mTable := Function.update s.mTable prior queue }

/-- `find_master`: the first slot with this `pid` and `tid` 1. -/
def findMaster (s : System) (pid : Nat) : Option Lwp :=
  firstSlot fun p => (s.proc p).pid == pid && (s.proc p).tid == 1

/-! ## Queue nodes -/

/-- The nodes in the order of the loops of `pop_mlfq`. -/
def nodes : List NodeRef :=
  (List.finRange 3).flatMap fun prior => (List.finRange NPROC).map fun i => (prior, i)

/-- `pop_mlfq`: empty the first node with this `pid`; `none` stands for -1. -/
def popMlfq (s : System) (pid : Nat) : Option System :=
  match nodes.find? fun n => (s.node n).pid == pid with
  | none => none
  | some n =>
    let s := s.mapProc fun q =>
      if q.pid = pid then { q with schedstate := .used, pmlfqNode := none } else q
    some ((s.setNode n { s.node n with state := .empty, pid := 0, eticks := 0 }).addCount
      (s.node n).prior (-1))

/-- `push_mlfq`: fill the first empty node of a queue, if there is one. -/
def pushMlfq (s : System) (pid : Nat) (prior : Fin 3) : System :=
  match firstSlot fun i => (s.node (prior, i)).state == .empty with
  | none => s
  | some i =>
    let s := s.mapProc fun q =>
      if q.pid = pid then { q with schedstate := .mlfq, pmlfqNode := some (prior, i) } else q
    (s.addCount prior 1).setNode (prior, i)
      { s.node (prior, i) with pid := pid, state := .used, eticks := 0 }

/-- `move_prior`. -/
def movePrior (s : System) (pid : Nat) (prior : Fin 3) : System :=
  match s.popMlfq pid with
  | none => s
  | some s => s.pushMlfq pid prior

/-! ## Slots -/

/-- The locked part of `allocproc`, which takes a slot. -/
def takeSlot (s : System) (p : Lwp) : System :=
  { s with nextpid := s.nextpid + 1 }.setProc p { s.proc p with
    state := .embryo, pid := s.nextpid, tid := 1, parent := some p, master := some p,
    stack := [], cur := 0, base := (s.proc p).sz, pgdir := none }

/-- The rest of `allocproc` with a kernel stack. -/
def initSlot (s : System) (p : Lwp) : System :=
  let s := s.setProc p { s.proc p with kstack := true }
  let s := s.pushMlfq (s.proc p).pid 0
  s.setProc p { s.proc p with pstride := some 0, schedstate := .mlfq }

/-- `allocproc`: the slot it returns, if any. Without memory for the kernel stack the slot is
given up again. -/
def allocproc (s : System) (kalloc : Bool) : Option Lwp × System :=
  match firstSlot fun p => (s.proc p).state == .unused with
  | none => (none, s)
  | some p =>
    let s := s.takeSlot p
    if kalloc then (some p, s.initSlot p)
    else (none, s.setProc p { s.proc p with kstack := false, state := .unused })

/-- The slots other than `p` that are live on a directory. -/
def users (s : System) (p : Lwp) (pgdir : Nat) : List Lwp :=
  (List.finRange NPROC).filter fun q =>
    decide (q ≠ p) && (s.proc q).state.live && (s.proc q).pgdir == some pgdir

/-- `freevm` of a directory that an LWP had. -/
def freevm (s : System) (p : Lwp) (pgdir : Nat) : System :=
  { s with dirs := Function.update s.dirs pgdir false, freed := s.freed ++ [⟨pgdir, s.users p pgdir⟩] }

/-- The part of `delete_thread` that gives up a master's queue node or stride entry. -/
def dropClass (s : System) (p : Lwp) : Option System :=
  match (s.proc p).schedstate with
  | .mlfq =>
    match (s.proc p).pmlfqNode with
    | none => none
    | some n => some (s.setNode n { s.node n with state := .empty, pid := 0 })
  | .stride =>
    match (s.proc p).pstride with
    | none => none
    | some e =>
      let tickets := (s.sTable 0).tickets + (s.sTable e).tickets
      if tickets = 0 then none
      else
        let first := { s.sTable 0 with tickets, stride := stride1.tdiv tickets }
        let table := Function.update s.sTable 0 first
        let entry := { table e with state := .empty, tickets := 0, pass := 0, stride := 0, pid := 0 }
        some { s with sTable := Function.update table e entry }
  | _ => some s

/-- The part of `delete_thread` for a master. -/
def dropMaster (s : System) (p : Lwp) : Option System :=
  match s.dropClass p with
  | none => none
  | some s =>
    let s := s.setProc p { s.proc p with
      stack := [], schedstate := .mlfq, pstride := none, pmlfqNode := none }
    match (s.proc p).pgdir with
    | none => none
    | some pgdir => some (s.freevm p pgdir)

/-- The part of `delete_thread` for every LWP, with the group's master. -/
def clearSlot (s : System) (p master : Lwp) : System :=
  let s := s.setProc p { s.proc p with
    kstack := false, master := none, pid := 0, tid := 0, parent := none, killed := false, state := .unused }
  let s := s.setProc master { s.proc master with stack := (s.proc p).base :: (s.proc master).stack }
  s.setProc p { s.proc p with sz := 0, base := 0 }

/-- `delete_thread`. -/
def deleteThread (s : System) (p : Lwp) : Option System :=
  match s.findMaster (s.proc p).pid, if (s.proc p).tid = 1 then s.dropMaster p else some s with
  | some master, some s => some (s.clearSlot p master)
  | _, _ => none

/-! ## Sleeping and waking -/

/-- `wakeup1`. -/
def wakeup1 (s : System) (chan : Option Chan) : System :=
  s.mapProc fun q => if q.state = .sleeping ∧ q.chan = chan then { q with state := .runnable } else q

/-- `sleep`, up to the switch to the scheduler. -/
def sleep (s : System) (p : Lwp) (chan : Chan) : System :=
  s.setProc p { s.proc p with chan := some chan, state := .sleeping }

end System

end Xv6
