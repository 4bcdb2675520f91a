import Xv6.Bio
import Xv6.Transactions

/-!
# Waiting for the log

`begin_op` and `end_op` as steps of any number of processes over one machine, with processes
taking and releasing buffers at any time. `begin_op` is taken one pass of its loop at a time, a
commit one request at a time, and `bread` at the points where it may sleep. `sleep(&log)` and
`wakeup(&log)` are changes of what a process is doing.
-/

namespace Xv6

/-- What a process is doing with the log. -/
inductive WaitPhase where
  /-- Nothing. -/
  | idle
  /-- It is in `begin_op` and may run. -/
  | trying
  /-- It is in `begin_op`, asleep on `log`. -/
  | asleep
  /-- It is between `begin_op` and `end_op`. -/
  | inOp
  /-- It is in the commit of its `end_op`, with this code left of the stage. -/
  | commit (stage : CommitStage) (code : Kernel Unit)

/-- `wakeup(&log)`, as one process sees it. -/
def WaitPhase.woken : WaitPhase → WaitPhase
  | .asleep => .trying
  | phase => phase

/-- Where a process is in `bread`. -/
inductive Borrow where
  /-- It is not in `bread`. -/
  | none
  /-- It refers to the buffer and waits for its sleep lock. -/
  | waiting (i : Fin NBUF)
  /-- It holds the buffer and is about to read the block unless the buffer is valid. -/
  | locked (i : Fin NBUF)
  deriving DecidableEq

/-- The machine and the processes. -/
structure WaitState (π : Type) where
  /-- Buffers, disk and log. -/
  machine : Machine π
  /-- What each process is doing with the log. -/
  phase : π → WaitPhase
  /-- Where each process is in `bread`. -/
  borrow : π → Borrow

/-- Steps of processes. -/
inductive WaitEvent (π : Type) where
  /-- `begin_op` is called. -/
  | call (p : π)
  /-- One pass of the loop of `begin_op`. -/
  | test (p : π)
  /-- `bget` up to `acquiresleep`. -/
  | bget (p : π) (blockno : Nat)
  /-- `acquiresleep` of `bget` returns. -/
  | acquire (p : π)
  /-- The end of `bread`. -/
  | fill (p : π)
  /-- Another request of the process's own code. -/
  | request (p : π) (op : BufOp)
  /-- The locked part of `end_op`. -/
  | endOp (p : π)
  /-- A request of a commit, or its next stage. -/
  | commit (p : π)

namespace WaitState

variable {π : Type} [DecidableEq π]

/-- The in-memory log. -/
abbrev log (s : WaitState π) : Log := s.machine.log

/-- The process changes what it is doing, and the log its counters. -/
def enter (s : WaitState π) (p : π) (log : Log) (phase : WaitPhase) : WaitState π :=
  { s with machine := { s.machine with log }, phase := Function.update s.phase p phase }

/-- `wakeup(&log)`. -/
def wakeup (s : WaitState π) : WaitState π :=
  { s with phase := fun p => (s.phase p).woken }

/-- The code of the process is at liberty to request buffers. -/
def atLiberty (s : WaitState π) (p : π) : Bool :=
  match s.phase p with
  | .idle => true
  | .inOp => true
  | _ => false

/-- The next request of the process may be a `bread` of the block. -/
def mayRead (s : WaitState π) (p : π) (blockno : Nat) : Bool :=
  match s.phase p with
  | .commit _ (.call (.bread wanted) _) => wanted == blockno
  | _ => s.atLiberty p

/-- `bread` returns the data to the code that called it. -/
def returned (s : WaitState π) (p : π) (data : Block) : WaitState π :=
  match s.phase p with
  | .commit stage (.call (.bread _) next) => s.enter p s.log (.commit stage (next data))
  | _ => s

/-- One pass of the loop of `begin_op`. -/
def pass (s : WaitState π) (p : π) : WaitState π :=
  match s.machine.beginOp with
  | some machine => s.enter p machine.log .inOp
  | none => s.enter p s.log .asleep

/-- A commit goes on: a request of its code other than `bread`, or the next stage. -/
def advance (s : WaitState π) (p : π) (stage : CommitStage) : Kernel Unit → Option (WaitState π)
  | .call (.bread _) _ => none
  | .call op next =>
    match Machine.handler p op s.machine with
    | .ok (answer, machine) => some ({ s with machine }.enter p machine.log (.commit stage (next answer)))
    | .error _ => none
  | .stop _ => none
  | .done _ =>
    match stage.next s.log with
    | some later => some (s.enter p (stage.log s.log) (.commit later (later.code (stage.log s.log))))
    | none => some (s.enter p (stage.log s.log) .idle).wakeup

/-- One step. A process takes it only from where it belongs. -/
def step (s : WaitState π) : WaitEvent π → Option (WaitState π)
  | .call p =>
    match s.phase p, s.borrow p with
    | .idle, .none => some (s.enter p s.log .trying)
    | _, _ => none
  | .test p =>
    match s.phase p with
    | .trying => some (s.pass p)
    | _ => none
  | .bget p blockno =>
    match s.borrow p, s.mayRead p blockno with
    | .none, true =>
      match s.machine.cache.bget ROOTDEV blockno with
      | .ok (i, cache) => some { s with
          machine := { s.machine with cache }, borrow := Function.update s.borrow p (.waiting i) }
      | .error _ => none
    | _, _ => none
  | .acquire p =>
    match s.borrow p with
    | .waiting i => (s.machine.cache.acquiresleep p i).map fun cache => { s with
        machine := { s.machine with cache }, borrow := Function.update s.borrow p (.locked i) }
    | _ => none
  | .fill p =>
    match s.borrow p with
    | .locked i =>
      match s.machine.fill p i with
      | .ok machine => some ({ s with
          machine, borrow := Function.update s.borrow p .none }.returned p (machine.cache.buf i).data)
      | .error _ => none
    | _ => none
  | .request p op =>
    match s.borrow p, s.atLiberty p, op with
    | _, _, .bread _ => none
    | .none, true, op =>
      match Machine.handler p op s.machine with
      | .ok (_, machine) => some { s with machine }
      | .error _ => none
    | _, _, _ => none
  | .endOp p =>
    match s.phase p, s.borrow p with
    | .inOp, .none =>
      match s.log.endOp s.machine.cache.isBufFull with
      | .ok (log, true) => some (s.enter p log (.commit .test (.done ())))
      | .ok (log, false) => some (s.enter p log .idle).wakeup
      | .error _ => none
    | _, _ => none
  | .commit p =>
    match s.phase p, s.borrow p with
    | .commit stage code, .none => s.advance p stage code
    | _, _ => none

end WaitState

end Xv6
