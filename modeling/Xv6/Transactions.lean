import Xv6.Store

/-!
# Transactions of many processes

`begin_op`, `log_write`, `end_op` and `sync` as steps of any number of processes over one log.
A commit is taken as the steps `write_log`, `write_head`, `install_trans`, `n = 0` and the
`write_head` that erases the header, with other processes running in between. What each
`log_write` recorded is kept beside the store.
-/

namespace Xv6

/-- Where a process is in `commit()`. -/
inductive CommitStage where
  /-- Before the test of `log.lh.n > 0`. -/
  | test
  /-- Before `write_log`. -/
  | writeLog
  /-- Before the `write_head` that commits. -/
  | writeHead
  /-- Before `install_trans`. -/
  | installTrans
  /-- Before `log.lh.n = 0`. -/
  | clear
  /-- Before the `write_head` that erases the header. -/
  | eraseHead
  /-- Before `log.committing = 0` and the wakeup. -/
  | finish
  deriving DecidableEq

namespace CommitStage

/-- The code of a step. -/
def code (log : Log) : CommitStage → Kernel Unit
  | .writeLog => Xv6.writeLog log
  | .writeHead => Xv6.writeHead log
  | .installTrans => Xv6.installTrans log
  | .eraseHead => Xv6.writeHead log
  | .test => pure ()
  | .clear => pure ()
  | .finish => pure ()

/-- The log after a step. -/
def log (log : Log) : CommitStage → Log
  | .clear => log.clear
  | .finish => { log with committing := false }
  | _ => log

/-- The step that follows, or `none` when the commit is over. -/
def next (log : Log) : CommitStage → Option CommitStage
  | .test => some (if 0 < log.lh.length then .writeLog else .finish)
  | .writeLog => some .writeHead
  | .writeHead => some .installTrans
  | .installTrans => some .clear
  | .clear => some .eraseHead
  | .eraseHead => some .finish
  | .finish => none

end CommitStage

/-- What a process is doing with the log. -/
inductive TxPhase where
  /-- Nothing. -/
  | idle
  /-- It is between `begin_op` and `end_op`, and has passed these blocks to `log_write`. -/
  | inOp (logged : List Nat)
  /-- It is in a commit, called by its `end_op` or `sync`. -/
  | commit (stage : CommitStage)
  deriving DecidableEq

/-- The log, the disk and the processes. -/
structure TxState (π : Type) where
  /-- Cached blocks, disk and log. -/
  store : Store
  /-- What each process is doing. -/
  phase : π → TxPhase
  /-- The contents at the last `log_write` of each block. -/
  recorded : Nat → Block

/-- Steps of processes. -/
inductive TxEvent (π : Type) where
  /-- `begin_op`, admitted with the given answer of `isBufFull`. -/
  | beginOp (p : π) (bufFull : Bool)
  /-- The process gives a block new contents and passes it to `log_write`. -/
  | logWrite (p : π) (blockno : Nat) (contents : Block)
  /-- `end_op`, with the given answer of `isBufFull`. -/
  | endOp (p : π) (bufFull : Bool)
  /-- `sync`, up to the call of `commit`. -/
  | sync (p : π)
  /-- The next step of a commit. -/
  | advance (p : π)

/-- The typical use of `log_write`: read the block, change it, record it, release it. -/
def updateBlock (blockno : Nat) (contents : Block) : Kernel Unit := do
  let _ ← bread blockno
  modify blockno fun _ => contents
  logWrite blockno
  brelse blockno

/-- The store after code of the log, which stops for no reason of its own. -/
def Store.after {α : Type} (s : Store) (code : Kernel α) : Option Store :=
  match s.exec checked code with
  | .ok (_, t) => some t
  | .error _ => none

namespace TxState

variable {π : Type} [DecidableEq π]

/-- The in-memory log. -/
abbrev log (s : TxState π) : Log := s.store.log

/-- The process changes what it is doing, and the log its counters. -/
def enter (s : TxState π) (p : π) (log : Log) (phase : TxPhase) : TxState π :=
  { s with store := { s.store with log }, phase := Function.update s.phase p phase }

/-- One step of a commit, taken at once. -/
def advance (s : TxState π) (p : π) (stage : CommitStage) : Option (TxState π) :=
  (s.store.after (stage.code s.log)).map fun store =>
    { s with store }.enter p (stage.log store.log) (match stage.next s.log with
      | some stage => .commit stage
      | none => .idle)

/-- One step. A process takes it only from the phase it belongs to, and file-system operations
write no block of the log area. -/
def step (s : TxState π) : TxEvent π → Option (TxState π)
  | .beginOp p bufFull =>
    match s.phase p with
    | .idle => (s.log.beginOp bufFull).map fun log => s.enter p log (.inOp [])
    | _ => none
  | .logWrite p blockno contents =>
    match s.phase p with
    | .inOp logged =>
      if s.log.Area blockno then none
      else (s.store.after (updateBlock blockno contents)).map fun store =>
        { store
          phase := Function.update s.phase p (.inOp (blockno :: logged))
          recorded := Function.update s.recorded blockno contents }
    | _ => none
  | .endOp p bufFull =>
    match s.phase p with
    | .inOp _ =>
      match s.log.endOp bufFull with
      | .ok (log, doCommit) => some (s.enter p log (if doCommit then .commit .test else .idle))
      | .error _ => none
    | _ => none
  | .sync p =>
    match s.phase p with
    | .idle => some (s.enter p { s.log with committing := true } (.commit .test))
    | _ => none
  | .advance p =>
    match s.phase p with
    | .commit stage => s.advance p stage
    | _ => none

end TxState

end Xv6
