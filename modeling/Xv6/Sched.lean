import Xv6.Proc

/-!
# The scheduler

`sched.c` of project 3: picking an LWP by stride and by queue, charging a timer tick, priority
boost and `set_cpu_share`. Searches that start after a remembered index visit the whole table,
that index last.
-/

namespace Xv6

/-- The indexes after `recent`, cyclically, `recent` itself last. -/
def indexesAfter (recent : Fin NPROC) : List (Fin NPROC) :=
  (List.finRange NPROC).map fun i => recent + 1 + i

namespace System

/-- `isRunnable`. -/
def isRunnable (s : System) (pid : Nat) : Bool :=
  (List.finRange NPROC).any fun p => (s.proc p).pid == pid && decide ((s.proc p).state = .runnable)

/-- `pick_lwp`: the LWP of the group to run next, or null; no result when there is no master. -/
def pickLwp (s : System) (pid : Nat) : Option (Option Lwp × System) :=
  match s.findMaster pid with
  | none => none
  | some master =>
    let recent := (s.proc master).cur
    let wanted := fun p => decide ((s.proc p).state = .runnable) && (s.proc p).pid == pid
    match (indexesAfter recent).find? wanted with
    | some p => some (some p, s.setProc master { s.proc master with cur := p })
    | none => if (s.proc recent).state = .runnable then some (some recent, s) else some (none, s)

/-- A queue node that `pick_mlfq` accepts. -/
def nodeReady (s : System) (n : NodeRef) : Bool :=
  decide ((s.node n).state = .used) && s.isRunnable (s.node n).pid

/-- The loop of `pick_mlfq` over the given queues. -/
def pickQueues (s : System) : List (Fin 3) → Option (Option Lwp × System)
  | [] => some (none, s)
  | prior :: rest =>
    if (s.mTable prior).count = 0 then s.pickQueues rest
    else
      match (indexesAfter (s.mTable prior).recentIndex).find? fun i => s.nodeReady (prior, i) with
      | some i =>
        let queue := { s.mTable prior with recentIndex := i }
        { s with mTable := Function.update s.mTable prior queue }.pickLwp (s.node (prior, i)).pid
      | none => s.pickQueues rest

/-- `pick_mlfq`: loop over the queues in priority order. -/
def pickMlfq (s : System) : Option (Option Lwp × System) := s.pickQueues (List.finRange 3)

/-- One entry of the first loop of `pick_stride`. -/
def lessPass (s : System) (ret e : Entry) : Entry :=
  if (s.sTable e).state ≠ .used then ret
  else if !s.isRunnable (s.sTable e).pid then ret
  else if (s.sTable ret).pass > (s.sTable e).pass then e
  else ret

/-- One entry of the second loop of `pick_stride`, which keeps `minimum` and `ret`. -/
def leastPass (s : System) (best : Int × Entry) (e : Entry) : Int × Entry :=
  if (s.sTable e).state = .empty then best
  else if !s.isRunnable (s.sTable e).pid then best
  else if best.1 > (s.sTable e).pass then ((s.sTable e).pass, e)
  else best

/-- `pick_stride`. -/
def pickStride (s : System) : Option (Option Lwp × System) :=
  let ret := (List.finRange NPROC).foldl s.lessPass 0
  if ret = 0 then
    match s.pickMlfq with
    | none => none
    | some (some p, s) => some (some p, s)
    | some (none, s) =>
      let best := (List.finRange NPROC).foldl s.leastPass (1000000000, ret)
      s.pickLwp (s.sTable best.2).pid
  else s.pickLwp (s.sTable ret).pid

/-- The first half of `add_pass_stride`: charge an entry. -/
def charge (s : System) (e : Entry) : System :=
  let entry := { s.sTable e with pass := (s.sTable e).pass + (s.sTable e).stride }
  { s with sTable := Function.update s.sTable e entry }

/-- The reset of `add_pass_stride`: the passes of the used entries become 0. -/
def resetPasses (s : System) : System :=
  { s with sTable := fun e =>
      if (s.sTable e).state ≠ .used then s.sTable e else { s.sTable e with pass := 0 } }

/-- `add_pass_stride` for a running LWP; no result when its `pstride` is null. -/
def addPassStride (s : System) (p : Lwp) : Option System :=
  match (s.proc p).pstride with
  | none => none
  | some e =>
    let s := s.charge e
    if (s.sTable e).pass > 100000000 then some s.resetPasses else some s

/-- One node of the loops of `prior_boost`. -/
def boostNode (s : System) (n : NodeRef) : System :=
  if (s.node n).state ≠ .used then s else s.movePrior (s.node n).pid 0

/-- One queue of the loop of `prior_boost`. -/
def boostQueue (s : System) (prior : Fin 3) : System :=
  if (s.mTable prior).count = 0 then s
  else (List.finRange NPROC).foldl (fun s i => s.boostNode (prior, i)) s

/-- `prior_boost`. -/
def priorBoost (s : System) : System :=
  { (List.finRange 3).foldl boostQueue s with schedticks := 0 }

/-- The cases of `add_tick` that demote a group at its time allotment. -/
def demote (s : System) (p : Lwp) (prior : Fin 3) (elapsed : Nat) : System :=
  match prior with
  | 0 => if 20 ≤ elapsed then s.movePrior (s.proc p).pid 1 else s
  | 1 => if 40 ≤ elapsed then s.movePrior (s.proc p).pid 2 else s
  | 2 => s

/-- Ticks of a time quantum. -/
def quantum : Fin 3 → Nat
  | 0 => 5
  | 1 => 10
  | 2 => 20

/-- `add_tick` of a running LWP after its node was charged, with `cur_tick`; the result says
whether it has to yield. -/
def endTick (s : System) (p : Lwp) (m : MlfqNode) (curTick : Nat) : Bool × System :=
  let s := s.demote p m.prior m.eticks
  if m.eticks % quantum m.prior = 0 then (true, if 200 ≤ curTick then s.priorBoost else s)
  else (false, s)

/-- `add_tick` of a running LWP. -/
def addTick (s : System) (p : Lwp) : Option (Bool × System) :=
  match s.addPassStride p with
  | none => none
  | some s =>
    let curTick := s.schedticks
    let s := { s with schedticks := curTick + 1 }
    if (s.proc p).schedstate ≠ .mlfq then some (decide (curTick % 5 = 0), s)
    else
      match (s.proc p).pmlfqNode with
      | none => none
      | some n =>
        let m := { s.node n with eticks := (s.node n).eticks + 1 }
        some ((s.setNode n m).endTick p m curTick)

/-! ## CPU shares -/

/-- The tickets of the used entries after the first. -/
def assigned (s : System) : Int :=
  (((List.finRange NPROC).filter fun e => decide (e ≠ 0 ∧ (s.sTable e).state = .used)).map
    fun e => (s.sTable e).tickets).sum

/-- `min_pass` of `set_cpu_share`. -/
def minPass (s : System) : Int :=
  let used := (List.finRange NPROC).filter fun e => decide (e ≠ 0 ∧ (s.sTable e).state = .used)
  min (used.foldl (fun least e => min least (s.sTable e).pass) 1000000000) (s.sTable 0).pass

/-- The checks of `set_cpu_share`, taken without the lock: `none` stands for -1. -/
def shareCheck (s : System) (p : Lwp) (inquire : Int) : Option Int :=
  if inquire ≤ 0 ∨ 80 < inquire then none
  else if (s.proc p).schedstate = .stride then none
  else if 80 < inquire + s.assigned then none
  else some s.minPass

/-- The first empty entry after the first one; without one the search leaves the table. -/
def emptyEntry (s : System) : Option Entry :=
  firstSlot fun e => decide (e ≠ 0) && (s.sTable e).state == .empty

/-- The new entry of `set_cpu_share` and the tickets taken from the first one. -/
def assign (s : System) (e : Entry) (pid : Nat) (inquire minPass : Int) : Option System :=
  let entry := { s.sTable e with
    tickets := inquire, stride := stride1.tdiv inquire, pass := minPass, state := .used, pid := pid }
  let table := Function.update s.sTable e entry
  let tickets := (table 0).tickets - inquire
  if tickets = 0 then none
  else
    let first := { table 0 with tickets, stride := stride1.tdiv tickets }
    some { s with sTable := Function.update table 0 first }

/-- The locked part of `set_cpu_share`. -/
def shareUpdate (s : System) (master : Lwp) (inquire minPass : Int) : Option System :=
  let pid := (s.proc master).pid
  let s := (s.popMlfq pid).getD s
  match s.emptyEntry with
  | none => none
  | some e =>
    match s.assign e pid inquire minPass with
    | none => none
    | some s => some (s.mapProc fun q =>
        if q.pid = pid then { q with schedstate := .stride, pstride := some e } else q)

end System

end Xv6
