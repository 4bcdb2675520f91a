import Xv6.Sched

/-!
# System calls on processes

`fork`, `thread_create`, `thread_exit`, `thread_join`, `exit`, `wait`, `exec`, `kill` and
`set_cpu_share` of project 3 as steps of LWPs over the process table. A call is cut where other
processes can run in between: `fork` and `set_cpu_share` where they hold no lock, `exec` where it
loads the program, `thread_create` after it has chosen `next_tid`, the loops of `wait`,
`thread_join` and `exit` where they sleep. What depends on memory or on the file system is part
of the event.
-/

namespace Xv6

/-- How the middle part of `thread_create` ends. -/
inductive StackOutcome where
  /-- The stack is mapped and written. -/
  | mapped
  /-- `allocuvm` returns 0. -/
  | noMemory
  /-- `copyout` returns -1. -/
  | noCopy
  deriving DecidableEq

/-- What `copyuvm` returns. -/
inductive CopyResult where
  /-- A new directory. -/
  | copied (pgdir : Nat)
  /-- 0, after `freevm` of the directory it had begun, if it had begun one. -/
  | failed (begun : Option Nat)
  deriving DecidableEq

/-- How a pass of the loop of `wait` ends. -/
inductive WaitResult where
  /-- It deleted a zombie and returns its pid. -/
  | reaped (child : Lwp) (pid : Nat)
  /-- It returns -1. -/
  | failed
  /-- It sleeps. -/
  | asleep
  deriving DecidableEq

/-- How a pass of the loop of `thread_join` ends. -/
inductive JoinResult where
  /-- It deleted a zombie, stored its value and returns 0. -/
  | collected (lwp : Lwp) (retval : Nat)
  /-- It returns -1. -/
  | failed
  /-- It sleeps. -/
  | asleep
  deriving DecidableEq

/-- Steps of LWPs, of the scheduler and of interrupts. -/
inductive Event where
  /-- `fork` up to the return of `allocproc`, with the answer of `kalloc`. -/
  | fork (p : Lwp) (kalloc : Bool)
  /-- The rest of `fork`, with what `copyuvm` returns. -/
  | forkCopy (p : Lwp) (result : CopyResult)
  /-- `thread_create` up to the choice of `next_tid`. -/
  | threadChoose (p : Lwp)
  /-- The rest of `thread_create`. -/
  | threadCreate (p : Lwp) (outcome : StackOutcome)
  /-- `thread_exit`. -/
  | threadExit (p : Lwp) (retval : Nat)
  /-- `thread_join` with its first pass. -/
  | threadJoin (p : Lwp) (thread : Nat)
  /-- `wait` with its first pass. -/
  | wait (p : Lwp)
  /-- `exit` with its first pass. -/
  | exit (p : Lwp)
  /-- The next pass of the loop the LWP is in. -/
  | resume (p : Lwp)
  /-- `exec` up to loading the program. -/
  | exec (p : Lwp)
  /-- `exec` returns -1, after `freevm` of the directory it had begun, if it had begun one. -/
  | execFail (p : Lwp) (begun : Option Nat)
  /-- `exec` commits to the image in a new directory. -/
  | execCommit (p : Lwp) (pgdir sz : Nat)
  | kill (p : Lwp) (pid : Nat)
  /-- The checks of `set_cpu_share`. -/
  | shareCheck (p : Lwp) (inquire : Int)
  /-- The locked part of `set_cpu_share`. -/
  | shareUpdate (p : Lwp)
  /-- `growproc`, with the size it stores. -/
  | growproc (p : Lwp) (sz : Nat)
  /-- The LWP sleeps on something that is no process. -/
  | sleep (p : Lwp) (chan : Nat)
  /-- `wakeup` on something that is no process. -/
  | wakeup (chan : Nat)
  /-- A timer interrupt while the LWP runs. -/
  | tick (p : Lwp)
  | yield (p : Lwp)
  /-- `yield_thread`. -/
  | yieldThread (p : Lwp)
  /-- The LWP gets a processor, whatever chose it. -/
  | run (p : Lwp)
  /-- `scheduler` runs the LWP that `pick_stride` returns. -/
  | dispatch
  deriving DecidableEq

namespace System

/-! ## `fork` and `thread_create` -/

/-- `fork` up to the return of `allocproc`. -/
def fork (s : System) (p : Lwp) (kalloc : Bool) : System :=
  match s.allocproc kalloc with
  | (none, s) => s
  | (some np, s) => s.setCall p (.fork np)

/-- `freevm` of a directory that was begun and that no LWP has got yet. -/
def discard (s : System) (p : Lwp) : Option Nat → Option System
  | none => some s
  | some pgdir => if s.dirs pgdir then none else some (s.freevm p pgdir)

/-- The rest of `fork`. A directory that `copyuvm` begins was not allocated before. -/
def forkCopy (s : System) (p np : Lwp) (result : CopyResult) : Option System :=
  match (s.proc p).master, result with
  | none, _ => none
  | some _, .failed begun => (s.discard p begun).map fun s =>
      (s.setProc np { s.proc np with kstack := false, state := .unused }).setCall p .none
  | some _, .copied pgdir =>
    if s.dirs pgdir then none
    else
      let s := { s with dirs := Function.update s.dirs pgdir true }.setProc np { s.proc np with
        pgdir := some pgdir, sz := (s.proc p).sz, parent := some p, state := .runnable }
      some ((s.setCall np .none).setCall p .none)

/-- `next_tid` of `thread_create`: one more than the largest `tid` of the group. -/
def nextTid (s : System) (p : Lwp) : Nat :=
  (List.finRange NPROC).foldl
    (fun tid q => if (s.proc q).pid = (s.proc p).pid then max tid (s.proc q).tid else tid) 1 + 1

/-- `thread_create` gives back the queue node that `allocproc` took for the new slot. -/
def returnNode (s : System) (np : Lwp) : Option System :=
  match (s.proc np).pmlfqNode with
  | none => none
  | some n => some (s.setNode n { s.node n with pid := 0, state := .empty, eticks := 0 })

/-- The base of a new stack: a recycled one, else the end of memory, which grows by two pages. -/
def takeBase (s : System) (master : Lwp) : Nat × System :=
  match (s.proc master).stack with
  | base :: rest => (base, s.setProc master { s.proc master with stack := rest })
  | [] =>
    ((s.proc master).sz, s.setProc master { s.proc master with sz := (s.proc master).sz + 2 * PGSIZE })

/-- The end of `thread_create`: the new LWP joins the group of its creator. -/
def attach (s : System) (p master np : Lwp) (tid base : Nat) : System :=
  s.setProc np { s.proc np with
    tid, pid := (s.proc p).pid, base, pgdir := (s.proc master).pgdir, sz := base + 2 * PGSIZE,
    parent := some p, master := some master, schedstate := (s.proc master).schedstate,
    pstride := (s.proc master).pstride, pmlfqNode := (s.proc master).pmlfqNode, state := .runnable }

/-- The part of `thread_create` after the new stack has its base. -/
def finishThread (s : System) (p master np : Lwp) (tid base : Nat) : StackOutcome → System
  | .noMemory => s.setProc np { s.proc np with state := .unused }
  | .noCopy =>
    let s := s.setProc master { s.proc master with stack := base :: (s.proc master).stack }
    s.setProc np { s.proc np with state := .unused }
  | .mapped => (s.attach p master np tid base).setCall np .none

/-- The rest of `thread_create`; `allocproc` returning 0 is a panic. -/
def threadCreate (s : System) (p : Lwp) (tid : Nat) (outcome : StackOutcome) : Option System :=
  match s.allocproc true with
  | (none, _) => none
  | (some np, s) =>
    match s.returnNode np, (s.proc p).master with
    | some s, some master =>
      let (base, s) := s.takeBase master
      some ((s.finishThread p master np tid base outcome).setCall p .none)
    | _, _ => none

/-! ## Ending -/

/-- The loops that pass children to init, which is woken if one of them is a zombie. -/
def passToInit (s : System) (child : Proc → Bool) : System :=
  let t := s.mapProc fun q => if child q then { q with parent := some s.initproc } else q
  if (List.finRange NPROC).any fun q => child (s.proc q) && decide ((s.proc q).state = .zombie) then
    t.wakeup1 (some (.proc s.initproc))
  else t

/-- The LWP becomes a zombie. -/
def zombie (s : System) (p : Lwp) : System := s.setProc p { s.proc p with state := .zombie }

/-- `thread_exit`. -/
def threadExit (s : System) (p : Lwp) (retval : Nat) : System :=
  let s := s.setProc p { s.proc p with retVal := retval }
  let s := s.wakeup1 ((s.proc p).master.map .proc)
  let s := s.passToInit fun q => decide (q.parent = some p) || decide (q.master = some p)
  s.zombie p

/-- The part of `exit` that makes an LWP a zombie and wakes who waits for it. -/
def endExit (s : System) (p : Lwp) : System :=
  let s := s.zombie p
  let s := s.wakeup1 ((s.proc p).parent.map .proc)
  s.wakeup1 ((s.proc p).master.map .proc)

/-- One slot of the loop in which the master of a group ends its LWPs; it counts those left. -/
def endLwp (p : Lwp) (acc : System × Nat) (q : Lwp) : Option (System × Nat) :=
  let (s, kids) := acc
  if (s.proc q).master ≠ (s.proc p).master ∨ q = p then some acc
  else if (s.proc q).state = .zombie then (s.deleteThread q).map fun s => (s, kids)
  else if (s.proc q).state = .unused then some acc
  else some ((s.setProc q { s.proc q with killed := true }).wakeup1 (some (.proc q)), kids + 1)

/-- One pass of the loop of `exit` by a master. -/
def exitPass (s : System) (p : Lwp) : Option System :=
  match (List.finRange NPROC).foldlM (endLwp p) (s, 0) with
  | none => none
  | some (s, kids) =>
    if kids ≠ 0 then some ((s.sleep p (.proc p)).setCall p .exit) else some (s.endExit p)

/-- `exit` with its first pass. -/
def exit (s : System) (p : Lwp) : Option System :=
  if p = s.initproc then none
  else
    match (s.proc p).master with
    | none => none
    | some master =>
      let child := fun q : Proc => decide (q.pid ≠ (s.proc p).pid) && decide (q.parent = some master)
      if (s.proc p).tid = 1 then (s.passToInit child).exitPass p
      else
        let s := s.setProc master { s.proc master with killed := true }
        let s := s.wakeup1 (some (.proc master))
        some ((s.passToInit child).endExit p)

/-! ## Waiting -/

/-- One pass of the loop of `wait`. -/
def waitPass (s : System) (p : Lwp) : Option (WaitResult × System) :=
  let child := fun q => decide ((s.proc q).parent = some p)
  match firstSlot fun q => child q && decide ((s.proc q).state = .zombie) with
  | some q => (s.deleteThread q).map fun s' => (.reaped q (s.proc q).pid, s'.setCall p .none)
  | none =>
    if (firstSlot child).isNone ∨ (s.proc p).killed then some (.failed, s.setCall p .none)
    else
      let s := s.wakeup1 ((s.proc p).parent.map .proc)
      some (.asleep, (s.sleep p (.proc p)).setCall p .wait)

/-- One pass of the loop of `thread_join`. -/
def joinPass (s : System) (p : Lwp) (thread : Nat) : Option (JoinResult × System) :=
  let lwp := fun q => decide ((s.proc q).pid = (s.proc p).pid ∧ (s.proc q).tid = thread)
  match firstSlot fun q => lwp q && decide ((s.proc q).state = .zombie) with
  | some q =>
    (s.deleteThread q).map fun s' => (.collected q (s.proc q).retVal, s'.setCall p .none)
  | none =>
    if (firstSlot lwp).isNone ∨ (s.proc p).killed then some (.failed, s.setCall p .none)
    else
      match (s.proc p).master with
      | none => none
      | some master => some (.asleep, (s.sleep p (.proc master)).setCall p (.threadJoin thread))

/-- `thread_join` with its first pass. -/
def threadJoin (s : System) (p : Lwp) (thread : Nat) : Option (JoinResult × System) :=
  if (s.proc p).tid ≠ 1 then some (.failed, s) else s.joinPass p thread

/-! ## `exec` and `kill` -/

/-- The loop of `exec_delete_thread`: the other LWPs of the group are killed. -/
def killOthers (s : System) (p : Lwp) : System :=
  let kill := fun q (r : Proc) => if r.master = (s.proc p).master ∧ q ≠ p then
      { r with killed := true, state := if r.state = .sleeping then .runnable else r.state }
    else r
  { s with proc := fun q => kill q (s.proc q) }

/-- The LWP becomes the master of a group of its own. -/
def leaveGroup (s : System) (p : Lwp) : System :=
  { s with nextpid := s.nextpid + 1 }.setProc p { s.proc p with
    schedstate := .used, pmlfqNode := none, pstride := none,
    pid := s.nextpid, tid := 1, parent := some s.initproc, master := some p }

/-- `exec_delete_thread`. -/
def execDeleteThread (s : System) (p : Lwp) : System :=
  let s := (s.killOthers p).leaveGroup p
  s.pushMlfq (s.proc p).pid 0

/-- `exec` up to loading the program. -/
def exec (s : System) (p : Lwp) : System :=
  if (s.proc p).tid ≠ 1 then (s.execDeleteThread p).setCall p (.exec false)
  else s.setCall p (.exec true)

/-- `exec` from the commit on. The new directory was not allocated before `exec`. -/
def execCommit (s : System) (p : Lwp) (isMaster : Bool) (pgdir sz : Nat) : Option System :=
  if s.dirs pgdir then none
  else
    let oldpgdir := (s.proc p).pgdir
    let s := { s with dirs := Function.update s.dirs pgdir true }.setProc p
      { s.proc p with pgdir := some pgdir, sz }
    match isMaster, oldpgdir with
    | false, _ => some (s.setCall p .none)
    | true, none => none
    | true, some oldpgdir => some ((s.freevm p oldpgdir).setCall p .none)

/-- `kill`: the first slot with this `pid` is killed and, if it sleeps, made runnable. -/
def kill (s : System) (pid : Nat) : System :=
  match firstSlot fun q => (s.proc q).pid == pid with
  | none => s
  | some q => s.setProc q { s.proc q with
      killed := true, state := if (s.proc q).state = .sleeping then .runnable else (s.proc q).state }

/-! ## Steps -/

/-- The LWP gets a processor; one that slept tidies up `chan`. -/
def start (s : System) (p : Lwp) : System :=
  s.setProc p { s.proc p with state := .running, chan := none }

/-- What a pass leaves of the state. -/
def afterPass {ρ : Type} (pass : Option (ρ × System)) : Option System := pass.map Prod.snd

/-- The next pass of the loop that the LWP is in. -/
def resume (s : System) (p : Lwp) : Option System :=
  match s.call p with
  | .exit => s.exitPass p
  | .wait => afterPass (s.waitPass p)
  | .threadJoin thread => afterPass (s.joinPass p thread)
  | _ => none

/-- `yield_thread`. -/
def yieldThread (s : System) (p : Lwp) : Option System :=
  let s := s.setProc p { s.proc p with state := .runnable }
  match s.pickLwp (s.proc p).pid with
  | some (some next, s) => some (s.start next)
  | _ => none

/-- One pass of the loop of `scheduler`. -/
def dispatch (s : System) : Option System :=
  match s.pickStride with
  | some (some p, s) => some (s.start p)
  | _ => none

/-- A step of a running LWP inside a given system call. -/
def inside (s : System) (p : Lwp) (call : Call) (next : Option System) : Option System :=
  if (s.proc p).state = .running ∧ s.call p = call then next else none

/-- One step. -/
def step (s : System) : Event → Option System
  | .fork p kalloc => s.inside p .none (some (s.fork p kalloc))
  | .forkCopy p result =>
    match s.call p with
    | .fork np => s.inside p (.fork np) (s.forkCopy p np result)
    | _ => none
  | .threadChoose p => s.inside p .none (some (s.setCall p (.threadCreate (s.nextTid p))))
  | .threadCreate p outcome =>
    match s.call p with
    | .threadCreate tid => s.inside p (.threadCreate tid) (s.threadCreate p tid outcome)
    | _ => none
  | .threadExit p retval => s.inside p .none (some (s.threadExit p retval))
  | .threadJoin p thread => s.inside p .none (afterPass (s.threadJoin p thread))
  | .wait p => s.inside p .none (afterPass (s.waitPass p))
  | .exit p => s.inside p .none (s.exit p)
  | .resume p => s.inside p (s.call p) (s.resume p)
  | .exec p => s.inside p .none (some (s.exec p))
  | .execFail p begun =>
    match s.call p with
    | .exec isMaster =>
      s.inside p (.exec isMaster) ((s.discard p begun).map fun s => s.setCall p .none)
    | _ => none
  | .execCommit p pgdir sz =>
    match s.call p with
    | .exec isMaster => s.inside p (.exec isMaster) (s.execCommit p isMaster pgdir sz)
    | _ => none
  | .kill p pid => s.inside p .none (some (s.kill pid))
  | .shareCheck p inquire =>
    s.inside p .none (match s.shareCheck p inquire, s.findMaster (s.proc p).pid with
      | none, _ => some s
      | some _, none => none
      | some minPass, some master => some (s.setCall p (.setCpuShare master inquire minPass)))
  | .shareUpdate p =>
    match s.call p with
    | .setCpuShare master inquire minPass =>
      s.inside p (.setCpuShare master inquire minPass)
        ((s.shareUpdate master inquire minPass).map fun s => s.setCall p .none)
    | _ => none
  | .growproc p sz =>
    s.inside p .none ((s.proc p).master.map fun master =>
      s.setProc master { s.proc master with sz })
  | .sleep p chan =>
    match s.call p with
    | .exec isMaster => s.inside p (.exec isMaster) (some (s.sleep p (.other chan)))
    | _ => s.inside p .none (some (s.sleep p (.other chan)))
  | .wakeup chan => some (s.wakeup1 (some (.other chan)))
  | .tick p => s.inside p (s.call p) ((s.addTick p).map Prod.snd)
  | .yield p => s.inside p (s.call p) (some (s.setProc p { s.proc p with state := .runnable }))
  | .yieldThread p => s.inside p (s.call p) (s.yieldThread p)
  | .run p => if (s.proc p).state = .runnable then some (s.start p) else none
  | .dispatch => s.dispatch

/-! ## The first process -/

/-- A slot of the zeroed process table. -/
def zeroProc : Proc :=
  ⟨0, none, false, .unused, 0, none, none, false, .used, none, none, 0, 0, none, 0, 0, []⟩

/-- The tables as `userinit` sets them up, with no process yet. -/
def emptyTables : System where
  proc _ := zeroProc
  sTable _ := ⟨0, 0, 0, 0, false, .empty⟩
  mTable prior := ⟨fun _ => ⟨.empty, 0, 0, prior⟩, 0, 0⟩
  nextpid := 1
  initproc := 0
  schedticks := 0
  dirs _ := false
  freed := []
  call _ := .none

/-- `userinit`, with the directory that `setupkvm` returns. -/
def userinit (pgdir : Nat) : System :=
  let s := (emptyTables.allocproc true).2
  let first := { s.sTable 0 with isMLFQ := true, state := .used, tickets := 100, stride := stride1.tdiv 100 }
  let s := { s with sTable := Function.update s.sTable 0 first, dirs := Function.update s.dirs pgdir true }
  s.setProc 0 { s.proc 0 with pgdir := some pgdir, sz := PGSIZE, state := .runnable }

end System

end Xv6
