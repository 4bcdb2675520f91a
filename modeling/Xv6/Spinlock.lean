import Xv6.Proc
import Mathlib.Logic.Function.Basic

/-!
# Processors, spin locks and interrupts

`spinlock.c`, `sched`, `sched_thread`, `scheduler` and `forkret` with the interrupt flag, `ncli` and
`intena` of every processor, one access to a lock at a time, on any number of processors. The
trap frames on a kernel stack are the interrupt flags they save.
-/

namespace Xv6

/-- A spin lock by its name. -/
inductive LockName (ℓ : Type) where
  /-- `ptable.lock`. -/
  | ptable
  /-- Any other. -/
  | other (lk : ℓ)
  deriving DecidableEq

/-- `struct spinlock`. -/
structure Spinlock (γ : Type) where
  locked : Bool
  /-- `cpu`: the cpu holding the lock. -/
  cpu : Option γ

/-- The interrupt flag of a processor and what `struct cpu` says of it. -/
structure InterruptState where
  /-- `FL_IF` in `eflags`. -/
  interruptible : Bool
  /-- `ncli`: depth of `pushcli` nesting. -/
  ncli : Int
  /-- `intena`: were interrupts enabled before `pushcli`? -/
  intena : Bool

/-- Where a processor is in `acquire` or `release`. -/
inductive LockingPlace (ℓ : Type) where
  /-- In neither. -/
  | outside
  /-- In `acquire`, at the loop around `xchg`. -/
  | spinning (lk : LockName ℓ)
  /-- In `acquire`, after the loop. -/
  | recording (lk : LockName ℓ)
  /-- In `release`, after `lk->cpu = 0`. -/
  | releasing (lk : LockName ℓ)
  deriving DecidableEq

/-- Where an LWP that does not run continues. -/
inductive SavedContext where
  /-- At `forkret`. -/
  | forkret
  /-- After `swtch` in `sched` or `sched_thread`, with the local `intena`. -/
  | switched (intena : Bool)
  deriving DecidableEq

/-- The processors, the locks and the kernel stacks. -/
structure Processors (γ ℓ π : Type) where
  /-- Interrupts on each processor. -/
  cpu : γ → InterruptState
  /-- `proc` of each processor: whose kernel stack it uses, that of its scheduler where there is none. -/
  proc : γ → Option π
  /-- Where each processor is. -/
  place : γ → LockingPlace ℓ
  /-- Each lock. -/
  lock : LockName ℓ → Spinlock γ
  /-- `context` of each LWP. -/
  context : π → SavedContext
  /-- `state` of each LWP. -/
  state : π → RunState
  /-- The trap frames on the kernel stack of each LWP, the last one first; none in user space. -/
  frames : π → List Bool
  /-- The trap frames on the stack of each scheduler. -/
  idleFrames : γ → List Bool

namespace Processors

variable {γ ℓ π : Type} [DecidableEq γ] [DecidableEq ℓ] [DecidableEq π]

/-- Replace the interrupt state of a processor. -/
def setCpu (m : Processors γ ℓ π) (c : γ) (cpu : InterruptState) : Processors γ ℓ π :=
  { m with cpu := Function.update m.cpu c cpu }

/-- Replace the place of a processor. -/
def setPlace (m : Processors γ ℓ π) (c : γ) (place : LockingPlace ℓ) : Processors γ ℓ π :=
  { m with place := Function.update m.place c place }

/-- Replace a lock. -/
def setLock (m : Processors γ ℓ π) (lk : LockName ℓ) (lock : Spinlock γ) : Processors γ ℓ π :=
  { m with lock := Function.update m.lock lk lock }

/-- Replace the state of an LWP. -/
def setState (m : Processors γ ℓ π) (p : π) (state : RunState) : Processors γ ℓ π :=
  { m with state := Function.update m.state p state }

/-! ## `spinlock.c` -/

/-- `pushcli`. -/
def pushcli (m : Processors γ ℓ π) (c : γ) : Processors γ ℓ π :=
  let eflags := (m.cpu c).interruptible
  let intena := if (m.cpu c).ncli = 0 then eflags else (m.cpu c).intena
  m.setCpu c ⟨false, (m.cpu c).ncli + 1, intena⟩

/-- `popcli`. -/
def popcli (m : Processors γ ℓ π) (c : γ) : Except String (Processors γ ℓ π) :=
  if (m.cpu c).interruptible then .error "popcli - interruptible"
  else
    let ncli := (m.cpu c).ncli - 1
    if ncli < 0 then .error "popcli"
    else .ok (m.setCpu c ⟨ncli == 0 && (m.cpu c).intena, ncli, (m.cpu c).intena⟩)

/-- `holding`. -/
def holding (m : Processors γ ℓ π) (c : γ) (lk : LockName ℓ) : Except String (Bool × Processors γ ℓ π) := do
  let m := m.pushcli c
  let r := (m.lock lk).locked && (m.lock lk).cpu == some c
  let m ← m.popcli c
  pure (r, m)

/-- `acquire` up to the loop. -/
def acquire (m : Processors γ ℓ π) (c : γ) (lk : LockName ℓ) : Except String (Processors γ ℓ π) := do
  let (held, m) ← (m.pushcli c).holding c lk
  if held then .error "acquire" else pure (m.setPlace c (.spinning lk))

/-- One `xchg(&lk->locked, 1)` in the loop of `acquire`. -/
def xchg (m : Processors γ ℓ π) (c : γ) (lk : LockName ℓ) : Processors γ ℓ π :=
  let m' := m.setLock lk { m.lock lk with locked := true }
  if (m.lock lk).locked then m' else m'.setPlace c (.recording lk)

/-- The end of `acquire`. -/
def record (m : Processors γ ℓ π) (c : γ) (lk : LockName ℓ) : Processors γ ℓ π :=
  (m.setLock lk { m.lock lk with cpu := some c }).setPlace c .outside

/-- `release` up to `lk->cpu = 0`. -/
def release (m : Processors γ ℓ π) (c : γ) (lk : LockName ℓ) : Except String (Processors γ ℓ π) := do
  let (held, m) ← m.holding c lk
  if held then pure ((m.setLock lk { m.lock lk with cpu := none }).setPlace c (.releasing lk))
  else .error "release"

/-- The end of `release`. -/
def unlock (m : Processors γ ℓ π) (c : γ) (lk : LockName ℓ) : Except String (Processors γ ℓ π) :=
  ((m.setLock lk { m.lock lk with locked := false }).setPlace c .outside).popcli c

/-! ## Switches -/

/-- The other side of `swtch`, on the kernel stack of an LWP. -/
def resume (m : Processors γ ℓ π) (c : γ) (p : π) : Processors γ ℓ π :=
  match m.context p with
  | .forkret => m
  | .switched intena => m.setCpu c { m.cpu c with intena }

/-- The checks of `sched` and `sched_thread`. -/
def mayLeave (m : Processors γ ℓ π) (c : γ) (p : π) (name : String) : Except String (Processors γ ℓ π) := do
  let (held, m) ← m.holding c .ptable
  if held = false then .error (name ++ " ptable.lock")
  else if (m.cpu c).ncli ≠ 1 then .error (name ++ " locks")
  else if m.state p = .running then .error (name ++ " running")
  else if (m.cpu c).interruptible then .error (name ++ " interruptible")
  else pure m

/-- `sched`, up to the scheduler. -/
def sched (m : Processors γ ℓ π) (c : γ) : Except String (Processors γ ℓ π) :=
  match m.proc c with
  | none => .error "no process"
  | some p => do
    let m ← m.mayLeave c p "sched"
    pure { m with
      context := Function.update m.context p (.switched (m.cpu c).intena)
      proc := Function.update m.proc c none }

/-- `sched_thread`, up to the next LWP, which `pick_lwp` returns. -/
def schedThread (m : Processors γ ℓ π) (c : γ) (next : π) : Except String (Processors γ ℓ π) :=
  match m.proc c with
  | none => .error "no process"
  | some p => do
    let m ← m.mayLeave c p "sched_thread"
    let intena := (m.cpu c).intena
    let m := { m.setState next .running with proc := Function.update m.proc c (some next) }
    if next = p then pure (m.setCpu c { m.cpu c with intena })
    else pure ({ m with context := Function.update m.context p (.switched intena) }.resume c next)

/-- The scheduler starts an LWP that `pick_stride` returns. -/
def start (m : Processors γ ℓ π) (c : γ) (p : π) : Processors γ ℓ π :=
  { m.setState p .running with proc := Function.update m.proc c (some p) }.resume c p

/-! ## Traps -/

/-- The trap frames on the stack in use. -/
def stack (m : Processors γ ℓ π) (c : γ) : List Bool :=
  match m.proc c with
  | some p => m.frames p
  | none => m.idleFrames c

/-- Replace the trap frames on the stack in use. -/
def setStack (m : Processors γ ℓ π) (c : γ) (frames : List Bool) : Processors γ ℓ π :=
  match m.proc c with
  | some p => { m with frames := Function.update m.frames p frames }
  | none => { m with idleFrames := Function.update m.idleFrames c frames }

/-- A trap; an interrupt gate turns interrupts off. -/
def trap (m : Processors γ ℓ π) (c : γ) (interruptGate : Bool) : Processors γ ℓ π :=
  let eflags := (m.cpu c).interruptible
  (m.setStack c (eflags :: m.stack c)).setCpu c
    { m.cpu c with interruptible := eflags && !interruptGate }

/-- `iret`. -/
def iret (m : Processors γ ℓ π) (c : γ) : Except String (Processors γ ℓ π) :=
  match m.stack c with
  | [] => .error "no trap frame"
  | eflags :: rest => .ok ((m.setStack c rest).setCpu c { m.cpu c with interruptible := eflags })

end Processors

/-- What a processor does next. -/
inductive KernelAction (ℓ π : Type) where
  /-- Calls `pushcli`. -/
  | pushcli
  /-- Calls `popcli`. -/
  | popcli
  /-- Calls `acquire`. -/
  | acquire (lk : LockName ℓ)
  /-- Tries `xchg` in `acquire`. -/
  | xchg (lk : LockName ℓ)
  /-- Ends `acquire`. -/
  | record (lk : LockName ℓ)
  /-- Calls `release`. -/
  | release (lk : LockName ℓ)
  /-- Ends `release`. -/
  | unlock (lk : LockName ℓ)
  /-- Sets the state of its own LWP before `sched` or `sched_thread`. -/
  | become (state : RunState)
  /-- Wakes an LWP up. -/
  | rouse (p : π)
  /-- Takes an `UNUSED` slot, as `allocproc` does, for a new LWP at `forkret`. -/
  | allocproc (p : π)
  /-- Makes a new LWP `RUNNABLE`. -/
  | ready (p : π)
  /-- Gives a new LWP up. -/
  | discard (p : π)
  /-- Frees the slot and the kernel stack of a zombie. -/
  | reap (p : π)
  /-- Calls `sched`. -/
  | sched
  /-- Calls `sched_thread`. -/
  | schedThread (next : π)
  /-- Switches from the scheduler to an LWP. -/
  | start (p : π)
  /-- Turns interrupts on at the head of the scheduler's loop. -/
  | sti
  /-- Takes an interrupt, or a trap from user space. -/
  | trap (interruptGate : Bool)
  /-- Returns from a trap. -/
  | iret
  deriving DecidableEq

/-- The processors with what the code on them has called. -/
structure Multiprocessor (γ ℓ π : Type) where
  /-- The processors. -/
  machine : Processors γ ℓ π
  /-- The locks the code on each processor has acquired and not released. -/
  held : γ → List (LockName ℓ)
  /-- How often the code on each processor has called `pushcli` and not yet `popcli`. -/
  pushed : γ → Nat
  /-- The interrupt flag each LWP had at its outermost `pushcli`; none before its first one. -/
  entered : π → Option Bool

namespace Multiprocessor

variable {γ ℓ π : Type} [DecidableEq γ] [DecidableEq ℓ] [DecidableEq π]

/-- What an LWP notes at a `pushcli`. -/
def entering (k : Multiprocessor γ ℓ π) (c : γ) : π → Option Bool :=
  match k.machine.proc c with
  | some p =>
    if (k.machine.cpu c).ncli = 0 then
      Function.update k.entered p (some (k.machine.cpu c).interruptible)
    else k.entered
  | none => k.entered

/-- Keep what the code has called, with other processors. -/
def onMachine (k : Multiprocessor γ ℓ π) (m : Processors γ ℓ π) : Multiprocessor γ ℓ π := { k with machine := m }

/-- An action, or the panic that stops it. -/
def act (k : Multiprocessor γ ℓ π) (c : γ) : KernelAction ℓ π → Except String (Multiprocessor γ ℓ π)
  | .pushcli => .ok { k with
      machine := k.machine.pushcli c
      pushed := Function.update k.pushed c (k.pushed c + 1)
      entered := k.entering c }
  | .popcli => do
    let m ← k.machine.popcli c
    pure { k with machine := m, pushed := Function.update k.pushed c (k.pushed c - 1) }
  | .acquire lk => do
    let m ← k.machine.acquire c lk
    pure { k with machine := m, entered := k.entering c }
  | .xchg lk => .ok (k.onMachine (k.machine.xchg c lk))
  | .record lk => .ok { k with
      machine := k.machine.record c lk
      held := Function.update k.held c (lk :: k.held c) }
  | .release lk => do
    let m ← k.machine.release c lk
    pure { k with machine := m, held := Function.update k.held c ((k.held c).erase lk) }
  | .unlock lk => do
    let m ← k.machine.unlock c lk
    pure (k.onMachine m)
  | .become state =>
    match k.machine.proc c with
    | none => .error "no process"
    | some p => .ok (k.onMachine (k.machine.setState p state))
  | .rouse p => .ok (k.onMachine (k.machine.setState p .runnable))
  | .allocproc p => .ok { k with
      machine := { k.machine.setState p .embryo with
        context := Function.update k.machine.context p .forkret
        frames := Function.update k.machine.frames p [true] }
      entered := Function.update k.entered p none }
  | .ready p => .ok (k.onMachine (k.machine.setState p .runnable))
  | .discard p => .ok (k.onMachine (k.machine.setState p .unused))
  | .reap p => .ok (k.onMachine (k.machine.setState p .unused))
  | .sched => do
    let m ← k.machine.sched c
    pure (k.onMachine m)
  | .schedThread next => do
    let m ← k.machine.schedThread c next
    pure (k.onMachine m)
  | .start p => .ok (k.onMachine (k.machine.start c p))
  | .sti => .ok (k.onMachine (k.machine.setCpu c { k.machine.cpu c with interruptible := true }))
  | .trap interruptGate => .ok (k.onMachine (k.machine.trap c interruptGate))
  | .iret => do
    let m ← k.machine.iret c
    pure (k.onMachine m)

/-- The processor is in kernel code, outside `acquire` and `release`. -/
def InKernel (k : Multiprocessor γ ℓ π) (c : γ) : Prop :=
  k.machine.place c = .outside ∧ ∀ p, k.machine.proc c = some p → k.machine.frames p ≠ []

/-- The LWP on the processor, if there is one, has not set its state to leave. -/
def Staying (k : Multiprocessor γ ℓ π) (c : γ) : Prop :=
  ∀ p, k.machine.proc c = some p → k.machine.state p = .running

/-- What the code on a processor keeps to: it releases what it holds, does not acquire what it
holds, changes the state of an LWP with `ptable.lock` held, and calls `sched` with this lock only. -/
def Allowed (k : Multiprocessor γ ℓ π) (c : γ) : KernelAction ℓ π → Prop
  | .pushcli => k.InKernel c ∧ k.Staying c
  | .popcli => k.InKernel c ∧ k.Staying c ∧ 0 < k.pushed c
  | .acquire lk => k.InKernel c ∧ k.Staying c ∧ lk ∉ k.held c
  | .xchg lk => k.machine.place c = .spinning lk
  | .record lk => k.machine.place c = .recording lk
  | .release lk => k.InKernel c ∧ k.Staying c ∧ lk ∈ k.held c
  | .unlock lk => k.machine.place c = .releasing lk
  | .become state => k.InKernel c ∧ k.Staying c ∧ .ptable ∈ k.held c ∧
      (state = .runnable ∨ state = .sleeping ∨ state = .zombie) ∧ ∃ p, k.machine.proc c = some p
  | .rouse p => k.InKernel c ∧ .ptable ∈ k.held c ∧ k.machine.state p = .sleeping
  | .allocproc p => k.InKernel c ∧ k.Staying c ∧ .ptable ∈ k.held c ∧ k.machine.state p = .unused
  | .ready p => k.InKernel c ∧ .ptable ∈ k.held c ∧ k.machine.state p = .embryo
  | .discard p => k.InKernel c ∧ k.machine.state p = .embryo
  | .reap p => k.InKernel c ∧ k.Staying c ∧ .ptable ∈ k.held c ∧ k.machine.state p = .zombie
  | .sched => k.InKernel c ∧ k.held c = [.ptable] ∧ k.pushed c = 0 ∧
      ∃ p, k.machine.proc c = some p ∧ k.machine.state p ≠ .running
  | .schedThread next => k.InKernel c ∧ k.held c = [.ptable] ∧ k.pushed c = 0 ∧ k.machine.state next = .runnable ∧
      ∃ p, k.machine.proc c = some p ∧ k.machine.state p ≠ .running
  | .start p => k.InKernel c ∧ k.held c = [.ptable] ∧ k.pushed c = 0 ∧ k.machine.proc c = none ∧
      k.machine.idleFrames c = [] ∧ k.machine.state p = .runnable
  | .sti => k.InKernel c ∧ k.machine.proc c = none ∧ k.machine.idleFrames c = [] ∧ k.held c = [] ∧ k.pushed c = 0
  | .trap interruptGate => (k.machine.cpu c).interruptible = true ∧
      (interruptGate = false → ∃ p, k.machine.proc c = some p ∧ k.machine.frames p = [])
  | .iret => k.InKernel c ∧ k.Staying c ∧ k.held c = [] ∧ k.pushed c = 0 ∧ k.machine.stack c ≠ []

/-- One action of one processor. -/
def Step (k : Multiprocessor γ ℓ π) (event : γ × KernelAction ℓ π) (k' : Multiprocessor γ ℓ π) : Prop :=
  k.Allowed event.1 event.2 ∧ k.act event.1 event.2 = .ok k'

/-- When the processors start: one LWP is `RUNNABLE` and interrupts are off. -/
def boot (init : π) : Multiprocessor γ ℓ π where
  machine :=
    { cpu := fun _ => ⟨false, 0, false⟩
      proc := fun _ => none
      place := fun _ => .outside
      lock := fun _ => ⟨false, none⟩
      context := fun _ => .forkret
      state := fun p => if p = init then .runnable else .unused
      frames := fun _ => [true]
      idleFrames := fun _ => [] }
  held _ := []
  pushed _ := 0
  entered _ := none

end Multiprocessor

end Xv6
