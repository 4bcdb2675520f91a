import Xv6.Proc

/-!
# Spin locks, sleep and wakeup

`acquire`, `release`, `sleep`, `wakeup` and `sched` one lock step at a time, for any number of
processes, channels and locks, with a processor for each process. An interrupt handler counts as
a process that never sleeps. The scheduler takes `ptable.lock` over from the process that calls
`sched` and hands it to the one it switches to. A panic is a step that does not exist.
-/

namespace Xv6

/-- Who holds a spin lock. -/
inductive LockOwner (π : Type) where
  /-- A process, on its processor. -/
  | process (p : π)
  /-- The scheduler of a processor. -/
  | scheduler
  deriving DecidableEq

/-- Where a process is. -/
inductive SleepPlace (κ ℓ : Type) where
  /-- In its own code. -/
  | running
  /-- In `sleep`, about to acquire `ptable.lock`. -/
  | entered (chan : κ) (lk : ℓ)
  /-- In `sleep` with both locks, about to release `lk`. -/
  | locked (chan : κ) (lk : ℓ)
  /-- In `sleep` with `ptable.lock`, about to go to sleep. -/
  | falling (chan : κ) (lk : ℓ)
  /-- In the `sched` of `sleep`. -/
  | asleep (chan : κ) (lk : ℓ)
  /-- Back from `sched` without locks, about to reacquire `lk`. -/
  | relocking (lk : ℓ)
  /-- At the end of `sleep`. -/
  | awake (lk : ℓ)
  /-- In `wakeup`, about to acquire `ptable.lock`. -/
  | waking (chan : κ)
  /-- In `wakeup` with `ptable.lock`, before `wakeup1`. -/
  | scanning (chan : κ)
  /-- In `wakeup` with `ptable.lock`, after `wakeup1`. -/
  | scanned (chan : κ)
  /-- In `yield` with `ptable.lock`, from a timer interrupt. -/
  | yielding (back : SleepPlace κ ℓ)
  /-- In the `sched` of `yield`, or not run since its creation. -/
  | yielded (back : SleepPlace κ ℓ)
  /-- In the `sched` of `exit`. -/
  | exited

/-- The locks and the process table. -/
structure LockState (π κ ℓ : Type) where
  /-- `locked` and `cpu` of each lock. -/
  owner : ℓ → Option (LockOwner π)
  /-- `ncli` of the processor of each process. -/
  ncli : π → Nat
  state : π → RunState
  /-- `chan`, absent where it is 0. -/
  chan : π → Option κ
  /-- Where each process is. -/
  place : π → SleepPlace κ ℓ

/-- What may happen next. -/
inductive LockEvent (π κ ℓ : Type) where
  /-- A process calls `acquire` in its own code. -/
  | acquire (p : π) (l : ℓ)
  /-- A process calls `release` in its own code. -/
  | release (p : π) (l : ℓ)
  /-- A process calls `sleep(chan, lk)`, holding `lk`. -/
  | sleep (p : π) (chan : κ) (lk : ℓ)
  /-- A process calls `wakeup(chan)`. -/
  | wakeup (p : π) (chan : κ)
  /-- A process that holds `ptable.lock` calls `wakeup1(chan)`. -/
  | wakeup1 (p : π) (chan : κ)
  /-- A process that holds `ptable.lock` makes a sleeping process runnable, as `kill` does. -/
  | rouse (p q : π)
  /-- A process does the next lock step of the function it is in. -/
  | go (p : π)
  /-- The timer makes a process call `yield`. -/
  | yield (p : π)
  /-- A process that holds `ptable.lock` exits. -/
  | exit (p : π)
  /-- A scheduler acquires `ptable.lock`. -/
  | schedule
  /-- The scheduler that holds `ptable.lock` switches to a runnable process. -/
  | dispatch (p : π)
  /-- The scheduler that holds `ptable.lock` releases it. -/
  | idle

/-- What has happened. -/
inductive LockStep (π κ ℓ : Type) where
  /-- A critical section of a lock begins: its process holds the lock from now on. -/
  | begins (p : π) (l : ℓ)
  /-- A `wakeup(chan)` is complete; `held` are the locks of its caller. -/
  | woke (p : π) (chan : κ) (held : ℓ → Prop)
  /-- `sleep(chan, lk)` returns. -/
  | returned (p : π) (lk : ℓ)
  /-- Something else. -/
  | quiet

namespace LockState

variable {π κ ℓ : Type} [DecidableEq π] [DecidableEq κ] [DecidableEq ℓ]

/-- The locks a process holds. -/
def holds (s : LockState π κ ℓ) (p : π) (l : ℓ) : Prop := s.owner l = some (.process p)

instance (s : LockState π κ ℓ) (p : π) (l : ℓ) : Decidable (s.holds p l) :=
  inferInstanceAs (Decidable (_ = _))

/-- A process goes on elsewhere. -/
def goto (s : LockState π κ ℓ) (p : π) (place : SleepPlace κ ℓ) : LockState π κ ℓ :=
  { s with place := Function.update s.place p place }

/-- `acquire` once the lock is free. A lock that is held makes the caller spin, or panic if it
holds the lock itself. -/
def acquire (s : LockState π κ ℓ) (p : π) (l : ℓ) : Option (LockState π κ ℓ) :=
  if s.owner l = none then
    some { s with
      owner := Function.update s.owner l (some (.process p))
      ncli := Function.update s.ncli p (s.ncli p + 1) }
  else none

/-- `release`; it panics unless the caller holds the lock. -/
def release (s : LockState π κ ℓ) (p : π) (l : ℓ) : Option (LockState π κ ℓ) :=
  if s.holds p l then
    some { s with
      owner := Function.update s.owner l none
      ncli := Function.update s.ncli p (s.ncli p - 1) }
  else none

/-- A process sets its state and calls `sched`, which panics unless `ptable.lock` is the only
lock held. -/
def sched (ptable : ℓ) (s : LockState π κ ℓ) (p : π) (state : RunState) : Option (LockState π κ ℓ) :=
  if s.holds p ptable ∧ s.ncli p = 1 then
    some { s with
      owner := Function.update s.owner ptable (some .scheduler)
      state := Function.update s.state p state }
  else none

/-- `wakeup1(chan)`. -/
def wakeup1 (s : LockState π κ ℓ) (chan : κ) : LockState π κ ℓ :=
  { s with state := fun p =>
      if s.state p = .sleeping ∧ s.chan p = some chan then .runnable else s.state p }

/-- The next lock step of a process, by where it is. -/
def go (ptable : ℓ) (s : LockState π κ ℓ) (p : π) : Option (LockStep π κ ℓ × LockState π κ ℓ) :=
  match s.place p with
  | .running => none
  | .entered chan lk => (s.acquire p ptable).map fun t => (.begins p ptable, t.goto p (.locked chan lk))
  | .locked chan lk => (s.release p lk).map fun t => (.quiet, t.goto p (.falling chan lk))
  | .falling chan lk =>
    (sched ptable { s with chan := Function.update s.chan p (some chan) } p .sleeping).map fun t =>
      (.quiet, t.goto p (.asleep chan lk))
  | .asleep _ lk =>
    let s := { s with chan := Function.update s.chan p none }
    if lk = ptable then some (.quiet, s.goto p (.awake lk))
    else (s.release p ptable).map fun t => (.quiet, t.goto p (.relocking lk))
  | .relocking lk => (s.acquire p lk).map fun t => (.begins p lk, t.goto p (.awake lk))
  | .awake lk => some (.returned p lk, s.goto p .running)
  | .waking chan => (s.acquire p ptable).map fun t => (.begins p ptable, t.goto p (.scanning chan))
  | .scanning chan => some (.quiet, (s.wakeup1 chan).goto p (.scanned chan))
  | .scanned chan => (s.release p ptable).map fun t => (.woke p chan (s.holds p), t.goto p .running)
  | .yielding back => (sched ptable s p .runnable).map fun t => (.quiet, t.goto p (.yielded back))
  | .yielded back => (s.release p ptable).map fun t => (.quiet, t.goto p back)
  | .exited => none

/-- A step of a process that is running. -/
def act (ptable : ℓ) (s : LockState π κ ℓ) : LockEvent π κ ℓ → Option (LockStep π κ ℓ × LockState π κ ℓ)
  | .acquire p l =>
    match s.place p with
    | .running => (s.acquire p l).map fun t => (.begins p l, t)
    | _ => none
  | .release p l =>
    match s.place p with
    | .running => (s.release p l).map fun t => (.quiet, t)
    | _ => none
  | .sleep p chan lk =>
    match s.place p with
    | .running =>
      if s.holds p lk then
        some (.quiet, s.goto p (if lk = ptable then .falling chan lk else .entered chan lk))
      else none
    | _ => none
  | .wakeup p chan =>
    match s.place p with
    | .running => some (.quiet, s.goto p (.waking chan))
    | _ => none
  | .wakeup1 p chan =>
    match s.place p with
    | .running => if s.holds p ptable then some (.woke p chan (s.holds p), s.wakeup1 chan) else none
    | _ => none
  | .rouse p q =>
    match s.place p with
    | .running =>
      if s.holds p ptable ∧ s.state q = .sleeping then
        some (.quiet, { s with state := Function.update s.state q .runnable })
      else none
    | _ => none
  | .go p => go ptable s p
  | .yield p =>
    if s.ncli p = 0 then
      (s.acquire p ptable).map fun t => (.begins p ptable, t.goto p (.yielding (s.place p)))
    else none
  | .exit p =>
    match s.place p with
    | .running => (sched ptable s p .zombie).map fun t => (.quiet, t.goto p .exited)
    | _ => none
  | .schedule => none
  | .dispatch _ => none
  | .idle => none

end LockState

/-- The process that acts, absent for steps of a scheduler. -/
def LockEvent.actor {π κ ℓ : Type} : LockEvent π κ ℓ → Option π
  | .acquire p _ => some p
  | .release p _ => some p
  | .sleep p _ _ => some p
  | .wakeup p _ => some p
  | .wakeup1 p _ => some p
  | .rouse p _ => some p
  | .go p => some p
  | .yield p => some p
  | .exit p => some p
  | .schedule => none
  | .dispatch _ => none
  | .idle => none

namespace LockState

variable {π κ ℓ : Type} [DecidableEq π] [DecidableEq κ] [DecidableEq ℓ]

/-- A step of a scheduler. -/
def plan (ptable : ℓ) (s : LockState π κ ℓ) : LockEvent π κ ℓ → Option (LockStep π κ ℓ × LockState π κ ℓ)
  | .schedule =>
    if s.owner ptable = none then
      some (.quiet, { s with owner := Function.update s.owner ptable (some .scheduler) })
    else none
  | .dispatch p =>
    if s.owner ptable = some .scheduler ∧ s.state p = .runnable then
      some (.begins p ptable,
        { s with
          owner := Function.update s.owner ptable (some (.process p))
          ncli := Function.update s.ncli p 1
          state := Function.update s.state p .running })
    else none
  | .idle =>
    if s.owner ptable = some .scheduler then
      some (.quiet, { s with owner := Function.update s.owner ptable none })
    else none
  | _ => none

/-- One step: of a process that runs, or of a scheduler. -/
def next (ptable : ℓ) (s : LockState π κ ℓ) (event : LockEvent π κ ℓ) :
    Option (LockStep π κ ℓ × LockState π κ ℓ) :=
  match event.actor with
  | some p => if s.state p = .running then act ptable s event else none
  | none => plan ptable s event

/-- Steps with what they did. -/
def Step (ptable : ℓ) (s : LockState π κ ℓ) (step : LockStep π κ ℓ) (t : LockState π κ ℓ) : Prop :=
  ∃ event, next ptable s event = some (step, t)

/-- All locks are free and every process waits for its first turn. -/
def start : LockState π κ ℓ where
  owner := fun _ => none
  ncli := fun _ => 0
  state := fun _ => .runnable
  chan := fun _ => none
  place := fun _ => .yielded .running

/-- The process sleeps on a channel, through `sleep(chan, lk)`. -/
def Sleeps (s : LockState π κ ℓ) (p : π) (chan : κ) (lk : ℓ) : Prop :=
  s.state p = .sleeping ∧ s.place p = .asleep chan lk

end LockState

end Xv6
