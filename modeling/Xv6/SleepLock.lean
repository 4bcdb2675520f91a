import Mathlib.Logic.Function.Basic

/-!
# Sleep-locks

`acquiresleep`, `releasesleep` and `holdingsleep` of `sleeplock.c` on one sleep-lock, one access
at a time, for any number of LWPs. The LWPs of a group have the same `pid`: `thread_create` gives
it to the LWPs that it starts. `sleep` lets go of the spin lock and goes to sleep at once, and
takes the spin lock again before it returns. An LWP's `pid` changes only outside of the lock: `exec`,
`fork`, `thread_create` and the reaping of an LWP set it.
-/

namespace Xv6

namespace SleepLock

/-- The access to the lock that an LWP does next. -/
inductive Stage where
  /-- None: it is in none of the three functions. -/
  | elsewhere
  /-- `acquiresleep`: `acquire(&lk->lk)`. -/
  | acquiring
  /-- `acquiresleep`: the test of `lk->locked`. -/
  | testing
  /-- `acquiresleep`: asleep in `sleep(lk, &lk->lk)`. -/
  | asleep
  /-- `acquiresleep`: woken in `sleep`, before it reacquires `lk->lk`. -/
  | woken
  /-- `acquiresleep`: `lk->locked = 1`. -/
  | locking
  /-- `acquiresleep`: `lk->pid = myproc()->pid`. -/
  | naming
  /-- `acquiresleep`: `release(&lk->lk)`. -/
  | acquired
  /-- `releasesleep`: `acquire(&lk->lk)`. -/
  | releasing
  /-- `releasesleep`: `lk->locked = 0`. -/
  | unlocking
  /-- `releasesleep`: `lk->pid = 0`. -/
  | unnaming
  /-- `releasesleep`: `wakeup(lk)`. -/
  | rousing
  /-- `releasesleep`: `release(&lk->lk)`. -/
  | released
  /-- `holdingsleep`: `acquire(&lk->lk)`. -/
  | asking
  /-- `holdingsleep`: `r = lk->locked && (lk->pid == myproc()->pid)`. -/
  | reading
  /-- `holdingsleep`: `release(&lk->lk)`, before it returns `r`. -/
  | answering (r : Bool)
  deriving DecidableEq

/-- A sleep-lock and the LWPs that use it. -/
structure State (π : Type) where
  /-- `lk->locked`. -/
  locked : Nat
  /-- `lk->pid`. -/
  pid : Nat
  /-- Who holds the spin lock `lk->lk`. -/
  lk : Option π
  /-- `pid` of each LWP. -/
  pidOf : π → Nat
  /-- Where each LWP is. -/
  stage : π → Stage
  /-- Whether an LWP is in between: its `acquiresleep` has returned and its `releasesleep` has not
  cleared `locked`. -/
  between : π → Bool

/-- What may happen next. -/
inductive Event (π : Type) where
  /-- An LWP calls `acquiresleep`. -/
  | acquiresleep (p : π)
  /-- An LWP calls `releasesleep`. -/
  | releasesleep (p : π)
  /-- An LWP calls `holdingsleep`. -/
  | holdingsleep (p : π)
  /-- An LWP does its next access. -/
  | go (p : π)
  /-- An LWP that sleeps is made runnable without a `wakeup`, as `kill` and `exec` do. -/
  | rouse (p : π)
  /-- The `pid` of an LWP is set. -/
  | setPid (p : π) (pid : Nat)

variable {π : Type} [DecidableEq π]

namespace State

/-- An LWP goes on elsewhere. -/
def goto (s : State π) (p : π) (stage : Stage) : State π :=
  { s with stage := Function.update s.stage p stage }

/-- `acquire(&lk->lk)` once it is free, before `stage`. -/
def acquire (s : State π) (p : π) (stage : Stage) : Option (State π) :=
  if s.lk = none then some ({ s with lk := some p }.goto p stage) else none

/-- `release(&lk->lk)`, before `stage`. -/
def release (s : State π) (p : π) (stage : Stage) : State π := { s with lk := none }.goto p stage

/-- `wakeup(lk)`. -/
def wakeup (s : State π) : State π :=
  { s with stage := fun p => if s.stage p = .asleep then .woken else s.stage p }

/-- The next access of an LWP. -/
def go (s : State π) (p : π) : Option (State π) :=
  match s.stage p with
  | .elsewhere => none
  | .acquiring => s.acquire p .testing
  | .testing => if s.locked ≠ 0 then some (s.release p .asleep) else some (s.goto p .locking)
  | .asleep => none
  | .woken => s.acquire p .testing
  | .locking => some ({ s with locked := 1 }.goto p .naming)
  | .naming => some ({ s with pid := s.pidOf p }.goto p .acquired)
  | .acquired =>
    some ({ s with between := Function.update s.between p true }.release p .elsewhere)
  | .releasing => s.acquire p .unlocking
  | .unlocking =>
    some ({ s with locked := 0, between := Function.update s.between p false }.goto p .unnaming)
  | .unnaming => some ({ s with pid := 0 }.goto p .rousing)
  | .rousing => some (s.wakeup.goto p .released)
  | .released => some (s.release p .elsewhere)
  | .asking => s.acquire p .reading
  | .reading =>
    some (s.goto p (.answering (decide (s.locked ≠ 0) && decide (s.pid = s.pidOf p))))
  | .answering _ => some (s.release p .elsewhere)

/-- One step. An LWP calls a function when it is in none, and `releasesleep` only in between. -/
def next (s : State π) : Event π → Option (State π)
  | .acquiresleep p => if s.stage p = .elsewhere then some (s.goto p .acquiring) else none
  | .releasesleep p =>
    if s.stage p = .elsewhere ∧ s.between p = true then some (s.goto p .releasing) else none
  | .holdingsleep p => if s.stage p = .elsewhere then some (s.goto p .asking) else none
  | .go p => s.go p
  | .rouse p => if s.stage p = .asleep then some (s.goto p .woken) else none
  | .setPid p pid =>
    if s.stage p = .elsewhere ∧ s.between p = false then
      some { s with pidOf := Function.update s.pidOf p pid }
    else none

/-- `initsleeplock`, with any LWPs. -/
def start (pidOf : π → Nat) : State π where
  locked := 0
  pid := 0
  lk := none
  pidOf := pidOf
  stage := fun _ => .elsewhere
  between := fun _ => false

end State

end SleepLock

end Xv6
