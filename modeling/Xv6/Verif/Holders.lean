import Mathlib.Data.Bool.Basic
import Xv6.SleepLock
import Xv6.Lib.Runs

/-!
# Holders of a sleep-lock

At most one LWP has taken a sleep-lock, in every run. The lock knows that LWP by its `pid` alone,
so `holdingsleep` tells it apart from other LWPs exactly as far as their `pid`s differ.
-/

namespace Xv6

namespace SleepLock

/-! ## Invariant -/

/-- The spin lock is held at this stage. -/
def Stage.Critical : Stage → Prop
  | .testing | .locking | .naming | .acquired => True
  | .unlocking | .unnaming | .rousing | .released => True
  | .reading | .answering _ => True
  | _ => False

variable {π : Type}

/-- The LWP has set `locked` and has not cleared it since. -/
def State.Takes (s : State π) (p : π) : Prop :=
  s.between p = true ∨ s.stage p = .naming ∨ s.stage p = .acquired

/-- What holds of a sleep-lock in every run. -/
structure Exclusive (s : State π) : Prop where
  /-- The spin lock is held by the LWP that is at a critical stage. -/
  spin : ∀ p, s.lk = some p ↔ (s.stage p).Critical
  /-- The lock is clear for an LWP about to set `locked` and for one about to clear `pid`. -/
  clear : ∀ p, s.stage p = .locking ∨ s.stage p = .unnaming → s.locked = 0
  /-- The lock is locked while an LWP has taken it. -/
  taken : ∀ p, s.Takes p → s.locked = 1
  /-- One LWP has taken it. -/
  one : ∀ p q, s.Takes p → s.Takes q → p = q
  /-- An LWP has taken it while it is locked. -/
  taker : s.locked ≠ 0 → ∃ p, s.Takes p
  /-- The lock has the `pid` of the LWP that has taken it. -/
  named : ∀ p, s.between p = true ∨ s.stage p = .acquired → s.pid = s.pidOf p
  /-- An LWP in `releasesleep` is in between until it clears `locked`. -/
  leaving : ∀ p, s.stage p = .releasing ∨ s.stage p = .unlocking → s.between p = true
  /-- The result of `holdingsleep`. -/
  answer : ∀ p r, s.stage p = .answering r →
    r = (decide (s.locked ≠ 0) && decide (s.pid = s.pidOf p))

variable {s t : State π} {p q : π}

/-- One LWP is at a critical stage. -/
theorem Exclusive.alone (inv : Exclusive s) (critical : (s.stage p).Critical) (other : q ≠ p) :
    ¬(s.stage q).Critical := by
  intro both
  have first := (inv.spin p).mpr critical
  rw [(inv.spin q).mpr both] at first
  exact other (Option.some.inj first)

/-- While an LWP is at a critical stage the others have set nothing and read nothing. -/
theorem Exclusive.others (inv : Exclusive s) (critical : (s.stage p).Critical) :
    ∀ q, q ≠ p → s.stage q ≠ .locking ∧ s.stage q ≠ .naming ∧ s.stage q ≠ .acquired ∧
      s.stage q ≠ .unlocking ∧ s.stage q ≠ .unnaming ∧ ∀ r, s.stage q ≠ .answering r := by
  intro q other
  have outside := inv.alone critical other
  refine ⟨?_, ?_, ?_, ?_, ?_, ?_⟩
  all_goals
    intros
    intro here
    rw [here] at outside
    exact outside trivial

/-- `wakeup` changes no other stage than those of sleeping LWPs. -/
theorem State.wakeup_stage {stage : Stage} (asleep : stage ≠ .asleep) (woken : stage ≠ .woken) :
    s.wakeup.stage q = stage ↔ s.stage q = stage := by
  by_cases sleeping : s.stage q = .asleep
  · simp [State.wakeup, sleeping, asleep.symm, woken.symm]
  · simp [State.wakeup, sleeping]

/-- `wakeup` wakes every LWP that sleeps. -/
theorem Exclusive.wakeup (inv : Exclusive s) : Exclusive s.wakeup := by
  have takes : ∀ q, s.wakeup.Takes q ↔ s.Takes q := by
    intro q
    rw [State.Takes, State.Takes, State.wakeup_stage (by decide) (by decide),
      State.wakeup_stage (by decide) (by decide)]
    rfl
  constructor
  · intro q
    rw [show s.wakeup.lk = s.lk from rfl, inv.spin q]
    by_cases sleeping : s.stage q = .asleep
    · simp [State.wakeup, sleeping, Stage.Critical]
    · simp [State.wakeup, sleeping]
  · intro q here
    rw [State.wakeup_stage (by decide) (by decide), State.wakeup_stage (by decide) (by decide)]
      at here
    exact inv.clear q here
  · intro q taking
    exact inv.taken q ((takes q).mp taking)
  · intro q q' taking taking'
    exact inv.one q q' ((takes q).mp taking) ((takes q').mp taking')
  · intro locked
    obtain ⟨q, taking⟩ := inv.taker locked
    exact ⟨q, (takes q).mpr taking⟩
  · intro q here
    rw [State.wakeup_stage (by decide) (by decide)] at here
    exact inv.named q here
  · intro q here
    rw [State.wakeup_stage (by decide) (by decide), State.wakeup_stage (by decide) (by decide)]
      at here
    exact inv.leaving q here
  · intro q r here
    rw [State.wakeup_stage (by simp) (by simp)] at here
    exact inv.answer q r here

/-- The invariant holds at the start. -/
theorem Exclusive.start (pidOf : π → Nat) : Exclusive (State.start pidOf) := by
  constructor <;> simp [State.start, State.Takes, Stage.Critical]

variable [DecidableEq π]

/-- A stage at which an LWP knows nothing of the lock and has not changed it. -/
def Stage.Plain : Stage → Prop
  | .locking | .naming | .acquired | .unnaming | .answering _ => False
  | _ => True

/-- An LWP that goes on to a plain stage leaves the lock as it is, whether it takes the spin lock,
lets go of it or does neither. -/
theorem Exclusive.move (inv : Exclusive s) {stage : Stage} {lk : Option π}
    (before : s.stage p ≠ .naming ∧ s.stage p ≠ .acquired) (after : stage.Plain)
    (leaving : stage = .releasing ∨ stage = .unlocking → s.between p = true)
    (own : lk = some p ↔ stage.Critical) (other : ∀ q, q ≠ p → (lk = some q ↔ s.lk = some q)) :
    Exclusive ({ s with lk := lk }.goto p stage) := by
  have takes : ∀ q, ({ s with lk := lk }.goto p stage).Takes q ↔ s.Takes q := by
    intro q
    by_cases same : q = p
    · subst same
      cases stage <;> simp_all [State.Takes, State.goto, Stage.Plain]
    · simp [State.Takes, State.goto, same]
  constructor
  · intro q
    by_cases same : q = p
    · subst same
      simpa [State.goto] using own
    · simpa [State.goto, same] using (other q same).trans (inv.spin q)
  · intro q here
    by_cases same : q = p
    · subst same
      cases stage <;> simp_all [State.goto, Stage.Plain]
    · exact inv.clear q (by simpa [State.goto, same] using here)
  · intro q taking
    exact inv.taken q ((takes q).mp taking)
  · intro q q' taking taking'
    exact inv.one q q' ((takes q).mp taking) ((takes q').mp taking')
  · intro locked
    obtain ⟨q, taking⟩ := inv.taker locked
    exact ⟨q, (takes q).mpr taking⟩
  · intro q here
    by_cases same : q = p
    · subst same
      apply inv.named q
      cases stage <;> simp_all [State.goto, Stage.Plain]
    · exact inv.named q (by simpa [State.goto, same] using here)
  · intro q here
    by_cases same : q = p
    · subst same
      exact leaving (by simpa [State.goto] using here)
    · exact inv.leaving q (by simpa [State.goto, same] using here)
  · intro q r here
    by_cases same : q = p
    · subst same
      cases stage <;> simp_all [State.goto, Stage.Plain]
    · exact inv.answer q r (by simpa [State.goto, same] using here)

/-! ## Steps of the holder of the spin lock -/

/-- `acquiresleep` finds the lock clear. -/
theorem Exclusive.find (inv : Exclusive s) (here : s.stage p = .testing) (free : s.locked = 0) :
    Exclusive (s.goto p .locking) := by
  have others := inv.others (p := p) (by rw [here]; trivial)
  obtain ⟨spin, clear, taken, one, taker, named, leaving, answer⟩ := inv
  constructor
  all_goals simp only [State.goto, State.Takes, Function.update_apply] at *
  all_goals grind [Stage.Critical]

/-- `acquiresleep` sets `locked`. -/
theorem Exclusive.lock (inv : Exclusive s) (here : s.stage p = .locking) :
    Exclusive ({ s with locked := 1 }.goto p .naming) := by
  have others := inv.others (p := p) (by rw [here]; trivial)
  obtain ⟨spin, clear, taken, one, taker, named, leaving, answer⟩ := inv
  constructor
  all_goals simp only [State.goto, State.Takes, Function.update_apply] at *
  all_goals grind [Stage.Critical]

/-- `acquiresleep` sets `pid`. -/
theorem Exclusive.name (inv : Exclusive s) (here : s.stage p = .naming) :
    Exclusive ({ s with pid := s.pidOf p }.goto p .acquired) := by
  have others := inv.others (p := p) (by rw [here]; trivial)
  obtain ⟨spin, clear, taken, one, taker, named, leaving, answer⟩ := inv
  constructor
  all_goals simp only [State.goto, State.Takes, Function.update_apply] at *
  all_goals grind [Stage.Critical]

/-- `acquiresleep` lets go of the spin lock and returns. -/
theorem Exclusive.enter (inv : Exclusive s) (here : s.stage p = .acquired) :
    Exclusive ({ s with between := Function.update s.between p true }.release p .elsewhere) := by
  have others := inv.others (p := p) (by rw [here]; trivial)
  obtain ⟨spin, clear, taken, one, taker, named, leaving, answer⟩ := inv
  constructor
  all_goals simp only [State.goto, State.release, State.Takes, Function.update_apply] at *
  all_goals grind [Stage.Critical]

/-- `releasesleep` clears `locked`. -/
theorem Exclusive.unlock (inv : Exclusive s) (here : s.stage p = .unlocking) :
    Exclusive ({ s with locked := 0, between := Function.update s.between p false }.goto p
      .unnaming) := by
  have others := inv.others (p := p) (by rw [here]; trivial)
  obtain ⟨spin, clear, taken, one, taker, named, leaving, answer⟩ := inv
  constructor
  all_goals simp only [State.goto, State.Takes, Function.update_apply] at *
  all_goals grind [Stage.Critical]

/-- `releasesleep` clears `pid`. -/
theorem Exclusive.unname (inv : Exclusive s) (here : s.stage p = .unnaming) :
    Exclusive ({ s with pid := 0 }.goto p .rousing) := by
  have others := inv.others (p := p) (by rw [here]; trivial)
  obtain ⟨spin, clear, taken, one, taker, named, leaving, answer⟩ := inv
  constructor
  all_goals simp only [State.goto, State.Takes, Function.update_apply] at *
  all_goals grind [Stage.Critical]

/-- `holdingsleep` reads the lock. -/
theorem Exclusive.read (inv : Exclusive s) (here : s.stage p = .reading) :
    Exclusive (s.goto p
      (.answering (decide (s.locked ≠ 0) && decide (s.pid = s.pidOf p)))) := by
  have others := inv.others (p := p) (by rw [here]; trivial)
  obtain ⟨spin, clear, taken, one, taker, named, leaving, answer⟩ := inv
  constructor
  all_goals simp only [State.goto, State.Takes, Function.update_apply] at *
  all_goals grind [Stage.Critical]

/-! ## Runs -/

/-- An LWP takes the spin lock. -/
theorem Exclusive.acquire (inv : Exclusive s) (stage : Stage)
    (before : s.stage p ≠ .naming ∧ s.stage p ≠ .acquired) (after : stage.Plain)
    (critical : stage.Critical) (leaving : stage = .unlocking → s.between p = true)
    (taken : s.acquire p stage = some t) : Exclusive t := by
  unfold State.acquire at taken
  by_cases free : s.lk = none
  · rw [if_pos free] at taken
    cases taken
    apply inv.move before after
    · rintro (releasing | unlocking)
      · rw [releasing] at critical
        exact critical.elim
      · exact leaving unlocking
    · simp [critical]
    · intro q other
      simp [free, Ne.symm other]
  · rw [if_neg free] at taken
    cases taken

/-- The LWP that holds the spin lock lets go of it. -/
theorem Exclusive.release (inv : Exclusive s) (stage : Stage)
    (before : s.stage p ≠ .naming ∧ s.stage p ≠ .acquired) (critical : (s.stage p).Critical)
    (after : stage.Plain) (outside : ¬stage.Critical) (notReleasing : stage ≠ .releasing) :
    Exclusive (s.release p stage) := by
  have held := (inv.spin p).mpr critical
  apply inv.move before after
  · rintro (releasing | unlocking)
    · exact absurd releasing notReleasing
    · rw [unlocking] at outside
      exact absurd trivial outside
  · simp [outside]
  · intro q other
    simp [held, Ne.symm other]

/-- The next access of an LWP keeps the invariant. -/
theorem Exclusive.go (inv : Exclusive s) (step : s.go p = some t) : Exclusive t := by
  unfold State.go at step
  cases here : s.stage p with
  | elsewhere | asleep => simp [here] at step
  | acquiring | woken =>
    simp only [here] at step
    exact inv.acquire .testing (by simp [here]) trivial trivial (by simp) step
  | asking =>
    simp only [here] at step
    exact inv.acquire .reading (by simp [here]) trivial trivial (by simp) step
  | releasing =>
    simp only [here] at step
    have between := inv.leaving p (Or.inl here)
    exact inv.acquire .unlocking (by simp [here]) trivial trivial (fun _ => between) step
  | testing =>
    simp only [here] at step
    by_cases locked : s.locked = 0
    · rw [if_neg (not_not.mpr locked)] at step
      cases step
      exact inv.find here locked
    · rw [if_pos locked] at step
      cases step
      exact inv.release .asleep (by simp [here]) (by rw [here]; trivial) trivial id (by simp)
  | locking =>
    simp only [here] at step
    cases step
    exact inv.lock here
  | naming =>
    simp only [here] at step
    cases step
    exact inv.name here
  | acquired =>
    simp only [here] at step
    cases step
    exact inv.enter here
  | unlocking =>
    simp only [here] at step
    cases step
    exact inv.unlock here
  | unnaming =>
    simp only [here] at step
    cases step
    exact inv.unname here
  | rousing =>
    simp only [here] at step
    cases step
    have still : s.wakeup.stage p = .rousing := (State.wakeup_stage (by simp) (by simp)).mpr here
    have held : s.wakeup.lk = some p := (inv.wakeup.spin p).mpr (by rw [still]; trivial)
    apply inv.wakeup.move (by simp [still]) (show Stage.Plain .released from trivial) (by simp)
    · exact ⟨fun _ => trivial, fun _ => held⟩
    · intro q _
      rfl
  | released | answering =>
    simp only [here] at step
    cases step
    exact inv.release .elsewhere (by simp [here]) (by rw [here]; trivial) trivial id (by simp)
  | reading =>
    simp only [here] at step
    cases step
    exact inv.read here

/-- An LWP that does not hold the spin lock goes on to a stage without it. -/
theorem Exclusive.call (inv : Exclusive s) (stage : Stage)
    (before : s.stage p = .elsewhere ∨ s.stage p = .asleep) (after : stage.Plain)
    (outside : ¬stage.Critical)
    (leaving : stage = .releasing → s.between p = true) : Exclusive (s.goto p stage) := by
  have free : s.lk ≠ some p := by
    intro held
    have critical := (inv.spin p).mp held
    rcases before with here | here <;> rw [here] at critical <;> exact critical
  show Exclusive ({ s with lk := s.lk }.goto p stage)
  apply inv.move _ after
  · rintro (releasing | unlocking)
    · exact leaving releasing
    · rw [unlocking] at outside
      exact absurd trivial outside
  · exact ⟨fun held => absurd held free, fun critical => absurd critical outside⟩
  · intro q _
    rfl
  · rcases before with here | here <;> simp [here]

/-- Every step keeps the invariant. -/
theorem Exclusive.next (inv : Exclusive s) (event : Event π) (step : s.next event = some t) :
    Exclusive t := by
  unfold State.next at step
  cases event with
  | acquiresleep p =>
    dsimp only at step
    by_cases here : s.stage p = .elsewhere
    · rw [if_pos here] at step
      cases step
      exact inv.call .acquiring (Or.inl here) trivial id (by simp)
    · rw [if_neg here] at step
      cases step
  | releasesleep p =>
    dsimp only at step
    by_cases here : s.stage p = .elsewhere ∧ s.between p = true
    · rw [if_pos here] at step
      cases step
      exact inv.call .releasing (Or.inl here.1) trivial id (fun _ => here.2)
    · rw [if_neg here] at step
      cases step
  | holdingsleep p =>
    dsimp only at step
    by_cases here : s.stage p = .elsewhere
    · rw [if_pos here] at step
      cases step
      exact inv.call .asking (Or.inl here) trivial id (by simp)
    · rw [if_neg here] at step
      cases step
  | go p => exact inv.go step
  | rouse p =>
    dsimp only at step
    by_cases here : s.stage p = .asleep
    · rw [if_pos here] at step
      cases step
      exact inv.call .woken (Or.inr here) trivial id (by simp)
    · rw [if_neg here] at step
      cases step
  | setPid p pid =>
    dsimp only at step
    by_cases here : s.stage p = .elsewhere ∧ s.between p = false
    · rw [if_pos here] at step
      cases step
      obtain ⟨spin, clear, taken, one, taker, named, leaving, answer⟩ := inv
      refine ⟨spin, clear, taken, one, taker, ?_, leaving, ?_⟩
      · intro q holder
        have other : q ≠ p := by
          rintro rfl
          rcases holder with between | acquired
          · rw [here.2] at between
            cases between
          · rw [here.1] at acquired
            cases acquired
        exact (named q holder).trans (Function.update_of_ne other _ _).symm
      · intro q r answering
        have other : q ≠ p := by
          rintro rfl
          rw [here.1] at answering
          cases answering
        simpa [Function.update_of_ne other] using answer q r answering
    · rw [if_neg here] at step
      cases step

/-- The steps, with their events. -/
def State.Step (s : State π) (event : Event π) (t : State π) : Prop := s.next event = some t

/-- The invariant holds in every run. -/
theorem Exclusive.run {pidOf : π → Nat} {events : List (Event π)}
    (run : Run State.Step (State.start pidOf) events s) : Exclusive s :=
  run.invariant Exclusive (fun _ event _ inv step => inv.next event step) (Exclusive.start pidOf)

/-- In every run at most one LWP is in between, and `holdingsleep` returns 1 to an LWP exactly if
it is that one, as long as no other LWP with its `pid` is in between. -/
theorem holdingsleep_right_iff (pidOf : π → Nat) (events : List (Event π)) (s : State π)
    (run : Run State.Step (State.start pidOf) events s) :
    (∀ p q, s.between p = true → s.between q = true → p = q) ∧
      ∀ q r, s.stage q = .answering r →
        ((r = true ↔ s.between q = true) ↔
          ∀ p, s.between p = true → p ≠ q → s.pidOf p ≠ s.pidOf q) := by
  have inv := Exclusive.run run
  constructor
  · intro p q first second
    exact inv.one p q (Or.inl first) (Or.inl second)
  · intro q r answering
    have result := inv.answer q r answering
    constructor
    · intro right p between other same
      have locked := inv.taken p (Or.inl between)
      have name := inv.named p (Or.inl between)
      have answered : r = true := by
        simp [result, name, same, locked]
      exact other (inv.one p q (Or.inl between) (Or.inl (right.mp answered)))
    · intro different
      constructor
      · intro answered
        have read : s.locked ≠ 0 ∧ s.pid = s.pidOf q := by simpa [answered] using result.symm
        obtain ⟨p, takes⟩ := inv.taker read.1
        by_cases same : p = q
        · subst same
          simpa [State.Takes, answering] using takes
        · have elsewhere := inv.others (p := q) (by rw [answering]; trivial) p same
          have between : s.between p = true := by
            rcases takes with between | naming | acquired
            · exact between
            · exact absurd naming elsewhere.2.1
            · exact absurd acquired elsewhere.2.2.1
          have name := inv.named p (Or.inl between)
          exact absurd (name.symm.trans read.2) (different p between same)
      · intro between
        rw [result, inv.taken q (Or.inl between), inv.named q (Or.inl between)]
        simp

/-- LWP 0 acquires the lock, and LWP 1 asks whether it holds it. -/
def asksForOther : List (Event Nat) :=
  [.acquiresleep 0, .go 0, .go 0, .go 0, .go 0, .go 0, .holdingsleep 1, .go 1, .go 1]

/-- The equivalence after LWPs of different `pid`s have used the lock. -/
theorem holdingsleep_right_iff_two_pids :
    ∃ s, Run State.Step (State.start fun p => p + 3) asksForOther s ∧
      s.between 0 = true ∧ s.stage 1 = .answering false ∧
      (∀ p q, s.between p = true → s.between q = true → p = q) ∧
        ∀ q r, s.stage q = .answering r →
          ((r = true ↔ s.between q = true) ↔
            ∀ p, s.between p = true → p ≠ q → s.pidOf p ≠ s.pidOf q) := by
  have executed : Run.exec State.next asksForOther (State.start fun p => p + 3) = some _ := rfl
  have run := Run.of_exec executed
  exact ⟨_, run, rfl, rfl, holdingsleep_right_iff _ _ _ run⟩

/-- An LWP is told that it holds the lock that another LWP of its group holds. -/
theorem holdingsleep_accepts_other_of_group :
    ¬ ∀ (pidOf : Nat → Nat) (events : List (Event Nat)) (s : State Nat),
      Run State.Step (State.start pidOf) events s →
      (∀ p q, s.between p = true → s.between q = true → p = q) ∧
        ∀ q r, s.stage q = .answering r → (r = true ↔ s.between q = true) := by
  intro always
  have executed : Run.exec State.next asksForOther (State.start fun _ => 3) = some _ := rfl
  have run := Run.of_exec executed
  have right := (always _ _ _ run).2 1 true rfl
  have between := right.mp rfl
  revert between
  decide

end SleepLock

end Xv6
