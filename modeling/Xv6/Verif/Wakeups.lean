import Xv6.Lib.Runs
import Xv6.Sleep

/-!
# No wakeup is lost

Between the start of the critical section of `lk` in which a process calls `sleep(chan, lk)` and
the moment it sleeps, it holds `lk` or `ptable.lock` throughout, and any other process needs both
to complete a `wakeup(chan)` as a holder of `lk`. After that moment a complete `wakeup(chan)`
leaves nobody asleep on the channel.
-/

namespace Xv6

/-- A process that holds no lock may be here. -/
def SleepPlace.Lockless {κ ℓ : Type} : SleepPlace κ ℓ → Prop
  | .running => True
  | .relocking _ => True
  | .waking _ => True
  | .exited => True
  | _ => False

namespace LockState

variable {π κ ℓ : Type} {ptable : ℓ} {steps : List (LockStep π κ ℓ)} {step : LockStep π κ ℓ}
  {s t : LockState π κ ℓ} {p q : π}

/-- No other process that holds `lk` has completed a `wakeup(chan)` since the process last began
to hold `lk`. -/
def Unwoken (steps : List (LockStep π κ ℓ)) (p : π) (chan : κ) (lk : ℓ) : Prop :=
  Since (fun step => step = .begins p lk) (fun step => ∀ q held, step = .woke q chan held → held lk → q = p) steps

/-- What holds of a process at each place. -/
def Fits (ptable : ℓ) (steps : List (LockStep π κ ℓ)) (s : LockState π κ ℓ) (p : π) : SleepPlace κ ℓ → Prop
  | .running => True
  | .entered _ lk => s.holds p lk
  | .locked _ lk => s.holds p lk ∧ s.holds p ptable ∧ ptable ≠ lk
  | .falling chan lk => s.holds p ptable ∧ Unwoken steps p chan lk
  | .asleep chan lk =>
    (s.state p = .sleeping → s.chan p = some chan ∧ Unwoken steps p chan lk) ∧
      (s.state p = .running → s.holds p ptable)
  | .relocking _ => True
  | .awake lk => s.holds p lk
  | .waking _ => True
  | .scanning _ => s.holds p ptable
  | .scanned chan => s.holds p ptable ∧ ∀ q, ¬ (s.state q = .sleeping ∧ s.chan q = some chan)
  | .yielding back => s.holds p ptable ∧ back.Lockless
  | .yielded back => (s.state p = .running → s.holds p ptable) ∧ back.Lockless
  | .exited => True

/-- The locks a process holds are counted. -/
def Counting (s : LockState π κ ℓ) (p : π) : Prop :=
  ∃ locks : List ℓ, locks.Nodup ∧ (∀ l, l ∈ locks ↔ s.holds p l) ∧ locks.length = s.ncli p

/-- What holds of one process after every run. -/
structure Attentive (ptable : ℓ) (steps : List (LockStep π κ ℓ)) (s : LockState π κ ℓ) (p : π) : Prop where
  /-- While it holds a lock, others that hold the lock complete no wakeup. -/
  sections : ∀ l chan, s.holds p l → Unwoken steps p chan l
  /-- Its place fits. -/
  fits : Fits ptable steps s p (s.place p)
  /-- Unless it runs, it holds no lock. -/
  idle : s.state p ≠ .running → ∀ l, ¬ s.holds p l
  /-- While it runs, its locks are counted. -/
  counted : s.state p = .running → s.Counting p
  /-- It sleeps in `sleep` only. -/
  sleeper : s.state p = .sleeping → ∃ chan lk, s.place p = .asleep chan lk

/-- A lock has one holder. -/
theorem holds_unique {l : ℓ} (first : s.holds p l) (second : s.holds q l) : p = q := by
  have same : some (LockOwner.process p) = some (LockOwner.process q) := first.symm.trans second
  injection same with owners
  injection owners

/-- The section goes on over one more step. -/
theorem Unwoken.snoc {chan : κ} {lk : ℓ} (unwoken : Unwoken steps p chan lk)
    (own : ∀ q held, step = .woke q chan held → held lk → q = p) : Unwoken (steps ++ [step]) p chan lk :=
  Since.snoc unwoken fun _ => own

/-- A step that is nobody's goes by. -/
theorem Unwoken.quiet {chan : κ} {lk : ℓ} (unwoken : Unwoken steps p chan lk) :
    Unwoken (steps ++ [.quiet]) p chan lk := by
  apply unwoken.snoc
  intro q held impossible
  exact nomatch impossible

/-! ## Steps of other processes -/

/-- What a step of another process leaves of a process. -/
structure Apart (s t : LockState π κ ℓ) (q : π) : Prop where
  /-- It holds the same locks. -/
  holds : ∀ l, t.holds q l ↔ s.holds q l
  ncli : t.ncli q = s.ncli q
  /-- It may be woken. -/
  state : t.state q = s.state q ∨ s.state q = .sleeping ∧ t.state q = .runnable
  chan : t.chan q = s.chan q
  place : t.place q = s.place q

namespace Apart

/-- It sleeps only if it slept. -/
theorem slept (apart : Apart s t q) (sleeps : t.state q = .sleeping) : s.state q = .sleeping := by
  rcases apart.state with same | woken
  · rw [← same]
    exact sleeps
  · exact woken.1

/-- It runs only if it ran. -/
theorem running (apart : Apart s t q) : t.state q = .running ↔ s.state q = .running := by
  rcases apart.state with same | ⟨before, after⟩
  · rw [same]
  · rw [before, after]
    exact ⟨nofun, nofun⟩

/-- Nobody starts to sleep on a channel. -/
theorem sleepers {r : π} {chan : κ} (apart : Apart s t r) (sleeps : t.state r = .sleeping ∧ t.chan r = some chan) :
    s.state r = .sleeping ∧ s.chan r = some chan := by
  refine ⟨apart.slept sleeps.1, ?_⟩
  rw [← apart.chan]
  exact sleeps.2

end Apart

/-- A step of another process keeps what holds of a process, if the wakeup it completes is none
the process waits for and nobody falls asleep while the process holds `ptable.lock`. -/
theorem Attentive.apart (attentive : Attentive ptable steps s q) (apart : Apart s t q)
    (wakes : ∀ r chan held lk, step = .woke r chan held → held lk →
      s.holds q lk ∨ s.holds q ptable ∨ t.state q = .sleeping ∧ s.chan q = some chan → r = q)
    (calm : s.holds q ptable → ∀ r chan, t.state r = .sleeping ∧ t.chan r = some chan →
      s.state r = .sleeping ∧ s.chan r = some chan) :
    Attentive ptable (steps ++ [step]) t q where
  sections := by
    intro l chan held
    rw [apart.holds] at held
    exact (attentive.sections l chan held).snoc fun r locks same known => wakes r chan locks l same known (.inl held)
  fits := by
    have fits := attentive.fits
    rw [apart.place]
    cases place : s.place q with
    | running => trivial
    | relocking lk => trivial
    | waking chan => trivial
    | exited => trivial
    | entered chan lk =>
      rw [place] at fits
      exact (apart.holds lk).mpr fits
    | awake lk =>
      rw [place] at fits
      exact (apart.holds lk).mpr fits
    | scanning chan =>
      rw [place] at fits
      exact (apart.holds ptable).mpr fits
    | locked chan lk =>
      rw [place] at fits
      exact ⟨(apart.holds lk).mpr fits.1, (apart.holds ptable).mpr fits.2.1, fits.2.2⟩
    | falling chan lk =>
      rw [place] at fits
      refine ⟨(apart.holds ptable).mpr fits.1, fits.2.snoc ?_⟩
      intro r held same known
      exact wakes r chan held lk same known (.inr (.inl fits.1))
    | asleep chan lk =>
      rw [place] at fits
      refine ⟨?_, ?_⟩
      · intro sleeps
        obtain ⟨channel, unwoken⟩ := fits.1 (apart.slept sleeps)
        refine ⟨apart.chan.trans channel, unwoken.snoc ?_⟩
        intro r held same known
        exact wakes r chan held lk same known (.inr (.inr ⟨sleeps, channel⟩))
      · intro runs
        exact (apart.holds ptable).mpr (fits.2 (apart.running.mp runs))
    | scanned chan =>
      rw [place] at fits
      refine ⟨(apart.holds ptable).mpr fits.1, ?_⟩
      intro r sleeps
      exact fits.2 r (calm fits.1 r chan sleeps)
    | yielding back =>
      rw [place] at fits
      exact ⟨(apart.holds ptable).mpr fits.1, fits.2⟩
    | yielded back =>
      rw [place] at fits
      exact ⟨fun runs => (apart.holds ptable).mpr (fits.1 (apart.running.mp runs)), fits.2⟩
  idle := by
    intro rests l held
    rw [apart.holds] at held
    exact attentive.idle (fun runs => rests (apart.running.mpr runs)) l held
  counted := by
    intro runs
    obtain ⟨locks, distinct, listed, length⟩ := attentive.counted (apart.running.mp runs)
    refine ⟨locks, distinct, ?_, ?_⟩
    · intro l
      rw [apart.holds]
      exact listed l
    · rw [apart.ncli]
      exact length
  sleeper := by
    intro sleeps
    rw [apart.place]
    exact attentive.sleeper (apart.slept sleeps)

/-! ## Steps of the process itself -/

/-- A step of a process that goes on running. -/
theorem Attentive.moves (attentive : Attentive ptable steps s p) (runs : t.state p = .running)
    (own : ∀ q chan held, step = .woke q chan held → q = p)
    (locks : ∀ l, t.holds p l → s.holds p l ∨ step = .begins p l) (counted : t.Counting p)
    (fits : Fits ptable (steps ++ [step]) t p (t.place p)) : Attentive ptable (steps ++ [step]) t p where
  sections := by
    intro l chan held
    rcases locks l held with before | begun
    · exact (attentive.sections l chan before).snoc fun q locks same _ => own q chan locks same
    · exact Since.now begun
  fits := fits
  idle := fun rests => absurd runs rests
  counted := fun _ => counted
  sleeper := by
    intro sleeps
    rw [runs] at sleeps
    exact nomatch sleeps

/-- A step after which the process does not run and holds no lock. -/
theorem Attentive.rests (rests : t.state p ≠ .running) (none : ∀ l, ¬ t.holds p l)
    (fits : Fits ptable (steps ++ [step]) t p (t.place p))
    (sleeper : t.state p = .sleeping → ∃ chan lk, t.place p = .asleep chan lk) :
    Attentive ptable (steps ++ [step]) t p where
  sections := fun l _ held => absurd held (none l)
  fits := fits
  idle := fun _ => none
  counted := fun runs => absurd runs rests
  sleeper := sleeper

/-- Nothing has changed. -/
theorem Apart.refl (s : LockState π κ ℓ) (q : π) : Apart s s q :=
  ⟨fun _ => Iff.rfl, rfl, .inl rfl, rfl, rfl⟩

/-- What holds after every run. -/
def Guarded (ptable : ℓ) (steps : List (LockStep π κ ℓ)) (s : LockState π κ ℓ) : Prop :=
  ∀ q, Attentive ptable steps s q

/-- A place without locks fits a process in any state. -/
theorem lockless_fits {place : SleepPlace κ ℓ} (free : place.Lockless) : Fits ptable steps s p place := by
  cases place with
  | running => trivial
  | relocking lk => trivial
  | waking chan => trivial
  | exited => trivial
  | entered chan lk => exact free.elim
  | locked chan lk => exact free.elim
  | falling chan lk => exact free.elim
  | asleep chan lk => exact free.elim
  | awake lk => exact free.elim
  | scanning chan => exact free.elim
  | scanned chan => exact free.elim
  | yielding back => exact free.elim
  | yielded back => exact free.elim

/-- A process that holds no lock is at a place where it needs none. -/
theorem Guarded.free (guarded : Guarded ptable steps s) (runs : s.state p = .running) (zero : s.ncli p = 0) :
    (s.place p).Lockless := by
  have none : ∀ l, ¬ s.holds p l := by
    intro l held
    obtain ⟨locks, _, listed, length⟩ := (guarded p).counted runs
    rw [zero, List.length_eq_zero_iff] at length
    have member := (listed l).mpr held
    rw [length] at member
    exact absurd member List.not_mem_nil
  have fits := (guarded p).fits
  cases place : s.place p with
  | running => trivial
  | relocking lk => trivial
  | waking chan => trivial
  | exited => trivial
  | entered chan lk =>
    rw [place] at fits
    exact none lk fits
  | locked chan lk =>
    rw [place] at fits
    exact none lk fits.1
  | falling chan lk =>
    rw [place] at fits
    exact none ptable fits.1
  | asleep chan lk =>
    rw [place] at fits
    exact none ptable (fits.2 runs)
  | awake lk =>
    rw [place] at fits
    exact none lk fits
  | scanning chan =>
    rw [place] at fits
    exact none ptable fits
  | scanned chan =>
    rw [place] at fits
    exact none ptable fits.1
  | yielding back =>
    rw [place] at fits
    exact none ptable fits.1
  | yielded back =>
    rw [place] at fits
    exact none ptable (fits.1 runs)

/-- A process in its own code. -/
theorem at_running {α : Type} {place : SleepPlace κ ℓ} {result : Option α} {value : α}
    (taken : (match place with
      | .running => result
      | _ => none) = some value) : place = .running ∧ result = some value := by
  cases place with
  | running => exact ⟨rfl, taken⟩
  | _ => exact nomatch taken

/-- The invariant holds at the start. -/
theorem Guarded.start : Guarded ptable [] (LockState.start : LockState π κ ℓ) := by
  intro q
  refine ⟨?_, ?_, ?_, nofun, nofun⟩
  · intro l chan held
    exact nomatch held
  · exact ⟨nofun, trivial⟩
  · intro _ l held
    exact nomatch held

section Schedulers

variable [DecidableEq ℓ]

/-- `ptable.lock` passes between nobody and a scheduler. -/
theorem Guarded.regime {owner : Option (LockOwner π)} (guarded : Guarded ptable steps s)
    (after : ∀ q, Function.update s.owner ptable owner ptable ≠ some (.process q)) (before : ∀ q, ¬ s.holds q ptable) :
    Guarded ptable (steps ++ [.quiet]) { s with owner := Function.update s.owner ptable owner } := by
  intro q
  have apart : Apart s { s with owner := Function.update s.owner ptable owner } q := by
    refine ⟨?_, rfl, .inl rfl, rfl, rfl⟩
    intro l
    show Function.update s.owner ptable owner l = some (.process q) ↔ s.holds q l
    by_cases same : l = ptable
    · subst same
      exact ⟨fun held => absurd held (after q), fun held => absurd held (before q)⟩
    · rw [Function.update_of_ne same]
      rfl
  apply (guarded q).apart apart
  · exact fun _ _ _ _ => nofun
  · exact fun _ _ _ sleeps => sleeps

end Schedulers

section Places

variable [DecidableEq π]

/-- Going elsewhere changes nothing of the others. -/
theorem Apart.goto {place : SleepPlace κ ℓ} (apart : Apart s t q) (other : q ≠ p) : Apart s (t.goto p place) q where
  holds := apart.holds
  ncli := apart.ncli
  state := apart.state
  chan := apart.chan
  place := (Function.update_of_ne other _ _).trans apart.place

/-- Going to the place one is at. -/
theorem goto_self {place : SleepPlace κ ℓ} (same : s.place p = place) : s.goto p place = s := by
  unfold goto
  rw [← same, Function.update_eq_self]

namespace Guarded

/-- A step of a process that completes no wakeup. -/
theorem silent (guarded : Guarded ptable steps s) (others : ∀ q, q ≠ p → Apart s t q)
    (quiet : ∀ r chan held, step ≠ .woke r chan held)
    (calm : ∀ q, q ≠ p → s.holds q ptable → ∀ r chan, t.state r = .sleeping ∧ t.chan r = some chan →
      s.state r = .sleeping ∧ s.chan r = some chan)
    (own : Attentive ptable (steps ++ [step]) t p) : Guarded ptable (steps ++ [step]) t := by
  intro q
  by_cases same : q = p
  · rw [same]
    exact own
  · apply (guarded q).apart (others q same)
    · intro r chan held _ impossible
      exact absurd impossible (quiet r chan held)
    · exact calm q same

/-- A process goes on without a lock operation. -/
theorem goto {place : SleepPlace κ ℓ} (guarded : Guarded ptable steps s) (runs : s.state p = .running)
    (quiet : ∀ r chan held, step ≠ .woke r chan held)
    (fits : Fits ptable (steps ++ [step]) (s.goto p place) p place) :
    Guarded ptable (steps ++ [step]) (s.goto p place) := by
  apply guarded.silent (fun q other => (Apart.refl s q).goto other) quiet
  · intro q _ _ r chan sleeps
    exact sleeps
  · have still : (s.goto p place).state p = .running := runs
    apply (guarded p).moves still
    · intro q chan held woke
      exact absurd woke (quiet q chan held)
    · intro k held
      exact .inl held
    · exact (guarded p).counted runs
    · show Fits _ _ _ p (Function.update s.place p place p)
      rw [Function.update_self]
      exact fits

/-- The channel of a running process does not matter. -/
theorem chan (guarded : Guarded ptable steps s) (runs : s.state p = .running) (channel : Option κ) :
    Guarded ptable steps { s with chan := Function.update s.chan p channel } := by
  intro q
  have attentive := guarded q
  refine ⟨attentive.sections, ?_, attentive.idle, attentive.counted, attentive.sleeper⟩
  have awake : ∀ r, s.state r = .sleeping → Function.update s.chan p channel r = s.chan r := by
    intro r sleeps
    apply Function.update_of_ne
    rintro rfl
    rw [runs] at sleeps
    exact nomatch sleeps
  have fits := attentive.fits
  show Fits ptable steps { s with chan := Function.update s.chan p channel } q (s.place q)
  cases place : s.place q with
  | asleep chan lk =>
    rw [place] at fits
    refine ⟨?_, fits.2⟩
    intro sleeps
    show Function.update s.chan p channel q = some chan ∧ _
    rw [awake q sleeps]
    exact fits.1 sleeps
  | scanned chan =>
    rw [place] at fits
    refine ⟨fits.1, ?_⟩
    intro r sleeps
    change s.state r = .sleeping ∧ Function.update s.chan p channel r = some chan at sleeps
    rw [awake r sleeps.1] at sleeps
    exact fits.2 r sleeps
  | running => trivial
  | relocking lk => trivial
  | waking chan => trivial
  | exited => trivial
  | entered chan lk =>
    rw [place] at fits
    exact fits
  | locked chan lk =>
    rw [place] at fits
    exact fits
  | falling chan lk =>
    rw [place] at fits
    exact fits
  | awake lk =>
    rw [place] at fits
    exact fits
  | scanning chan =>
    rw [place] at fits
    exact fits
  | yielding back =>
    rw [place] at fits
    exact fits
  | yielded back =>
    rw [place] at fits
    exact fits

/-- A sleeping process is made runnable. -/
theorem rouse (guarded : Guarded ptable steps s) (sleeps : s.state q = .sleeping) :
    Guarded ptable (steps ++ [.quiet]) { s with state := Function.update s.state q .runnable } := by
  have apart : ∀ r, Apart s { s with state := Function.update s.state q .runnable } r := by
    intro r
    refine ⟨fun _ => Iff.rfl, rfl, ?_, rfl, rfl⟩
    by_cases same : r = q
    · subst same
      exact .inr ⟨sleeps, Function.update_self _ _ _⟩
    · exact .inl (Function.update_of_ne same _ _)
  intro r
  apply (guarded r).apart (apart r)
  · exact fun _ _ _ _ => nofun
  · intro _ k chan still
    exact (apart k).sleepers still

end Guarded

end Places

section Locks

variable [DecidableEq π] [DecidableEq ℓ]

/-! ## Lock operations -/

/-- The effect of `acquire`. -/
structure Acquired (s : LockState π κ ℓ) (p : π) (l : ℓ) (t : LockState π κ ℓ) : Prop where
  /-- Nobody held the lock. -/
  free : ∀ q, ¬ s.holds q l
  others : ∀ q, q ≠ p → Apart s t q
  /-- The caller holds one lock more. -/
  holds : ∀ k, t.holds p k ↔ s.holds p k ∨ k = l
  state : t.state = s.state
  chan : t.chan = s.chan
  place : t.place = s.place
  /-- The locks are still counted. -/
  counted : s.Counting p → t.Counting p

/-- `acquire`. -/
theorem acquire_spec {l : ℓ} (taken : s.acquire p l = some t) : Acquired s p l t := by
  unfold acquire at taken
  by_cases free : s.owner l = none
  · rw [if_pos free] at taken
    cases taken
    have nobody : ∀ q, ¬ s.holds q l := by
      intro q held
      rw [holds, free] at held
      exact nomatch held
    have holds : ∀ k, Function.update s.owner l (some (LockOwner.process p)) k = some (.process p) ↔
        s.holds p k ∨ k = l := by
      intro k
      by_cases same : k = l
      · subst same
        rw [Function.update_self]
        exact ⟨fun _ => .inr rfl, fun _ => rfl⟩
      · rw [Function.update_of_ne same]
        exact ⟨.inl, fun either => either.resolve_right same⟩
    refine ⟨nobody, ?_, holds, rfl, rfl, rfl, ?_⟩
    · intro q other
      refine ⟨?_, Function.update_of_ne other _ _, .inl rfl, rfl, rfl⟩
      intro k
      show Function.update s.owner l (some (LockOwner.process p)) k = some (.process q) ↔ _
      by_cases same : k = l
      · subst same
        rw [Function.update_self]
        constructor
        · intro owners
          injection owners with owners
          injection owners with owners
          exact absurd owners.symm other
        · intro held
          exact absurd held (nobody q)
      · rw [Function.update_of_ne same]
        rfl
    · rintro ⟨locks, distinct, listed, length⟩
      refine ⟨l :: locks, ?_, ?_, ?_⟩
      · rw [List.nodup_cons]
        exact ⟨fun member => nobody p ((listed l).mp member), distinct⟩
      · intro k
        rw [List.mem_cons, listed]
        show k = l ∨ s.holds p k ↔ Function.update s.owner l (some (LockOwner.process p)) k = some (.process p)
        rw [holds, or_comm]
      · show locks.length + 1 = Function.update s.ncli p (s.ncli p + 1) p
        rw [Function.update_self, length]
  · rw [if_neg free] at taken
    exact nomatch taken

/-- The effect of `release`. -/
structure Released (s : LockState π κ ℓ) (p : π) (l : ℓ) (t : LockState π κ ℓ) : Prop where
  /-- The caller held the lock. -/
  held : s.holds p l
  others : ∀ q, q ≠ p → Apart s t q
  /-- The caller holds one lock less. -/
  holds : ∀ k, t.holds p k ↔ s.holds p k ∧ k ≠ l
  state : t.state = s.state
  chan : t.chan = s.chan
  place : t.place = s.place
  /-- The locks are still counted. -/
  counted : s.Counting p → t.Counting p

/-- `release`. -/
theorem release_spec {l : ℓ} (given : s.release p l = some t) : Released s p l t := by
  unfold release at given
  by_cases held : s.holds p l
  · rw [if_pos held] at given
    cases given
    have holds : ∀ k, Function.update s.owner l none k = some (.process p) ↔ s.holds p k ∧ k ≠ l := by
      intro k
      by_cases same : k = l
      · subst same
        rw [Function.update_self]
        exact ⟨nofun, fun both => absurd rfl both.2⟩
      · rw [Function.update_of_ne same]
        exact ⟨fun owned => ⟨owned, same⟩, fun both => both.1⟩
    refine ⟨held, ?_, holds, rfl, rfl, rfl, ?_⟩
    · intro q other
      refine ⟨?_, Function.update_of_ne other _ _, .inl rfl, rfl, rfl⟩
      intro k
      show Function.update s.owner l none k = some (.process q) ↔ _
      by_cases same : k = l
      · subst same
        rw [Function.update_self]
        exact ⟨nofun, fun owned => absurd (holds_unique owned held) other⟩
      · rw [Function.update_of_ne same]
        rfl
    · rintro ⟨locks, distinct, listed, length⟩
      refine ⟨locks.erase l, distinct.erase l, ?_, ?_⟩
      · intro k
        rw [distinct.mem_erase_iff, listed]
        show k ≠ l ∧ s.holds p k ↔ Function.update s.owner l none k = some (.process p)
        rw [holds, and_comm]
      · show (locks.erase l).length = Function.update s.ncli p (s.ncli p - 1) p
        rw [Function.update_self, List.length_erase_of_mem ((listed l).mpr held), length]
  · rw [if_neg held] at given
    exact nomatch given

/-- The effect of a change of state and `sched`. -/
structure Scheduled (ptable : ℓ) (s : LockState π κ ℓ) (p : π) (state : RunState) (t : LockState π κ ℓ) :
    Prop where
  /-- The caller held `ptable.lock`. -/
  held : s.holds p ptable
  others : ∀ q, q ≠ p → Apart s t q
  /-- The caller holds no lock any more. -/
  none : s.Counting p → ∀ l, ¬ t.holds p l
  state : t.state p = state
  chan : t.chan = s.chan
  place : t.place = s.place

/-- `sched`. -/
theorem sched_spec {state : RunState} (left : sched ptable s p state = some t) : Scheduled ptable s p state t := by
  unfold sched at left
  by_cases alone : s.holds p ptable ∧ s.ncli p = 1
  · rw [if_pos alone] at left
    cases left
    refine ⟨alone.1, ?_, ?_, Function.update_self _ _ _, rfl, rfl⟩
    · intro q other
      refine ⟨?_, rfl, .inl (Function.update_of_ne other _ _), rfl, rfl⟩
      intro k
      show Function.update s.owner ptable (some .scheduler) k = some (.process q) ↔ _
      by_cases same : k = ptable
      · subst same
        rw [Function.update_self]
        exact ⟨nofun, fun owned => absurd (holds_unique owned alone.1) other⟩
      · rw [Function.update_of_ne same]
        rfl
    · rintro ⟨locks, _, listed, length⟩ l owned
      change Function.update s.owner ptable (some .scheduler) l = some (.process p) at owned
      rw [alone.2, List.length_eq_one_iff] at length
      obtain ⟨only, single⟩ := length
      subst single
      by_cases same : l = ptable
      · subst same
        rw [Function.update_self] at owned
        exact nomatch owned
      · rw [Function.update_of_ne same] at owned
        have first := List.mem_singleton.mp ((listed l).mpr owned)
        have second := List.mem_singleton.mp ((listed ptable).mpr alone.1)
        exact same (first.trans second.symm)
  · rw [if_neg alone] at left
    exact nomatch left

namespace Guarded

/-- A process acquires a lock and goes on. -/
theorem acquire {l : ℓ} {place : SleepPlace κ ℓ} (guarded : Guarded ptable steps s) (runs : s.state p = .running)
    (taken : s.acquire p l = some t)
    (fits : Acquired s p l t → Fits ptable (steps ++ [.begins p l]) (t.goto p place) p place) :
    Guarded ptable (steps ++ [.begins p l]) (t.goto p place) := by
  have effect := acquire_spec taken
  apply guarded.silent (fun q other => (effect.others q other).goto other)
  · intro r chan held
    exact nofun
  · intro q _ _ r chan sleeps
    change t.state r = .sleeping ∧ t.chan r = some chan at sleeps
    rw [effect.state, effect.chan] at sleeps
    exact sleeps
  · apply (guarded p).moves
    · show t.state p = .running
      rw [effect.state]
      exact runs
    · intro q chan held impossible
      exact nomatch impossible
    · intro k held
      rcases (effect.holds k).mp held with before | same
      · exact .inl before
      · rw [same]
        exact .inr rfl
    · exact effect.counted ((guarded p).counted runs)
    · show Fits _ _ _ p (Function.update t.place p place p)
      rw [Function.update_self]
      exact fits effect

/-- A process releases a lock and goes on, perhaps at the end of a `wakeup`. -/
theorem release {l : ℓ} {place : SleepPlace κ ℓ} (guarded : Guarded ptable steps s) (runs : s.state p = .running)
    (given : s.release p l = some t)
    (ends : ∀ r chan held, step = .woke r chan held → r = p ∧ held = s.holds p ∧ s.holds p ptable ∧
      ∀ q, ¬ (s.state q = .sleeping ∧ s.chan q = some chan))
    (fits : Released s p l t → Fits ptable (steps ++ [step]) (t.goto p place) p place) :
    Guarded ptable (steps ++ [step]) (t.goto p place) := by
  have effect := release_spec given
  intro q
  by_cases same : q = p
  · subst same
    apply (guarded q).moves
    · show t.state q = .running
      rw [effect.state]
      exact runs
    · intro r chan held woke
      exact (ends r chan held woke).1
    · intro k held
      exact .inl ((effect.holds k).mp held).1
    · exact effect.counted ((guarded q).counted runs)
    · show Fits _ _ _ q (Function.update t.place q place q)
      rw [Function.update_self]
      exact fits effect
  · apply (guarded q).apart ((effect.others q same).goto same)
    · intro r chan held lk woke known stake
      obtain ⟨rfl, rfl, table, nobody⟩ := ends r chan held woke
      rcases stake with owns | owns | sleeps
      · exact holds_unique known owns
      · exact holds_unique table owns
      · refine absurd ⟨?_, sleeps.2⟩ (nobody q)
        exact (effect.others q same).slept sleeps.1
    · intro _ r chan sleeps
      change t.state r = .sleeping ∧ t.chan r = some chan at sleeps
      rw [effect.state, effect.chan] at sleeps
      exact sleeps

/-- A process leaves its processor in `sched`. -/
theorem sched {state : RunState} {place : SleepPlace κ ℓ} (guarded : Guarded ptable steps s)
    (runs : s.state p = .running) (left : LockState.sched ptable s p state = some t) (rests : state ≠ .running)
    (fits : Scheduled ptable s p state t → Fits ptable (steps ++ [.quiet]) (t.goto p place) p place)
    (sleeper : state = .sleeping → ∃ chan lk, place = .asleep chan lk) :
    Guarded ptable (steps ++ [.quiet]) (t.goto p place) := by
  have effect := sched_spec left
  apply guarded.silent (fun q other => (effect.others q other).goto other)
  · intro r chan held
    exact nofun
  · intro q other held
    exact absurd (holds_unique held effect.held) other
  · have here : (t.goto p place).place p = place := Function.update_self _ _ _
    apply Attentive.rests
    · show t.state p ≠ .running
      rw [effect.state]
      exact rests
    · exact effect.none ((guarded p).counted runs)
    · rw [here]
      exact fits effect
    · intro sleeps
      change t.state p = .sleeping at sleeps
      rw [effect.state] at sleeps
      rw [here]
      exact sleeper sleeps

/-- A scheduler switches to a process. -/
theorem dispatch (guarded : Guarded ptable steps s) (scheduling : s.owner ptable = some .scheduler)
    (ready : s.state p = .runnable) :
    Guarded ptable (steps ++ [.begins p ptable])
      { s with
        owner := Function.update s.owner ptable (some (.process p))
        ncli := Function.update s.ncli p 1
        state := Function.update s.state p .running } := by
  have rests : s.state p ≠ .running := by
    rw [ready]
    exact nofun
  have only : ∀ l, Function.update s.owner ptable (some (LockOwner.process p)) l = some (.process p) ↔ l = ptable := by
    intro l
    by_cases same : l = ptable
    · subst same
      rw [Function.update_self]
      exact ⟨fun _ => rfl, fun _ => rfl⟩
    · rw [Function.update_of_ne same]
      exact ⟨fun held => absurd held ((guarded p).idle rests l), fun equal => absurd equal same⟩
  have others : ∀ q, q ≠ p → Apart s
      { s with
        owner := Function.update s.owner ptable (some (.process p))
        ncli := Function.update s.ncli p 1
        state := Function.update s.state p .running } q := by
    intro q other
    refine ⟨?_, Function.update_of_ne other _ _, .inl (Function.update_of_ne other _ _), rfl, rfl⟩
    intro l
    show Function.update s.owner ptable (some (LockOwner.process p)) l = some (.process q) ↔ s.holds q l
    by_cases same : l = ptable
    · subst same
      rw [Function.update_self, holds, scheduling]
      constructor
      · intro owners
        injection owners with owners
        injection owners with owners
        exact absurd owners.symm other
      · exact nofun
    · rw [Function.update_of_ne same]
      rfl
  apply guarded.silent others
  · exact fun _ _ _ => nofun
  · intro q _ held
    rw [holds, scheduling] at held
    exact nomatch held
  · have held : Function.update s.owner ptable (some (LockOwner.process p)) ptable = some (.process p) :=
      (only ptable).mpr rfl
    apply (guarded p).moves
    · exact Function.update_self _ _ _
    · exact fun _ _ _ => nofun
    · intro l owned
      rw [(only l).mp owned]
      exact .inr rfl
    · refine ⟨[ptable], List.nodup_singleton _, ?_, ?_⟩
      · intro l
        rw [List.mem_singleton]
        exact (only l).symm
      · exact (Function.update_self p 1 s.ncli).symm
    · have fits := (guarded p).fits
      show Fits _ _ _ p (s.place p)
      cases place : s.place p with
      | running => trivial
      | relocking lk => trivial
      | waking chan => trivial
      | exited => trivial
      | asleep chan lk =>
        refine ⟨?_, fun _ => held⟩
        intro sleeps
        change Function.update s.state p .running p = .sleeping at sleeps
        rw [Function.update_self] at sleeps
        exact nomatch sleeps
      | yielded back =>
        rw [place] at fits
        exact ⟨fun _ => held, fits.2⟩
      | entered chan lk =>
        rw [place] at fits
        exact absurd fits ((guarded p).idle rests lk)
      | awake lk =>
        rw [place] at fits
        exact absurd fits ((guarded p).idle rests lk)
      | locked chan lk =>
        rw [place] at fits
        exact absurd fits.1 ((guarded p).idle rests lk)
      | falling chan lk =>
        rw [place] at fits
        exact absurd fits.1 ((guarded p).idle rests ptable)
      | scanning chan =>
        rw [place] at fits
        exact absurd fits ((guarded p).idle rests ptable)
      | scanned chan =>
        rw [place] at fits
        exact absurd fits.1 ((guarded p).idle rests ptable)
      | yielding back =>
        rw [place] at fits
        exact absurd fits.1 ((guarded p).idle rests ptable)

/-- A step of a scheduler. -/
theorem plan {event : LockEvent π κ ℓ} (guarded : Guarded ptable steps s)
    (taken : LockState.plan ptable s event = some (step, t)) : Guarded ptable (steps ++ [step]) t := by
  cases event with
  | schedule =>
    change (if s.owner ptable = none then _ else none) = _ at taken
    by_cases free : s.owner ptable = none
    · rw [if_pos free] at taken
      cases taken
      apply guarded.regime
      · intro q
        show Function.update s.owner ptable (some .scheduler) ptable ≠ some (.process q)
        rw [Function.update_self]
        exact nofun
      · intro q held
        rw [holds, free] at held
        exact nomatch held
    · rw [if_neg free] at taken
      exact nomatch taken
  | idle =>
    change (if s.owner ptable = some .scheduler then _ else none) = _ at taken
    by_cases scheduling : s.owner ptable = some .scheduler
    · rw [if_pos scheduling] at taken
      cases taken
      apply guarded.regime
      · intro q
        show Function.update s.owner ptable none ptable ≠ some (.process q)
        rw [Function.update_self]
        exact nofun
      · intro q held
        rw [holds, scheduling] at held
        exact nomatch held
    · rw [if_neg scheduling] at taken
      exact nomatch taken
  | dispatch p =>
    change (if s.owner ptable = some .scheduler ∧ s.state p = .runnable then _ else none) = _ at taken
    by_cases ready : s.owner ptable = some .scheduler ∧ s.state p = .runnable
    · rw [if_pos ready] at taken
      cases taken
      exact guarded.dispatch ready.1 ready.2
    · rw [if_neg ready] at taken
      exact nomatch taken
  | _ => exact nomatch taken

end Guarded

end Locks

section Waking

variable [DecidableEq κ]

/-- `wakeup1` leaves nobody asleep on the channel. -/
theorem nobody (s : LockState π κ ℓ) (chan : κ) (q : π) :
    ¬ ((s.wakeup1 chan).state q = .sleeping ∧ (s.wakeup1 chan).chan q = some chan) := by
  rintro ⟨sleeps, channel⟩
  change (if s.state q = .sleeping ∧ s.chan q = some chan then RunState.runnable else s.state q) = _ at sleeps
  by_cases on : s.state q = .sleeping ∧ s.chan q = some chan
  · rw [if_pos on] at sleeps
    exact nomatch sleeps
  · rw [if_neg on] at sleeps
    exact on ⟨sleeps, channel⟩

/-- What `wakeup1` does to each process. -/
theorem apart_wakeup1 (s : LockState π κ ℓ) (chan : κ) (q : π) : Apart s (s.wakeup1 chan) q where
  holds := fun _ => Iff.rfl
  ncli := rfl
  state := by
    show (if s.state q = .sleeping ∧ s.chan q = some chan then RunState.runnable else s.state q) = _ ∨ _
    by_cases on : s.state q = .sleeping ∧ s.chan q = some chan
    · refine .inr ⟨on.1, ?_⟩
      exact if_pos on
    · exact .inl (if_neg on)
  chan := rfl
  place := rfl

/-- A process that holds `ptable.lock` wakes the sleepers of a channel, in `wakeup` or on its own. -/
theorem Guarded.wakeup1 [DecidableEq π] {place : SleepPlace κ ℓ} {chan : κ} (guarded : Guarded ptable steps s) (runs : s.state p = .running)
    (held : s.holds p ptable) (ends : ∀ r c locks, step = .woke r c locks → r = p ∧ c = chan ∧ locks = s.holds p)
    (fits : Fits ptable (steps ++ [step]) ((s.wakeup1 chan).goto p place) p place) :
    Guarded ptable (steps ++ [step]) ((s.wakeup1 chan).goto p place) := by
  have apart := fun r => apart_wakeup1 s chan r
  have still : ((s.wakeup1 chan).goto p place).state p = .running := (apart p).running.mpr runs
  intro q
  by_cases same : q = p
  · subst same
    apply (guarded q).moves still
    · intro r c locks woke
      exact (ends r c locks woke).1
    · intro k owns
      exact .inl owns
    · exact (guarded q).counted runs
    · show Fits _ _ _ q (Function.update s.place q place q)
      rw [Function.update_self]
      exact fits
  · apply (guarded q).apart ((apart q).goto same)
    · intro r c locks lk woke known stake
      obtain ⟨rfl, rfl, rfl⟩ := ends r c locks woke
      rcases stake with owns | owns | sleeps
      · exact holds_unique known owns
      · exact holds_unique held owns
      · exact absurd sleeps (nobody s c q)
    · intro _ r c sleeps
      exact (apart r).sleepers sleeps

end Waking

section Steps

variable [DecidableEq π] [DecidableEq κ] [DecidableEq ℓ]

namespace Guarded

/-- A lock step of a function. -/
theorem go (guarded : Guarded ptable steps s) (runs : s.state p = .running)
    (taken : LockState.go ptable s p = some (step, t)) : Guarded ptable (steps ++ [step]) t := by
  have fits := (guarded p).fits
  unfold LockState.go at taken
  cases place : s.place p with
  | running =>
    rw [place] at taken
    exact nomatch taken
  | exited =>
    rw [place] at taken
    exact nomatch taken
  | entered chan lk =>
    rw [place] at taken fits
    obtain ⟨u, acquired, same⟩ := Option.map_eq_some_iff.mp taken
    cases same
    apply guarded.acquire runs acquired
    intro effect
    refine ⟨(effect.holds lk).mpr (.inl fits), (effect.holds ptable).mpr (.inr rfl), ?_⟩
    rintro rfl
    exact effect.free p fits
  | locked chan lk =>
    rw [place] at taken fits
    obtain ⟨u, released, same⟩ := Option.map_eq_some_iff.mp taken
    cases same
    apply guarded.release runs released
    · exact fun _ _ _ => nofun
    · intro effect
      exact ⟨(effect.holds ptable).mpr fits.2, ((guarded p).sections lk chan fits.1).quiet⟩
  | falling chan lk =>
    rw [place] at taken fits
    obtain ⟨u, left, same⟩ := Option.map_eq_some_iff.mp taken
    cases same
    have set := guarded.chan runs (some chan)
    apply set.sched runs left nofun
    · intro effect
      refine ⟨?_, ?_⟩
      · intro _
        refine ⟨?_, fits.2.quiet⟩
        show u.chan p = some chan
        rw [effect.chan]
        exact Function.update_self _ _ _
      · intro impossible
        change u.state p = .running at impossible
        rw [effect.state] at impossible
        exact nomatch impossible
    · intro _
      exact ⟨chan, lk, rfl⟩
  | asleep chan lk =>
    rw [place] at taken fits
    have cleared := guarded.chan runs none
    by_cases table : lk = ptable
    · simp only [if_pos table] at taken
      cases taken
      apply cleared.goto runs
      · exact fun _ _ _ => nofun
      · show s.holds p lk
        rw [table]
        exact fits.2 runs
    · simp only [if_neg table] at taken
      obtain ⟨u, released, same⟩ := Option.map_eq_some_iff.mp taken
      cases same
      exact cleared.release runs released (fun _ _ _ => nofun) fun _ => trivial
  | relocking lk =>
    rw [place] at taken
    obtain ⟨u, acquired, same⟩ := Option.map_eq_some_iff.mp taken
    cases same
    exact guarded.acquire runs acquired fun effect => (effect.holds lk).mpr (.inr rfl)
  | awake lk =>
    rw [place] at taken
    cases taken
    exact guarded.goto runs (fun _ _ _ => nofun) trivial
  | waking chan =>
    rw [place] at taken
    obtain ⟨u, acquired, same⟩ := Option.map_eq_some_iff.mp taken
    cases same
    exact guarded.acquire runs acquired fun effect => (effect.holds ptable).mpr (.inr rfl)
  | scanning chan =>
    rw [place] at taken fits
    cases taken
    exact guarded.wakeup1 runs fits (fun _ _ _ => nofun) ⟨fits, nobody s chan⟩
  | scanned chan =>
    rw [place] at taken fits
    obtain ⟨u, released, same⟩ := Option.map_eq_some_iff.mp taken
    cases same
    apply guarded.release runs released
    · intro r channel held woke
      injection woke with caller channels locks
      subst caller channels locks
      exact ⟨rfl, rfl, fits.1, fits.2⟩
    · intro _
      trivial
  | yielding back =>
    rw [place] at taken fits
    obtain ⟨u, left, same⟩ := Option.map_eq_some_iff.mp taken
    cases same
    apply guarded.sched runs left nofun
    · intro effect
      refine ⟨?_, fits.2⟩
      intro impossible
      change u.state p = .running at impossible
      rw [effect.state] at impossible
      exact nomatch impossible
    · exact nofun
  | yielded back =>
    rw [place] at taken fits
    obtain ⟨u, released, same⟩ := Option.map_eq_some_iff.mp taken
    cases same
    exact guarded.release runs released (fun _ _ _ => nofun) fun _ => lockless_fits fits.2

/-- A step of a process. -/
theorem act {event : LockEvent π κ ℓ} (guarded : Guarded ptable steps s) (actor : event.actor = some p)
    (runs : s.state p = .running) (taken : LockState.act ptable s event = some (step, t)) :
    Guarded ptable (steps ++ [step]) t := by
  cases event with
  | schedule => exact nomatch actor
  | dispatch q => exact nomatch actor
  | idle => exact nomatch actor
  | go q =>
    cases actor
    exact guarded.go runs taken
  | acquire q l =>
    cases actor
    obtain ⟨place, taken⟩ := at_running taken
    obtain ⟨u, acquired, same⟩ := Option.map_eq_some_iff.mp taken
    cases same
    have effect := acquire_spec acquired
    have stays : t.goto p .running = t := goto_self (by rw [effect.place, place])
    have moved : Guarded ptable (steps ++ [.begins p l]) (t.goto p .running) :=
      guarded.acquire runs acquired fun _ => trivial
    rw [stays] at moved
    exact moved
  | release q l =>
    cases actor
    obtain ⟨place, taken⟩ := at_running taken
    obtain ⟨u, released, same⟩ := Option.map_eq_some_iff.mp taken
    cases same
    have effect := release_spec released
    have stays : t.goto p .running = t := goto_self (by rw [effect.place, place])
    have moved : Guarded ptable (steps ++ [.quiet]) (t.goto p .running) :=
      guarded.release runs released (fun _ _ _ => nofun) fun _ => trivial
    rw [stays] at moved
    exact moved
  | sleep q chan lk =>
    cases actor
    obtain ⟨place, taken⟩ := at_running taken
    by_cases held : s.holds p lk
    · rw [if_pos held] at taken
      cases taken
      apply guarded.goto runs
      · exact fun _ _ _ => nofun
      · by_cases table : lk = ptable
        · rw [if_pos table]
          subst table
          exact ⟨held, ((guarded p).sections lk chan held).quiet⟩
        · rw [if_neg table]
          exact held
    · rw [if_neg held] at taken
      exact nomatch taken
  | wakeup q chan =>
    cases actor
    obtain ⟨place, taken⟩ := at_running taken
    cases taken
    exact guarded.goto runs (fun _ _ _ => nofun) trivial
  | wakeup1 q chan =>
    cases actor
    obtain ⟨place, taken⟩ := at_running taken
    by_cases held : s.holds p ptable
    · rw [if_pos held] at taken
      cases taken
      have stays : (s.wakeup1 chan).goto p .running = s.wakeup1 chan := goto_self place
      have moved : Guarded ptable (steps ++ [.woke p chan (s.holds p)]) ((s.wakeup1 chan).goto p .running) := by
        apply guarded.wakeup1 runs held
        · intro r c locks woke
          injection woke with caller channels held
          exact ⟨caller.symm, channels.symm, held.symm⟩
        · trivial
      rw [stays] at moved
      exact moved
    · rw [if_neg held] at taken
      exact nomatch taken
  | rouse q r =>
    cases actor
    obtain ⟨place, taken⟩ := at_running taken
    by_cases sleeps : s.holds p ptable ∧ s.state r = .sleeping
    · rw [if_pos sleeps] at taken
      cases taken
      exact guarded.rouse sleeps.2
    · rw [if_neg sleeps] at taken
      exact nomatch taken
  | yield q =>
    cases actor
    change (if s.ncli p = 0 then _ else none) = _ at taken
    by_cases zero : s.ncli p = 0
    · rw [if_pos zero] at taken
      obtain ⟨u, acquired, same⟩ := Option.map_eq_some_iff.mp taken
      cases same
      apply guarded.acquire runs acquired
      intro effect
      exact ⟨(effect.holds ptable).mpr (.inr rfl), guarded.free runs zero⟩
    · rw [if_neg zero] at taken
      exact nomatch taken
  | exit q =>
    cases actor
    obtain ⟨place, taken⟩ := at_running taken
    obtain ⟨u, left, same⟩ := Option.map_eq_some_iff.mp taken
    cases same
    exact guarded.sched runs left nofun (fun _ => trivial) nofun

/-- Every step keeps the invariant. -/
theorem next {event : LockEvent π κ ℓ} (guarded : Guarded ptable steps s)
    (taken : LockState.next ptable s event = some (step, t)) : Guarded ptable (steps ++ [step]) t := by
  unfold LockState.next at taken
  cases actor : event.actor with
  | none =>
    simp only [actor] at taken
    exact guarded.plan taken
  | some p =>
    simp only [actor] at taken
    by_cases runs : s.state p = .running
    · rw [if_pos runs] at taken
      exact guarded.act actor runs taken
    · rw [if_neg runs] at taken
      exact nomatch taken

/-- The invariant holds after every run. -/
theorem run (run : Run (Step ptable) (LockState.start : LockState π κ ℓ) steps s) : Guarded ptable steps s := by
  apply run.history (fun steps s => Guarded ptable steps s) start
  rintro before t step u _ guarded ⟨event, taken⟩
  exact guarded.next taken

end Guarded

end Steps

/-- A lock operation that succeeds before a label is not that of a return from `sleep`. -/
theorem map_returned {op : Option (LockState π κ ℓ)} {label : LockStep π κ ℓ}
    {after : LockState π κ ℓ → LockState π κ ℓ} {lk : ℓ}
    (taken : op.map (fun u => (label, after u)) = some (.returned p lk, t)) (other : label ≠ .returned p lk) :
    False := by
  obtain ⟨u, _, same⟩ := Option.map_eq_some_iff.mp taken
  injection same with labels
  exact other labels

/-- `sleep` returns by a step of its own. -/
theorem act_returned [DecidableEq π] [DecidableEq κ] [DecidableEq ℓ] {event : LockEvent π κ ℓ} {lk : ℓ}
    (taken : act ptable s event = some (.returned p lk, t)) :
    s.place p = .awake lk ∧ t = s.goto p .running := by
  cases event with
  | schedule => exact nomatch taken
  | dispatch q => exact nomatch taken
  | idle => exact nomatch taken
  | acquire q l =>
    obtain ⟨_, taken⟩ := at_running taken
    exact (map_returned taken nofun).elim
  | release q l =>
    obtain ⟨_, taken⟩ := at_running taken
    exact (map_returned taken nofun).elim
  | exit q =>
    obtain ⟨_, taken⟩ := at_running taken
    exact (map_returned taken nofun).elim
  | wakeup q chan =>
    obtain ⟨_, taken⟩ := at_running taken
    exact nomatch taken
  | sleep q chan l =>
    obtain ⟨_, taken⟩ := at_running taken
    split at taken
    · exact nomatch taken
    · exact nomatch taken
  | wakeup1 q chan =>
    obtain ⟨_, taken⟩ := at_running taken
    split at taken
    · exact nomatch taken
    · exact nomatch taken
  | rouse q r =>
    obtain ⟨_, taken⟩ := at_running taken
    split at taken
    · exact nomatch taken
    · exact nomatch taken
  | yield q =>
    change (if s.ncli q = 0 then _ else none) = _ at taken
    split at taken
    · exact (map_returned taken nofun).elim
    · exact nomatch taken
  | go q =>
    change LockState.go ptable s q = _ at taken
    unfold LockState.go at taken
    cases place : s.place q with
    | running =>
      rw [place] at taken
      exact nomatch taken
    | exited =>
      rw [place] at taken
      exact nomatch taken
    | scanning chan =>
      rw [place] at taken
      exact nomatch taken
    | asleep chan l =>
      rw [place] at taken
      change (if l = ptable then _ else _) = _ at taken
      split at taken
      · exact nomatch taken
      · exact (map_returned taken nofun).elim
    | awake l =>
      rw [place] at taken
      cases taken
      exact ⟨place, rfl⟩
    | _ =>
      rw [place] at taken
      dsimp only at taken
      exact (map_returned taken nofun).elim

/-- The step in which `sleep` returns is the last of `sleep`, without a lock operation. -/
theorem returned_cases [DecidableEq π] [DecidableEq κ] [DecidableEq ℓ] {event : LockEvent π κ ℓ} {lk : ℓ}
    (taken : next ptable s event = some (.returned p lk, t)) :
    s.place p = .awake lk ∧ t = s.goto p .running := by
  unfold LockState.next at taken
  cases actor : event.actor with
  | none =>
    simp only [actor] at taken
    cases event with
    | schedule =>
      change (if s.owner ptable = none then _ else none) = _ at taken
      split at taken
      · exact nomatch taken
      · exact nomatch taken
    | dispatch q =>
      change (if s.owner ptable = some .scheduler ∧ s.state q = .runnable then _ else none) = _ at taken
      split at taken
      · exact nomatch taken
      · exact nomatch taken
    | idle =>
      change (if s.owner ptable = some .scheduler then _ else none) = _ at taken
      split at taken
      · exact nomatch taken
      · exact nomatch taken
    | _ => exact nomatch taken
  | some r =>
    simp only [actor] at taken
    by_cases runs : s.state r = .running
    · rw [if_pos runs] at taken
      exact act_returned taken
    · rw [if_neg runs] at taken
      exact nomatch taken

/-- A process that sleeps through `sleep(chan, lk)` has seen no `wakeup(chan)` run to completion by
another holder of `lk` since it last began to hold `lk`, which is when the critical section began in
which it called `sleep`; and whoever returns from `sleep` holds `lk`. -/
theorem no_lost_wakeup [DecidableEq π] [DecidableEq κ] [DecidableEq ℓ]
    (run : Run (Step ptable) (LockState.start : LockState π κ ℓ) steps s) :
    (∀ p chan lk, s.Sleeps p chan lk → Unwoken steps p chan lk) ∧
      ∀ p lk t, Step ptable s (.returned p lk) t → t.holds p lk := by
  have guarded := Guarded.run run
  refine ⟨?_, ?_⟩
  · rintro p chan lk ⟨sleeps, place⟩
    have fits := (guarded p).fits
    rw [place] at fits
    exact (fits.1 sleeps).2
  · rintro p lk t ⟨event, taken⟩
    obtain ⟨place, same⟩ := returned_cases taken
    have fits := (guarded p).fits
    rw [place] at fits
    rw [same]
    exact fits

/-- A run in which a process takes the lock 1, wakes the sleepers on the channel 0 and sleeps on it. -/
theorem sleeps_after_own_wakeup : ∃ (s : LockState Nat Nat Nat) (held : Nat → Prop),
    Run (Step 0) LockState.start
      ([.quiet, .begins 0 0, .quiet, .begins 0 1, .quiet, .begins 0 0, .quiet] ++ [.woke 0 0 held] ++ [.quiet] ++
        [.begins 0 0] ++ [.quiet] ++ [.quiet]) s ∧ held 1 ∧ s.Sleeps 0 0 1 :=
  ⟨_, _, .cons ⟨.schedule, rfl⟩ <| .cons ⟨.dispatch 0, rfl⟩ <| .cons ⟨.go 0, rfl⟩ <|
    .cons ⟨.acquire 0 1, rfl⟩ <| .cons ⟨.wakeup 0 0, rfl⟩ <| .cons ⟨.go 0, rfl⟩ <| .cons ⟨.go 0, rfl⟩ <|
    .cons ⟨.go 0, rfl⟩ <| .cons ⟨.sleep 0 0 1, rfl⟩ <| .cons ⟨.go 0, rfl⟩ <| .cons ⟨.go 0, rfl⟩ <|
    .cons ⟨.go 0, rfl⟩ <| .nil _, rfl, rfl, rfl⟩

/-- In that run the sleeper has seen no wakeup by another holder of the lock. -/
theorem no_lost_wakeup_own : ∃ (s : LockState Nat Nat Nat) (steps : List (LockStep Nat Nat Nat)),
    s.Sleeps 0 0 1 ∧ Unwoken steps 0 0 1 :=
  have ⟨s, _, run, _, sleeps⟩ := sleeps_after_own_wakeup
  ⟨s, _, sleeps, (no_lost_wakeup run).1 0 0 1 sleeps⟩

/-- It has seen its own: a wakeup by a holder of the lock was completed in the critical section in
which the process called `sleep`. -/
theorem own_wakeup_seen : ¬ ∀ (steps : List (LockStep Nat Nat Nat)) (s : LockState Nat Nat Nat),
    Run (Step 0) LockState.start steps s → ∀ p chan lk, s.Sleeps p chan lk →
      Since (fun step => step = .begins p lk) (fun step => ∀ q held, step = .woke q chan held → ¬ held lk) steps := by
  intro claim
  obtain ⟨s, held, run, known, sleeps⟩ := sleeps_after_own_wakeup
  have since := claim _ s run 0 0 1 sleeps
  have before := (((since.last nofun).2.last nofun).2.last (by simp)).2.last nofun
  have woke := (before.2.last nofun).1
  exact woke 0 held rfl known

end LockState

end Xv6
