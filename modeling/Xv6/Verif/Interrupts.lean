import Xv6.Spinlock
import Xv6.Lib.Runs

/-!
# Locks, interrupts and kernel stacks

In every run of any number of processors each spin lock has one holder, interrupts are off where a
lock is held or wanted, `ncli` counts what the code on the processor has still to undo, each kernel
stack is in use on one processor at most, and no check of `acquire`, `release`, `popcli`, `sched` or
`sched_thread` panics. At its outermost `popcli` an LWP finds the interrupt flag it had at its
outermost `pushcli`, on whichever processor it is by then.
-/

namespace Xv6

variable {γ ℓ π : Type}

/-! ## What holds between actions -/

/-- A processor has set the lock word and not cleared it. -/
def HasLock (place : LockingPlace ℓ) (held : List (LockName ℓ)) (lk : LockName ℓ) : Prop :=
  lk ∈ held ∨ place = .recording lk ∨ place = .releasing lk

/-- A processor is in `acquire` or `release` for the lock. -/
def Handling (place : LockingPlace ℓ) (lk : LockName ℓ) : Prop :=
  place = .spinning lk ∨ place = .recording lk ∨ place = .releasing lk

/-- The lock words say who holds the locks. -/
structure LocksExact (place : γ → LockingPlace ℓ) (held : γ → List (LockName ℓ)) (lock : LockName ℓ → Spinlock γ) :
    Prop where
  /-- `locked` says that some processor has the lock. -/
  locked : ∀ lk, (lock lk).locked = true ↔ ∃ c, HasLock (place c) (held c) lk
  /-- One processor at most has it. -/
  unique : ∀ c c' lk, HasLock (place c) (held c) lk → HasLock (place c') (held c') lk → c = c'
  /-- `cpu` is the processor that holds it. -/
  owner : ∀ c lk, (lock lk).cpu = some c ↔ lk ∈ held c
  /-- No lock is held twice. -/
  nodup : ∀ c, (held c).Nodup
  /-- A lock that is being acquired or released is not held. -/
  apart : ∀ c lk, Handling (place c) lk → lk ∉ held c

/-- How many calls of `pushcli` the code on a processor has still to undo. -/
def nesting (place : LockingPlace ℓ) (held : List (LockName ℓ)) (pushed : Nat) : Nat :=
  held.length + pushed +
    match place with
    | .outside => 0
    | _ => 1

/-- `ncli` is the nesting, and interrupts are off where it is positive. -/
structure NestingExact (cpu : InterruptState) (depth : Nat) : Prop where
  ncli : cpu.ncli = depth
  /-- Interrupts are off inside `pushcli`. -/
  off : 0 < depth → cpu.interruptible = false

/-- The slots of LWPs on processors. -/
structure SlotsExact (proc : γ → Option π) (state : π → RunState) (held : γ → List (LockName ℓ)) : Prop where
  /-- An LWP is on one processor at most. -/
  once : ∀ c c' p, proc c = some p → proc c' = some p → c = c'
  /-- An LWP on a processor is `RUNNING`, or the processor holds `ptable.lock`. -/
  staying : ∀ c p, proc c = some p → state p = .running ∨
    .ptable ∈ held c ∧ (state p = .runnable ∨ state p = .sleeping ∨ state p = .zombie)
  /-- A `RUNNING` LWP is on a processor. -/
  found : ∀ p, state p = .running → ∃ c, proc c = some p

/-- What a saved context says of the flag its LWP had at its outermost `pushcli`. -/
def SavedContext.Keeps (context : SavedContext) (entered : Option Bool) : Prop :=
  match context with
  | .forkret => entered = none
  | .switched intena => ∀ flag, entered = some flag → intena = flag

/-- `intena` and the saved interrupt flags. -/
structure FlagsExact (cpu : γ → InterruptState) (proc : γ → Option π) (context : π → SavedContext)
    (frames : π → List Bool) (idleFrames : γ → List Bool) (entered : π → Option Bool) : Prop where
  /-- Interrupts are on in user space. -/
  user : ∀ c p, proc c = some p → frames p = [] → (cpu c).interruptible = true
  /-- `intena` is the flag the LWP had at its outermost `pushcli`. -/
  inside : ∀ c p flag, proc c = some p → 0 < (cpu c).ncli → entered p = some flag → (cpu c).intena = flag
  /-- The saved contexts keep this flag. -/
  saved : ∀ p, (∀ c, proc c ≠ some p) → (context p).Keeps (entered p)
  /-- Interrupts were on before every trap. -/
  trapped : ∀ p, ∀ flag ∈ frames p, flag = true
  /-- Also on the stacks of the schedulers. -/
  idleTrapped : ∀ c, ∀ flag ∈ idleFrames c, flag = true
  /-- An LWP that is on no processor is in the kernel. -/
  resting : ∀ p, (∀ c, proc c ≠ some p) → frames p ≠ []

namespace Multiprocessor

/-- The nesting of the code on a processor. -/
def depth (k : Multiprocessor γ ℓ π) (c : γ) : Nat := nesting (k.machine.place c) (k.held c) (k.pushed c)

/-- What holds between actions. -/
structure Exact (k : Multiprocessor γ ℓ π) : Prop where
  locks : LocksExact k.machine.place k.held k.machine.lock
  /-- The nesting. -/
  nested : ∀ c, NestingExact (k.machine.cpu c) (k.depth c)
  slots : SlotsExact k.machine.proc k.machine.state k.held
  flags : FlagsExact k.machine.cpu k.machine.proc k.machine.context k.machine.frames k.machine.idleFrames k.entered

end Multiprocessor

/-! ## Locks -/

/-- A processor in neither function has the locks it holds. -/
theorem hasLock_outside {held : List (LockName ℓ)} {lk : LockName ℓ} : HasLock .outside held lk ↔ lk ∈ held := by
  simp [HasLock]

/-- A processor that waits for a lock has the locks it holds. -/
theorem hasLock_spinning {held : List (LockName ℓ)} {wanted lk : LockName ℓ} :
    HasLock (.spinning wanted) held lk ↔ lk ∈ held := by
  simp [HasLock]

/-- A processor that is at a lock it does not hold. -/
theorem handling_outside {lk : LockName ℓ} : ¬Handling .outside lk := by
  simp [Handling]

/-- No other processor has a lock that one has. -/
theorem LocksExact.others {place : γ → LockingPlace ℓ} {held : γ → List (LockName ℓ)}
    {lock : LockName ℓ → Spinlock γ} (exact : LocksExact place held lock) {c : γ} {lk : LockName ℓ}
    (has : HasLock (place c) (held c) lk) : ∀ c', c' ≠ c → ¬HasLock (place c') (held c') lk :=
  fun c' other has' => other (exact.unique c' c lk has' has)

section Locks

variable [DecidableEq γ] [DecidableEq ℓ] {place : γ → LockingPlace ℓ} {held : γ → List (LockName ℓ)}
  {lock : LockName ℓ → Spinlock γ}

omit [DecidableEq ℓ] in
/-- A processor starts to wait for a lock it does not hold. -/
theorem LocksExact.spin (exact : LocksExact place held lock) {c : γ} {lk : LockName ℓ} (outside : place c = .outside)
    (free : lk ∉ held c) : LocksExact (Function.update place c (.spinning lk)) held lock := by
  have same : ∀ c' lk', HasLock (Function.update place c (.spinning lk) c') (held c') lk' ↔
      HasLock (place c') (held c') lk' := by
    intro c' lk'
    by_cases here : c' = c
    · subst here
      rw [Function.update_self, outside, hasLock_spinning, hasLock_outside]
    · rw [Function.update_of_ne here]
  refine ⟨?_, ?_, exact.owner, exact.nodup, ?_⟩
  · intro lk'
    simp only [same]
    exact exact.locked lk'
  · intro c₁ c₂ lk' first second
    exact exact.unique c₁ c₂ lk' ((same c₁ lk').mp first) ((same c₂ lk').mp second)
  · intro c' lk' handling
    by_cases here : c' = c
    · subst here
      rw [Function.update_self] at handling
      have wanted : lk' = lk := by simpa [Handling, eq_comm] using handling
      rw [wanted]
      exact free
    · rw [Function.update_of_ne here] at handling
      exact exact.apart c' lk' handling

/-- A processor changes what it has of one lock that no other processor has. -/
theorem LocksExact.change (exact : LocksExact place held lock) {lk : LockName ℓ} (c : γ) (place' : LockingPlace ℓ)
    (held' : List (LockName ℓ)) (lock' : Spinlock γ) (others : ∀ c', c' ≠ c → ¬HasLock (place c') (held c') lk)
    (locked : lock'.locked = true ↔ HasLock place' held' lk) (owner : lock'.cpu = if lk ∈ held' then some c else none)
    (kept : ∀ lk', lk' ≠ lk → (lk' ∈ held' ↔ lk' ∈ held c))
    (had : ∀ lk', lk' ≠ lk → (HasLock place' held' lk' ↔ HasLock (place c) (held c) lk')) (nodup : held'.Nodup)
    (apart : ∀ lk', Handling place' lk' → lk' ∉ held') :
    LocksExact (Function.update place c place') (Function.update held c held') (Function.update lock lk lock') := by
  have here : ∀ lk', HasLock (Function.update place c place' c) (Function.update held c held' c) lk' ↔
      HasLock place' held' lk' := by
    intro lk'
    rw [Function.update_self, Function.update_self]
  have there : ∀ c' lk', c' ≠ c → (HasLock (Function.update place c place' c') (Function.update held c held' c') lk' ↔
      HasLock (place c') (held c') lk') := by
    intro c' lk' other
    rw [Function.update_of_ne other, Function.update_of_ne other]
  refine ⟨?_, ?_, ?_, ?_, ?_⟩
  · intro lk'
    by_cases same : lk' = lk
    · subst same
      rw [Function.update_self, locked]
      constructor
      · intro has
        exact ⟨c, (here lk').mpr has⟩
      · intro some
        obtain ⟨c', has⟩ := some
        by_cases local' : c' = c
        · subst local'
          exact (here lk').mp has
        · exact absurd ((there c' lk' local').mp has) (others c' local')
    · rw [Function.update_of_ne same, exact.locked lk']
      constructor
      · intro some
        obtain ⟨c', has⟩ := some
        by_cases local' : c' = c
        · subst local'
          exact ⟨c', (here lk').mpr ((had lk' same).mpr has)⟩
        · exact ⟨c', (there c' lk' local').mpr has⟩
      · intro some
        obtain ⟨c', has⟩ := some
        by_cases local' : c' = c
        · subst local'
          exact ⟨c', (had lk' same).mp ((here lk').mp has)⟩
        · exact ⟨c', (there c' lk' local').mp has⟩
  · intro c₁ c₂ lk' first second
    have before : ∀ c', lk' ≠ lk → HasLock (Function.update place c place' c') (Function.update held c held' c') lk' →
        HasLock (place c') (held c') lk' := by
      intro c' other has
      by_cases local' : c' = c
      · subst local'
        exact (had lk' other).mp ((here lk').mp has)
      · exact (there c' lk' local').mp has
    by_cases same : lk' = lk
    · subst same
      have mine : ∀ c', HasLock (Function.update place c place' c') (Function.update held c held' c') lk' → c' = c := by
        intro c' has
        by_contra other
        exact others c' other ((there c' lk' other).mp has)
      rw [mine c₁ first, mine c₂ second]
    · exact exact.unique c₁ c₂ lk' (before c₁ same first) (before c₂ same second)
  · intro c' lk'
    by_cases same : lk' = lk
    · subst same
      rw [Function.update_self, owner]
      by_cases local' : c' = c
      · subst local'
        rw [Function.update_self]
        by_cases holds : lk' ∈ held' <;> simp [holds]
      · rw [Function.update_of_ne local']
        have unheld : lk' ∉ held c' := fun holds => others c' local' (.inl holds)
        by_cases holds : lk' ∈ held' <;> simp [holds, unheld, Ne.symm local']
    · rw [Function.update_of_ne same, exact.owner]
      by_cases local' : c' = c
      · subst local'
        rw [Function.update_self]
        exact (kept lk' same).symm
      · rw [Function.update_of_ne local']
  · intro c'
    by_cases local' : c' = c
    · subst local'
      rw [Function.update_self]
      exact nodup
    · rw [Function.update_of_ne local']
      exact exact.nodup c'
  · intro c' lk' handling
    by_cases local' : c' = c
    · subst local'
      rw [Function.update_self] at handling ⊢
      exact apart lk' handling
    · rw [Function.update_of_ne local'] at handling ⊢
      exact exact.apart c' lk' handling

/-- A processor takes a free lock in `acquire`. -/
theorem LocksExact.take (exact : LocksExact place held lock) {c : γ} {lk : LockName ℓ}
    (spinning : place c = .spinning lk) (free : (lock lk).locked = false) :
    LocksExact (Function.update place c (.recording lk)) held
      (Function.update lock lk { lock lk with locked := true }) := by
  have none : ∀ c', ¬HasLock (place c') (held c') lk := by
    intro c' has
    have locked := (exact.locked lk).mpr ⟨c', has⟩
    rw [free] at locked
    contradiction
  have unheld := exact.apart c lk (.inl spinning)
  have unowned : (lock lk).cpu = Option.none := by
    cases owner : (lock lk).cpu with
    | none => rfl
    | some c' => exact absurd (.inl ((exact.owner c' lk).mp owner)) (none c')
  have changed := exact.change c (.recording lk) (held c) { lock lk with locked := true } (fun c' _ => none c') (by simp [HasLock]) (by simp [unheld, unowned])
    (fun lk' _ => Iff.rfl)
    (by
      intro lk' other
      rw [spinning]
      simp [HasLock, Ne.symm other])
    (exact.nodup c)
    (by
      intro lk' handling
      have same : lk' = lk := by simpa [Handling, eq_comm] using handling
      rw [same]
      exact unheld)
  rwa [Function.update_eq_self] at changed

/-- A processor holds the lock at the end of `acquire`. -/
theorem LocksExact.record (exact : LocksExact place held lock) {c : γ} {lk : LockName ℓ}
    (recording : place c = .recording lk) :
    LocksExact (Function.update place c .outside) (Function.update held c (lk :: held c))
      (Function.update lock lk { lock lk with cpu := some c }) := by
  have has : HasLock (place c) (held c) lk := .inr (.inl recording)
  have locked := (exact.locked lk).mpr ⟨c, has⟩
  have unheld := exact.apart c lk (.inr (.inl recording))
  refine exact.change _ _ _ _ (exact.others has) ?_ ?_ ?_ ?_ (List.nodup_cons.mpr ⟨unheld, exact.nodup c⟩) ?_
  · simp [HasLock, locked]
  · simp
  · intro lk' other
    simp [other]
  · intro lk' other
    rw [recording]
    simp [HasLock, other, Ne.symm other]
  · intro lk' handling
    exact (handling_outside handling).elim

/-- A processor no longer holds the lock in `release`. -/
theorem LocksExact.leave (exact : LocksExact place held lock) {c : γ} {lk : LockName ℓ} (outside : place c = .outside)
    (holds : lk ∈ held c) :
    LocksExact (Function.update place c (.releasing lk)) (Function.update held c ((held c).erase lk))
      (Function.update lock lk { lock lk with cpu := none }) := by
  have has : HasLock (place c) (held c) lk := .inl holds
  have locked := (exact.locked lk).mpr ⟨c, has⟩
  have nodup := exact.nodup c
  refine exact.change _ _ _ _ (exact.others has) ?_ ?_ ?_ ?_ (nodup.erase lk) ?_
  · simp [HasLock, locked]
  · rw [if_neg nodup.not_mem_erase]
  · intro lk' other
    exact List.mem_erase_of_ne other
  · intro lk' other
    rw [outside]
    simp [HasLock, List.mem_erase_of_ne other, Ne.symm other]
  · intro lk' handling
    have same : lk' = lk := by simpa [Handling, eq_comm] using handling
    rw [same]
    exact nodup.not_mem_erase

/-- A processor clears the lock word at the end of `release`. -/
theorem LocksExact.clear (exact : LocksExact place held lock) {c : γ} {lk : LockName ℓ}
    (releasing : place c = .releasing lk) :
    LocksExact (Function.update place c .outside) held
      (Function.update lock lk { lock lk with locked := false }) := by
  have has : HasLock (place c) (held c) lk := .inr (.inr releasing)
  have unheld := exact.apart c lk (.inr (.inr releasing))
  have unowned : (lock lk).cpu = none := by
    cases owner : (lock lk).cpu with
    | none => rfl
    | some c' =>
      have holds := (exact.owner c' lk).mp owner
      have same := exact.unique c' c lk (.inl holds) has
      rw [same] at holds
      exact absurd holds unheld
  have changed := exact.change c .outside (held c) { lock lk with locked := false } (exact.others has)
    (by simp [HasLock, unheld]) (by simp [unheld, unowned])
    (fun lk' _ => Iff.rfl)
    (by
      intro lk' other
      rw [releasing]
      simp [HasLock, Ne.symm other])
    (exact.nodup c) (fun lk' handling => (handling_outside handling).elim)
  rwa [Function.update_eq_self] at changed

end Locks

/-! ## Nesting and flags -/

/-- The interrupt state after a `popcli` that does not panic. -/
def InterruptState.pop (cpu : InterruptState) : InterruptState :=
  ⟨cpu.ncli - 1 == 0 && cpu.intena, cpu.ncli - 1, cpu.intena⟩

section Nesting

variable [DecidableEq γ]

variable {cpu : γ → InterruptState} {proc : γ → Option π} {context : π → SavedContext} {frames : π → List Bool}
  {idleFrames : γ → List Bool} {entered entered' : π → Option Bool} {state : π → RunState}
  {held : γ → List (LockName ℓ)}

/-- The interrupt state of one processor changes, and what its LWP noted. -/
theorem FlagsExact.setCpu (exact : FlagsExact cpu proc context frames idleFrames entered)
    (slots : SlotsExact proc state held) {c : γ} (cpu' : InterruptState)
    (same : ∀ p, proc c ≠ some p → entered' p = entered p)
    (user : ∀ p, proc c = some p → frames p = [] → cpu'.interruptible = true)
    (inside : ∀ p flag, proc c = some p → 0 < cpu'.ncli → entered' p = some flag → cpu'.intena = flag) :
    FlagsExact (Function.update cpu c cpu') proc context frames idleFrames entered' := by
  refine ⟨?_, ?_, ?_, exact.trapped, exact.idleTrapped, exact.resting⟩
  · intro c' p on outside
    by_cases here : c' = c
    · subst here
      rw [Function.update_self]
      exact user p on outside
    · rw [Function.update_of_ne here]
      exact exact.user c' p on outside
  · intro c' p flag on nested noted
    by_cases here : c' = c
    · subst here
      rw [Function.update_self] at nested ⊢
      exact inside p flag on nested noted
    · rw [Function.update_of_ne here] at nested ⊢
      have elsewhere : proc c ≠ some p := fun on' => here (slots.once c' c p on on')
      rw [same p elsewhere] at noted
      exact exact.inside c' p flag on nested noted
  · intro p off
    rw [same p (off c)]
    exact exact.saved p off

end Nesting

namespace Processors

variable [DecidableEq γ] {m : Processors γ ℓ π} {c : γ}

/-- A new LWP starts without `intena`. -/
theorem resume_forkret {p : π} (saved : m.context p = .forkret) : m.resume c p = m := by
  unfold resume
  rw [saved]

/-- An LWP that left takes its `intena` along. -/
theorem resume_switched {p : π} {intena : Bool} (saved : m.context p = .switched intena) :
    m.resume c p = m.setCpu c { m.cpu c with intena } := by
  unfold resume
  rw [saved]

/-- `popcli` inside `pushcli`. -/
theorem popcli_nested (nested : 0 < (m.cpu c).ncli) (off : (m.cpu c).interruptible = false) :
    m.popcli c = .ok (m.setCpu c (m.cpu c).pop) := by
  unfold popcli InterruptState.pop
  have bounded : ¬(m.cpu c).ncli - 1 < 0 := by omega
  simp only [off, Bool.false_eq_true, if_false, if_neg bounded]

/-- The interrupt state after `pushcli`. -/
theorem pushcli_self : (m.pushcli c).cpu c =
    ⟨false, (m.cpu c).ncli + 1, if (m.cpu c).ncli = 0 then (m.cpu c).interruptible else (m.cpu c).intena⟩ := by
  change Function.update m.cpu c _ c = _
  rw [Function.update_self]

/-- `holding` inside `pushcli` changes nothing. -/
theorem holding_nested [DecidableEq ℓ] [DecidableEq π] {lk : LockName ℓ} (nested : 0 < (m.cpu c).ncli) (off : (m.cpu c).interruptible = false) :
    m.holding c lk = .ok ((m.lock lk).locked && (m.lock lk).cpu == some c, m) := by
  have pushed : (m.pushcli c).cpu c = ⟨false, (m.cpu c).ncli + 1, (m.cpu c).intena⟩ := by
    rw [pushcli_self, if_neg (by omega)]
  have popped : (m.pushcli c).popcli c = .ok m := by
    rw [popcli_nested (by rw [pushed]; dsimp only; omega) (by rw [pushed]), pushed]
    have inner : (m.cpu c).ncli + 1 - 1 = (m.cpu c).ncli := by omega
    have positive : ((m.cpu c).ncli == 0) = false := by
      rw [beq_eq_false_iff_ne]
      omega
    have same : (⟨false, (m.cpu c).ncli, (m.cpu c).intena⟩ : InterruptState) = m.cpu c := by
      rw [← off]
    unfold pushcli setCpu InterruptState.pop
    simp only [inner, positive, Bool.false_and, Function.update_idem, same, Function.update_eq_self]
  unfold holding
  simp only [popped]
  rfl

end Processors

/-- `popcli` on a processor with a call to undo. -/
theorem NestingExact.pop {cpu : InterruptState} {depth : Nat} (exact : NestingExact cpu (depth + 1)) :
    NestingExact cpu.pop depth := by
  have count := exact.ncli
  refine ⟨?_, ?_⟩
  · change cpu.ncli - 1 = _
    omega
  · intro nested
    have inner : (cpu.ncli - 1 == 0) = false := by
      rw [beq_eq_false_iff_ne]
      omega
    unfold InterruptState.pop
    rw [inner, Bool.false_and]

/-- The locks that one processor holds change, where its LWP is `RUNNING` or `ptable.lock` is not released. -/
theorem SlotsExact.holding [DecidableEq γ] {proc : γ → Option π} {state : π → RunState}
    {held : γ → List (LockName ℓ)} (exact : SlotsExact proc state held) {c : γ} {held' : List (LockName ℓ)}
    (safe : (∀ p, proc c = some p → state p = .running) ∨ (.ptable ∈ held c → .ptable ∈ held')) :
    SlotsExact proc state (Function.update held c held') := by
  refine ⟨exact.once, ?_, exact.found⟩
  intro c' p on
  by_cases here : c' = c
  · subst here
    rw [Function.update_self]
    rcases exact.staying c' p on with running | ⟨holds, leaving⟩
    · exact .inl running
    · rcases safe with running | kept
      · exact .inl (running p on)
      · exact .inr ⟨kept holds, leaving⟩
  · rw [Function.update_of_ne here]
    exact exact.staying c' p on

/-- The state of an LWP changes, to one that may be on the processors it is on. -/
theorem SlotsExact.setState [DecidableEq π] {proc : γ → Option π} {state : π → RunState}
    {held : γ → List (LockName ℓ)} (exact : SlotsExact proc state held) (p : π) (new : RunState)
    (on : ∀ c, proc c = some p → new = .running ∨
      .ptable ∈ held c ∧ (new = .runnable ∨ new = .sleeping ∨ new = .zombie))
    (found : new = .running → ∃ c, proc c = some p) : SlotsExact proc (Function.update state p new) held := by
  refine ⟨exact.once, ?_, ?_⟩
  · intro c q on'
    by_cases same : q = p
    · subst same
      rw [Function.update_self]
      exact on c on'
    · rw [Function.update_of_ne same]
      exact exact.staying c q on'
  · intro q running
    by_cases same : q = p
    · subst same
      rw [Function.update_self] at running
      exact found running
    · rw [Function.update_of_ne same] at running
      exact exact.found q running

/-- A slot in one of the other states is on no processor. -/
theorem SlotsExact.absent {proc : γ → Option π} {state : π → RunState} {held : γ → List (LockName ℓ)}
    (exact : SlotsExact proc state held) {p : π} (resting : state p = .unused ∨ state p = .embryo) (c : γ) :
    proc c ≠ some p := by
  intro on
  rcases exact.staying c p on with running | ⟨_, leaving⟩
  · rw [running] at resting
    simp at resting
  · rcases resting with same | same
    · rw [same] at leaving
      simp at leaving
    · rw [same] at leaving
      simp at leaving

section Entering

variable [DecidableEq γ] {proc : γ → Option π} {c : γ} {p : π}

/-- Who is on the processors when an idle one takes up an LWP that was on none. -/
theorem on_enter (absent : ∀ c', proc c' ≠ some p) {c' : γ} {q : π}
    (on : Function.update proc c (some p) c' = some q) :
    c' = c ∧ q = p ∨ c' ≠ c ∧ q ≠ p ∧ proc c' = some q := by
  by_cases here : c' = c
  · rw [here, Function.update_self] at on
    exact .inl ⟨here, (Option.some.inj on).symm⟩
  · rw [Function.update_of_ne here] at on
    refine .inr ⟨here, ?_, on⟩
    intro same
    rw [same] at on
    exact absent c' on

/-- Who is on no processor then was on none before. -/
theorem off_enter (idle : proc c = none) {q : π} (off : ∀ c', Function.update proc c (some p) c' ≠ some q) :
    ∀ c', proc c' ≠ some q := by
  intro c' on
  by_cases here : c' = c
  · rw [here, idle] at on
    contradiction
  · have absent := off c'
    rw [Function.update_of_ne here] at absent
    exact absent on

/-- The slots when an idle processor takes up an LWP. -/
theorem SlotsExact.enter [DecidableEq π] {state : π → RunState} {held : γ → List (LockName ℓ)}
    (exact : SlotsExact proc state held) (idle : proc c = none) (absent : ∀ c', proc c' ≠ some p) :
    SlotsExact (Function.update proc c (some p)) (Function.update state p .running) held := by
  refine ⟨?_, ?_, ?_⟩
  · intro c₁ c₂ q first second
    rcases on_enter absent first with ⟨here, same⟩ | ⟨_, other, on₁⟩
    · rcases on_enter absent second with ⟨here', _⟩ | ⟨_, other, _⟩
      · rw [here, here']
      · exact absurd same other
    · rcases on_enter absent second with ⟨_, same⟩ | ⟨_, _, on₂⟩
      · exact absurd same other
      · exact exact.once c₁ c₂ q on₁ on₂
  · intro c' q on
    rcases on_enter absent on with ⟨_, same⟩ | ⟨_, other, on'⟩
    · rw [same, Function.update_self]
      exact .inl rfl
    · rw [Function.update_of_ne other]
      exact exact.staying c' q on'
  · intro q running
    by_cases same : q = p
    · rw [same]
      exact ⟨c, Function.update_self c _ _⟩
    · rw [Function.update_of_ne same] at running
      obtain ⟨c', on⟩ := exact.found q running
      have other : c' ≠ c := by
        intro here
        rw [here, idle] at on
        contradiction
      refine ⟨c', ?_⟩
      rw [Function.update_of_ne other]
      exact on

/-- The flags when an idle processor takes up an LWP. -/
theorem FlagsExact.enter {cpu : γ → InterruptState} {context : π → SavedContext} {frames : π → List Bool}
    {idleFrames : γ → List Bool} {entered : π → Option Bool}
    (exact : FlagsExact cpu proc context frames idleFrames entered) (cpu' : InterruptState) (idle : proc c = none)
    (absent : ∀ c', proc c' ≠ some p) (resting : frames p ≠ [])
    (inside : ∀ flag, 0 < cpu'.ncli → entered p = some flag → cpu'.intena = flag) :
    FlagsExact (Function.update cpu c cpu') (Function.update proc c (some p)) context frames idleFrames entered := by
  refine ⟨?_, ?_, ?_, exact.trapped, exact.idleTrapped, ?_⟩
  · intro c' q on user
    rcases on_enter absent on with ⟨_, same⟩ | ⟨other, _, on'⟩
    · rw [same] at user
      exact absurd user resting
    · rw [Function.update_of_ne other]
      exact exact.user c' q on' user
  · intro c' q flag on nested noted
    rcases on_enter absent on with ⟨here, same⟩ | ⟨other, _, on'⟩
    · rw [same] at noted
      rw [here, Function.update_self] at nested ⊢
      exact inside flag nested noted
    · rw [Function.update_of_ne other] at nested ⊢
      exact exact.inside c' q flag on' nested noted
  · intro q off
    exact exact.saved q (off_enter idle off)
  · intro q off
    exact exact.resting q (off_enter idle off)

end Entering

/-! ## Actions -/

namespace Multiprocessor

variable [DecidableEq γ] [DecidableEq ℓ] [DecidableEq π] {k : Multiprocessor γ ℓ π} {c : γ}

/-- An action happens and keeps what holds between actions. -/
def Keeps (k : Multiprocessor γ ℓ π) (c : γ) (action : KernelAction ℓ π) : Prop :=
  ∃ k', k.act c action = .ok k' ∧ k'.Exact

omit [DecidableEq γ] [DecidableEq ℓ] [DecidableEq π] in
/-- A processor that has called `pushcli` is not in user space. -/
theorem Exact.inside (exact : k.Exact) (nested : 0 < k.depth c) {p : π} (on : k.machine.proc c = some p) :
    k.machine.frames p ≠ [] := by
  intro user
  have enabled := exact.flags.user c p on user
  rw [(exact.nested c).off nested] at enabled
  contradiction

omit [DecidableEq γ] [DecidableEq ℓ] in
/-- What is noted at a `pushcli` is noted for the LWP on the processor. -/
theorem entering_other {p : π} (elsewhere : k.machine.proc c ≠ some p) : k.entering c p = k.entered p := by
  unfold entering
  cases on : k.machine.proc c with
  | none => rfl
  | some q =>
    have other : p ≠ q := by
      intro same
      rw [on, same] at elsewhere
      exact elsewhere rfl
    dsimp only
    split_ifs
    · rw [Function.update_of_ne other]
    · rfl

omit [DecidableEq ℓ] in
/-- `pushcli` keeps the flags exact. -/
theorem Exact.pushedFlags (exact : k.Exact) (kernel : k.InKernel c) :
    FlagsExact (k.machine.pushcli c).cpu k.machine.proc k.machine.context k.machine.frames k.machine.idleFrames
      (k.entering c) := by
  refine exact.flags.setCpu exact.slots _ (fun p => entering_other) ?_ ?_
  · intro p on user
    exact absurd user (kernel.2 p on)
  · intro p flag on _ noted
    unfold entering at noted
    rw [on] at noted
    dsimp only at noted ⊢
    by_cases outermost : (k.machine.cpu c).ncli = 0
    · rw [if_pos outermost, Function.update_self] at noted
      rw [if_pos outermost]
      exact Option.some.inj noted
    · rw [if_neg outermost] at noted
      rw [if_neg outermost]
      have count := (exact.nested c).ncli
      exact exact.flags.inside c p flag on (by omega) noted

omit [DecidableEq ℓ] [DecidableEq π] in
/-- The interrupt state and what the code has called change on one processor. -/
theorem Exact.renested (exact : k.Exact) (c : γ) (cpu : InterruptState) (place : LockingPlace ℓ)
    (held : List (LockName ℓ)) (pushed : Nat) (here : NestingExact cpu (nesting place held pushed)) (c' : γ) :
    NestingExact (Function.update k.machine.cpu c cpu c')
      (nesting (Function.update k.machine.place c place c') (Function.update k.held c held c')
        (Function.update k.pushed c pushed c')) := by
  by_cases same : c' = c
  · rw [same, Function.update_self, Function.update_self, Function.update_self, Function.update_self]
    exact here
  · rw [Function.update_of_ne same, Function.update_of_ne same, Function.update_of_ne same,
      Function.update_of_ne same]
    exact exact.nested c'

omit [DecidableEq γ] [DecidableEq ℓ] [DecidableEq π] in
/-- The nesting outside `acquire` and `release`. -/
theorem Exact.ncli_outside (exact : k.Exact) (outside : k.machine.place c = .outside) :
    (k.machine.cpu c).ncli = (k.held c).length + k.pushed c := by
  have count := (exact.nested c).ncli
  unfold depth nesting at count
  rw [outside] at count
  simpa using count

/-- `pushcli`. -/
theorem Exact.pushcli (exact : k.Exact) (allowed : k.Allowed c .pushcli) : k.Keeps c .pushcli := by
  obtain ⟨kernel, _⟩ := allowed
  refine ⟨_, rfl, exact.locks, ?_, exact.slots, exact.pushedFlags kernel⟩
  have count := exact.ncli_outside kernel.1
  have changed := exact.renested c ((k.machine.pushcli c).cpu c) (k.machine.place c) (k.held c) (k.pushed c + 1) (by
    rw [Processors.pushcli_self, kernel.1]
    refine ⟨?_, fun _ => rfl⟩
    change (k.machine.cpu c).ncli + 1 = ((k.held c).length + (k.pushed c + 1) : Nat)
    omega)
  rw [Function.update_eq_self, Function.update_eq_self, Processors.pushcli_self] at changed
  exact changed

omit [DecidableEq ℓ] [DecidableEq π] in
/-- The flags after the outermost or an inner `popcli`. -/
theorem Exact.poppedFlags (exact : k.Exact) (nested : 0 < k.depth c) :
    FlagsExact (Function.update k.machine.cpu c (k.machine.cpu c).pop) k.machine.proc k.machine.context
      k.machine.frames k.machine.idleFrames k.entered := by
  refine exact.flags.setCpu exact.slots _ (fun _ _ => rfl) ?_ ?_
  · intro p on user
    exact absurd user (exact.inside nested on)
  · intro p flag on still noted
    change 0 < (k.machine.cpu c).ncli - 1 at still
    exact exact.flags.inside c p flag on (by omega) noted

omit [DecidableEq γ] [DecidableEq ℓ] [DecidableEq π] in
/-- A processor in a `pushcli` of its own has one more to undo. -/
theorem depth_pushed (pushed : 0 < k.pushed c) :
    k.depth c = nesting (k.machine.place c) (k.held c) (k.pushed c - 1) + 1 := by
  unfold depth nesting
  omega

/-- What `popcli` does. -/
theorem Exact.popcli_acts (exact : k.Exact) (allowed : k.Allowed c .popcli) : k.act c .popcli = .ok { k with
    machine := k.machine.setCpu c (k.machine.cpu c).pop
    pushed := Function.update k.pushed c (k.pushed c - 1) } := by
  obtain ⟨_, _, pushed⟩ := allowed
  have deep := depth_pushed pushed
  have nested := exact.nested c
  have count := nested.ncli
  change (k.machine.popcli c >>= _) = _
  rw [Processors.popcli_nested (by omega) (nested.off (by omega))]
  rfl

/-- `popcli`. -/
theorem Exact.popcli (exact : k.Exact) (allowed : k.Allowed c .popcli) : k.Keeps c .popcli := by
  have deep := depth_pushed allowed.2.2
  refine ⟨_, exact.popcli_acts allowed, exact.locks, ?_, exact.slots, exact.poppedFlags (by omega)⟩
  have nested := exact.nested c
  rw [deep] at nested
  have changed := exact.renested c _ _ _ _ nested.pop
  rw [Function.update_eq_self, Function.update_eq_self] at changed
  exact changed

/-- `acquire` up to the loop. -/
theorem Exact.acquire (exact : k.Exact) {lk : LockName ℓ} (allowed : k.Allowed c (.acquire lk)) :
    k.Keeps c (.acquire lk) := by
  obtain ⟨kernel, _, free⟩ := allowed
  have count := exact.ncli_outside kernel.1
  have pushed := Processors.pushcli_self (m := k.machine) (c := c)
  have unheld : ((k.machine.lock lk).locked && (k.machine.lock lk).cpu == some c) = false := by
    have unowned : ¬(k.machine.lock lk).cpu = some c := fun owner => free ((exact.locks.owner c lk).mp owner)
    rw [Bool.and_eq_false_iff]
    exact .inr (beq_eq_false_iff_ne.mpr unowned)
  have looked : (k.machine.pushcli c).holding c lk = .ok (false, k.machine.pushcli c) := by
    rw [Processors.holding_nested (by rw [pushed]; dsimp only; omega) (by rw [pushed])]
    exact congrArg (fun r => Except.ok (r, k.machine.pushcli c)) unheld
  have spinning : k.machine.acquire c lk = .ok ((k.machine.pushcli c).setPlace c (.spinning lk)) := by
    unfold Processors.acquire
    rw [looked]
    rfl
  have acted : k.act c (.acquire lk) = .ok { k with
      machine := (k.machine.pushcli c).setPlace c (.spinning lk)
      entered := k.entering c } := by
    change (k.machine.acquire c lk >>= _) = _
    rw [spinning]
    rfl
  refine ⟨_, acted, exact.locks.spin kernel.1 free, ?_, exact.slots, exact.pushedFlags kernel⟩
  have changed := exact.renested c ((k.machine.pushcli c).cpu c) (.spinning lk) (k.held c) (k.pushed c) (by
    rw [pushed]
    refine ⟨?_, fun _ => rfl⟩
    change (k.machine.cpu c).ncli + 1 = ((k.held c).length + k.pushed c + 1 : Nat)
    omega)
  rw [Function.update_eq_self, Function.update_eq_self, pushed] at changed
  exact changed

/-- A turn of the loop of `acquire`. -/
theorem Exact.xchg (exact : k.Exact) {lk : LockName ℓ} (allowed : k.Allowed c (.xchg lk)) : k.Keeps c (.xchg lk) := by
  refine ⟨_, rfl, ?_⟩
  unfold Processors.xchg
  cases taken : (k.machine.lock lk).locked with
  | true =>
    have same : k.machine.setLock lk { k.machine.lock lk with locked := true } = k.machine := by
      rw [← taken]
      unfold Processors.setLock
      rw [Function.update_eq_self]
    rw [if_pos rfl, same]
    exact exact
  | false =>
    rw [if_neg Bool.false_ne_true]
    refine ⟨exact.locks.take allowed taken, ?_, exact.slots, exact.flags⟩
    have nested := exact.nested c
    unfold depth at nested
    rw [allowed] at nested
    have changed := exact.renested c _ (.recording lk) _ _ nested
    rw [Function.update_eq_self, Function.update_eq_self, Function.update_eq_self] at changed
    exact changed

/-- The end of `acquire`. -/
theorem Exact.record (exact : k.Exact) {lk : LockName ℓ} (allowed : k.Allowed c (.record lk)) :
    k.Keeps c (.record lk) := by
  refine ⟨_, rfl, exact.locks.record allowed, ?_, ?_, exact.flags⟩
  · have nested := exact.nested c
    unfold depth nesting at nested
    rw [allowed] at nested
    have changed := exact.renested c (k.machine.cpu c) .outside (lk :: k.held c) (k.pushed c) (by
      have deep : nesting .outside (lk :: k.held c) (k.pushed c) = (k.held c).length + k.pushed c + 1 := by
        change (k.held c).length + 1 + k.pushed c + 0 = _
        omega
      rw [deep]
      exact nested)
    rw [Function.update_eq_self, Function.update_eq_self] at changed
    exact changed
  · exact exact.slots.holding (.inr fun holds => List.mem_cons_of_mem _ holds)

/-- `release` up to `lk->cpu = 0`. -/
theorem Exact.release (exact : k.Exact) {lk : LockName ℓ} (allowed : k.Allowed c (.release lk)) :
    k.Keeps c (.release lk) := by
  obtain ⟨kernel, staying, holds⟩ := allowed
  have count := exact.ncli_outside kernel.1
  have some := List.length_pos_of_mem holds
  have nested := exact.nested c
  unfold depth nesting at nested
  rw [kernel.1] at nested
  have locked := (exact.locks.locked lk).mpr ⟨c, .inl holds⟩
  have owner := (exact.locks.owner c lk).mpr holds
  have looked : k.machine.holding c lk = .ok (true, k.machine) := by
    rw [Processors.holding_nested (by omega) (nested.off (by omega)), locked, owner]
    simp
  have acted : k.act c (.release lk) = .ok { k with
      machine := (k.machine.setLock lk { k.machine.lock lk with cpu := none }).setPlace c (.releasing lk)
      held := Function.update k.held c ((k.held c).erase lk) } := by
    change (k.machine.release c lk >>= _) = _
    unfold Processors.release
    rw [looked]
    rfl
  refine ⟨_, acted, exact.locks.leave kernel.1 holds, ?_, exact.slots.holding (.inl staying), exact.flags⟩
  have changed := exact.renested c (k.machine.cpu c) (.releasing lk) ((k.held c).erase lk) (k.pushed c) (by
    have deep : nesting (.releasing lk) ((k.held c).erase lk) (k.pushed c) = (k.held c).length + k.pushed c + 0 := by
      change ((k.held c).erase lk).length + k.pushed c + 1 = _
      rw [List.length_erase_of_mem holds]
      omega
    rw [deep]
    exact nested)
  rw [Function.update_eq_self, Function.update_eq_self] at changed
  exact changed

omit [DecidableEq γ] [DecidableEq ℓ] [DecidableEq π] in
/-- A processor at the end of `release` has one more to undo. -/
theorem depth_releasing {lk : LockName ℓ} (releasing : k.machine.place c = .releasing lk) :
    k.depth c = nesting .outside (k.held c) (k.pushed c) + 1 := by
  unfold depth
  rw [releasing]
  rfl

/-- What the end of `release` does. -/
theorem Exact.unlock_acts (exact : k.Exact) {lk : LockName ℓ} (allowed : k.Allowed c (.unlock lk)) :
    k.act c (.unlock lk) = .ok (k.onMachine (((k.machine.setLock lk
      { k.machine.lock lk with locked := false }).setPlace c .outside).setCpu c (k.machine.cpu c).pop)) := by
  have deep := depth_releasing allowed
  have nested := exact.nested c
  have count := nested.ncli
  change (k.machine.unlock c lk >>= _) = _
  unfold Processors.unlock
  rw [Processors.popcli_nested (m := (k.machine.setLock lk
    { k.machine.lock lk with locked := false }).setPlace c .outside) (by
      change 0 < (k.machine.cpu c).ncli
      omega) (nested.off (by omega))]
  rfl

/-- The end of `release`. -/
theorem Exact.unlock (exact : k.Exact) {lk : LockName ℓ} (allowed : k.Allowed c (.unlock lk)) :
    k.Keeps c (.unlock lk) := by
  have deep := depth_releasing allowed
  refine ⟨_, exact.unlock_acts allowed, exact.locks.clear allowed, ?_, exact.slots, exact.poppedFlags (by omega)⟩
  have nested := exact.nested c
  rw [deep] at nested
  have changed := exact.renested c _ _ _ _ nested.pop
  rw [Function.update_eq_self, Function.update_eq_self] at changed
  exact changed

omit [DecidableEq γ] [DecidableEq ℓ] in
/-- Only the states of LWPs change. -/
theorem Exact.setState (exact : k.Exact) {p : π} {new : RunState}
    (slots : SlotsExact k.machine.proc (Function.update k.machine.state p new) k.held) :
    (k.onMachine (k.machine.setState p new)).Exact :=
  ⟨exact.locks, exact.nested, slots, exact.flags⟩

omit [DecidableEq γ] [DecidableEq ℓ] [DecidableEq π] in
/-- One processor holds `ptable.lock`. -/
theorem Exact.onlyHolder (exact : k.Exact) (holds : .ptable ∈ k.held c) {c' : γ} (holds' : .ptable ∈ k.held c') :
    c' = c :=
  exact.locks.unique c' c .ptable (.inl holds') (.inl holds)

/-- An LWP that sets its own state. -/
theorem Exact.become (exact : k.Exact) {state : RunState} (allowed : k.Allowed c (.become state)) :
    k.Keeps c (.become state) := by
  obtain ⟨_, _, holds, leaving, p, on⟩ := allowed
  have acted : k.act c (.become state) = .ok (k.onMachine (k.machine.setState p state)) := by
    unfold act
    rw [on]
  refine ⟨_, acted, exact.setState (exact.slots.setState _ _ ?_ fun _ => ⟨c, on⟩)⟩
  intro c' on'
  rw [exact.slots.once c' c p on' on]
  exact .inr ⟨holds, leaving⟩

/-- An LWP is woken up. -/
theorem Exact.rouse (exact : k.Exact) {p : π} (allowed : k.Allowed c (.rouse p)) : k.Keeps c (.rouse p) := by
  obtain ⟨_, _, sleeping⟩ := allowed
  refine ⟨_, rfl, exact.setState (exact.slots.setState _ _ ?_ fun same => by cases same)⟩
  intro c' on
  rcases exact.slots.staying c' p on with running | ⟨holds, _⟩
  · rw [sleeping] at running
    contradiction
  · exact .inr ⟨holds, .inl rfl⟩

/-- A new LWP becomes `RUNNABLE`. -/
theorem Exact.ready (exact : k.Exact) {p : π} (allowed : k.Allowed c (.ready p)) : k.Keeps c (.ready p) := by
  obtain ⟨_, _, embryo⟩ := allowed
  refine ⟨_, rfl, exact.setState (exact.slots.setState _ _ ?_ fun same => by cases same)⟩
  intro c' on
  exact absurd on (exact.slots.absent (.inr embryo) c')

/-- A new LWP is given up. -/
theorem Exact.discard (exact : k.Exact) {p : π} (allowed : k.Allowed c (.discard p)) : k.Keeps c (.discard p) := by
  obtain ⟨_, embryo⟩ := allowed
  refine ⟨_, rfl, exact.setState (exact.slots.setState _ _ ?_ fun same => by cases same)⟩
  intro c' on
  exact absurd on (exact.slots.absent (.inr embryo) c')

/-- A zombie is on no processor when another LWP holds `ptable.lock`. -/
theorem Exact.reap (exact : k.Exact) {p : π} (allowed : k.Allowed c (.reap p)) : k.Keeps c (.reap p) := by
  obtain ⟨_, staying, holds, zombie⟩ := allowed
  refine ⟨_, rfl, exact.setState (exact.slots.setState _ _ ?_ fun same => by cases same)⟩
  intro c' on
  rcases exact.slots.staying c' p on with running | ⟨holds', _⟩
  · rw [zombie] at running
    contradiction
  · rw [exact.onlyHolder holds holds'] at on
    have running := staying p on
    rw [zombie] at running
    contradiction

/-- `allocproc`. -/
theorem Exact.allocproc (exact : k.Exact) {p : π} (allowed : k.Allowed c (.allocproc p)) :
    k.Keeps c (.allocproc p) := by
  obtain ⟨_, _, _, unused⟩ := allowed
  have absent := exact.slots.absent (.inl unused)
  have slots := exact.slots.setState p .embryo (fun c' on => absurd on (absent c'))
    (fun same => by cases same)
  refine ⟨_, rfl, exact.locks, exact.nested, slots, ?_, ?_, ?_, ?_, exact.flags.idleTrapped, ?_⟩
  · intro c' q on user
    have other : q ≠ p := by
      intro same
      rw [same] at on
      exact absent c' on
    change Function.update k.machine.frames p [true] q = [] at user
    rw [Function.update_of_ne other] at user
    exact exact.flags.user c' q on user
  · intro c' q flag on nested noted
    have other : q ≠ p := by
      intro same
      rw [same] at on
      exact absent c' on
    change Function.update k.entered p none q = some flag at noted
    rw [Function.update_of_ne other] at noted
    exact exact.flags.inside c' q flag on nested noted
  · intro q off
    change (Function.update k.machine.context p .forkret q).Keeps (Function.update k.entered p none q)
    by_cases same : q = p
    · rw [same, Function.update_self, Function.update_self]
      rfl
    · rw [Function.update_of_ne same, Function.update_of_ne same]
      exact exact.flags.saved q off
  · intro q flag mem
    change flag ∈ Function.update k.machine.frames p [true] q at mem
    by_cases same : q = p
    · rw [same, Function.update_self] at mem
      exact List.mem_singleton.mp mem
    · rw [Function.update_of_ne same] at mem
      exact exact.flags.trapped q flag mem
  · intro q off
    change Function.update k.machine.frames p [true] q ≠ []
    by_cases same : q = p
    · rw [same, Function.update_self]
      exact List.cons_ne_nil _ _
    · rw [Function.update_of_ne same]
      exact exact.flags.resting q off

/-! ## Switches -/

/-- The checks of `sched` pass with `ptable.lock` only. -/
theorem Exact.mayLeave (exact : k.Exact) (kernel : k.InKernel c) (holds : k.held c = [.ptable])
    (popped : k.pushed c = 0) {p : π} (leaving : k.machine.state p ≠ .running) (name : String) :
    k.machine.mayLeave c p name = .ok k.machine := by
  have count := exact.ncli_outside kernel.1
  rw [holds, popped] at count
  have one : (k.machine.cpu c).ncli = 1 := by simpa using count
  have nested := exact.nested c
  have deep := nested.ncli
  have off := nested.off (by omega)
  have held : .ptable ∈ k.held c := by
    rw [holds]
    exact List.mem_singleton_self _
  have locked := (exact.locks.locked .ptable).mpr ⟨c, .inl held⟩
  have owner := (exact.locks.owner c .ptable).mpr held
  have looked : k.machine.holding c .ptable = .ok (true, k.machine) := by
    rw [Processors.holding_nested (by omega) off, locked, owner]
    simp
  unfold Processors.mayLeave
  rw [looked]
  dsimp only [bind, Except.bind]
  rw [if_neg (Bool.noConfusion), if_neg (not_not.mpr one), if_neg leaving, off, if_neg Bool.false_ne_true]
  rfl

/-- The kernel when an LWP has left a processor. -/
def left (k : Multiprocessor γ ℓ π) (c : γ) (p : π) : Multiprocessor γ ℓ π :=
  k.onMachine { k.machine with
    context := Function.update k.machine.context p (.switched (k.machine.cpu c).intena)
    proc := Function.update k.machine.proc c none }

omit [DecidableEq ℓ] in
/-- An LWP leaves a processor with `ptable.lock`. -/
theorem Exact.left (exact : k.Exact) (kernel : k.InKernel c) {p : π} (on : k.machine.proc c = some p)
    (leaving : k.machine.state p ≠ .running) (nested : 0 < (k.machine.cpu c).ncli) : (k.left c p).Exact := by
  have still : ∀ c' q, Function.update k.machine.proc c none c' = some q → c' ≠ c ∧ k.machine.proc c' = some q := by
    intro c' q on'
    by_cases same : c' = c
    · rw [same, Function.update_self] at on'
      contradiction
    · rw [Function.update_of_ne same] at on'
      exact ⟨same, on'⟩
  have before : ∀ q, q ≠ p → (∀ c', Function.update k.machine.proc c none c' ≠ some q) →
      ∀ c', k.machine.proc c' ≠ some q := by
    intro q other off c' on'
    by_cases same : c' = c
    · rw [same, on] at on'
      exact other (Option.some.inj on').symm
    · have absent := off c'
      rw [Function.update_of_ne same] at absent
      exact absent on'
  refine ⟨exact.locks, exact.nested, ⟨?_, ?_, ?_⟩, ?_, ?_, ?_, exact.flags.trapped, exact.flags.idleTrapped, ?_⟩
  · intro c₁ c₂ q first second
    exact exact.slots.once c₁ c₂ q (still c₁ q first).2 (still c₂ q second).2
  · intro c' q on'
    exact exact.slots.staying c' q (still c' q on').2
  · intro q running
    obtain ⟨c', on'⟩ := exact.slots.found q running
    have other : c' ≠ c := by
      intro same
      rw [same, on] at on'
      rw [Option.some.inj on'] at leaving
      exact leaving running
    refine ⟨c', ?_⟩
    change Function.update k.machine.proc c none c' = some q
    rw [Function.update_of_ne other]
    exact on'
  · intro c' q on'
    exact exact.flags.user c' q (still c' q on').2
  · intro c' q flag on'
    exact exact.flags.inside c' q flag (still c' q on').2
  · intro q off
    change (Function.update k.machine.context p (.switched (k.machine.cpu c).intena) q).Keeps (k.entered q)
    by_cases same : q = p
    · rw [same, Function.update_self]
      intro flag noted
      exact exact.flags.inside c p flag on nested noted
    · rw [Function.update_of_ne same]
      exact exact.flags.saved q (before q same off)
  · intro q off
    by_cases same : q = p
    · rw [same]
      exact kernel.2 p on
    · exact exact.flags.resting q (before q same off)

omit [DecidableEq ℓ] in
/-- The kernel stack of an LWP that no processor uses is taken up with `ptable.lock`. -/
theorem Exact.enter (exact : k.Exact) {p : π} (idle : k.machine.proc c = none) (holds : .ptable ∈ k.held c)
    (runnable : k.machine.state p = .runnable) : (k.onMachine (k.machine.start c p)).Exact := by
  have absent : ∀ c', k.machine.proc c' ≠ some p := by
    intro c' on
    rcases exact.slots.staying c' p on with running | ⟨holds', _⟩
    · rw [runnable] at running
      contradiction
    · rw [exact.onlyHolder holds holds', idle] at on
      contradiction
  have keeps := exact.flags.saved p absent
  have resting := exact.flags.resting p absent
  have slots := exact.slots.enter idle absent
  have nested := exact.nested c
  cases saved : k.machine.context p with
  | forkret =>
    unfold Processors.start
    rw [Processors.resume_forkret (m := { k.machine.setState p .running with
      proc := Function.update k.machine.proc c (some p) }) saved]
    refine ⟨exact.locks, exact.nested, slots, ?_⟩
    have changed := exact.flags.enter (k.machine.cpu c) idle absent resting (by
      intro flag _ noted
      rw [saved] at keeps
      rw [show k.entered p = none from keeps] at noted
      contradiction)
    rw [Function.update_eq_self] at changed
    exact changed
  | switched intena =>
    unfold Processors.start
    rw [Processors.resume_switched (m := { k.machine.setState p .running with
      proc := Function.update k.machine.proc c (some p) }) saved]
    refine ⟨exact.locks, ?_, slots, ?_⟩
    · have changed := exact.renested c { k.machine.cpu c with intena } (k.machine.place c) (k.held c) (k.pushed c)
        ⟨nested.ncli, nested.off⟩
      rw [Function.update_eq_self, Function.update_eq_self, Function.update_eq_self] at changed
      exact changed
    · refine exact.flags.enter _ idle absent resting ?_
      intro flag _ noted
      rw [saved] at keeps
      exact keeps flag noted

/-- `sched`. -/
theorem Exact.sched (exact : k.Exact) (allowed : k.Allowed c .sched) : k.Keeps c .sched := by
  obtain ⟨kernel, holds, popped, p, on, leaving⟩ := allowed
  have count := exact.ncli_outside kernel.1
  rw [holds, popped] at count
  have one : (k.machine.cpu c).ncli = 1 := by simpa using count
  have acted : k.act c .sched = .ok (k.left c p) := by
    change (k.machine.sched c >>= _) = _
    unfold Processors.sched
    rw [on]
    dsimp only
    rw [exact.mayLeave kernel holds popped leaving]
    rfl
  exact ⟨_, acted, exact.left kernel on leaving (by omega)⟩

/-- `sched_thread`. -/
theorem Exact.schedThread (exact : k.Exact) {next : π} (allowed : k.Allowed c (.schedThread next)) :
    k.Keeps c (.schedThread next) := by
  obtain ⟨kernel, holds, popped, runnable, p, on, leaving⟩ := allowed
  have count := exact.ncli_outside kernel.1
  rw [holds, popped] at count
  have one : (k.machine.cpu c).ncli = 1 := by simpa using count
  have held : .ptable ∈ k.held c := by
    rw [holds]
    exact List.mem_singleton_self _
  by_cases same : next = p
  · have acted : k.act c (.schedThread next) = .ok (k.onMachine (k.machine.setState p .running)) := by
      change (k.machine.schedThread c next >>= _) = _
      unfold Processors.schedThread
      rw [on]
      dsimp only
      rw [exact.mayLeave kernel holds popped leaving]
      dsimp only [bind, Except.bind]
      rw [if_pos same, same, ← on, Function.update_eq_self]
      change Except.ok (k.onMachine ((k.machine.setState p .running).setCpu c (k.machine.cpu c))) = _
      unfold Processors.setCpu
      rw [show (k.machine.setState p .running).cpu = k.machine.cpu from rfl, Function.update_eq_self]
      rfl
    refine ⟨_, acted, exact.setState (exact.slots.setState _ _ (fun _ _ => .inl rfl) fun _ => ⟨c, on⟩)⟩
  · have acted : k.act c (.schedThread next) = .ok ((k.left c p).onMachine ((k.left c p).machine.start c next)) := by
      change (k.machine.schedThread c next >>= _) = _
      unfold Processors.schedThread
      rw [on]
      dsimp only
      rw [exact.mayLeave kernel holds popped leaving]
      dsimp only [bind, Except.bind]
      rw [if_neg same]
      have twice := Function.update_idem (a := c) (none : Option π) (some next) k.machine.proc
      unfold Multiprocessor.left onMachine Processors.start
      dsimp only
      rw [twice]
      rfl
    refine ⟨_, acted, (exact.left kernel on leaving (by omega)).enter (Function.update_self c _ _) held runnable⟩

/-- The scheduler starts an LWP. -/
theorem Exact.start (exact : k.Exact) {p : π} (allowed : k.Allowed c (.start p)) : k.Keeps c (.start p) := by
  obtain ⟨_, holds, _, idle, _, runnable⟩ := allowed
  refine ⟨_, rfl, exact.enter idle ?_ runnable⟩
  rw [holds]
  exact List.mem_singleton_self _

/-- The scheduler turns interrupts on. -/
theorem Exact.sti (exact : k.Exact) (allowed : k.Allowed c .sti) : k.Keeps c .sti := by
  obtain ⟨kernel, idle, _, holds, popped⟩ := allowed
  have count := exact.ncli_outside kernel.1
  rw [holds, popped] at count
  refine ⟨_, rfl, exact.locks, ?_, exact.slots, ?_⟩
  · have changed := exact.renested c { k.machine.cpu c with interruptible := true } (k.machine.place c) (k.held c)
      (k.pushed c) (by
        rw [kernel.1, holds, popped]
        refine ⟨count, fun nested => ?_⟩
        exact absurd nested (Nat.lt_irrefl 0))
    rw [Function.update_eq_self, Function.update_eq_self, Function.update_eq_self] at changed
    exact changed
  · refine exact.flags.setCpu exact.slots _ (fun _ _ => rfl) ?_ ?_
    · intro p on
      rw [idle] at on
      contradiction
    · intro p flag on
      rw [idle] at on
      contradiction

/-! ## Traps -/

omit [DecidableEq ℓ] in
/-- The trap frames and the interrupt flag change on a processor outside `pushcli`. -/
theorem Exact.restack (exact : k.Exact) {frames : List Bool} {interruptible : Bool} (zero : k.depth c = 0)
    (trapped : ∀ flag ∈ frames, flag = true) (user : frames = [] → interruptible = true) :
    (k.onMachine ((k.machine.setStack c frames).setCpu c { k.machine.cpu c with interruptible })).Exact := by
  have count := (exact.nested c).ncli
  have nested : ∀ c', NestingExact (Function.update k.machine.cpu c { k.machine.cpu c with interruptible } c')
      (k.depth c') := by
    have changed := exact.renested c { k.machine.cpu c with interruptible } (k.machine.place c) (k.held c)
      (k.pushed c) ⟨count, fun positive => absurd positive (by change ¬0 < k.depth c; omega)⟩
    rw [Function.update_eq_self, Function.update_eq_self, Function.update_eq_self] at changed
    exact changed
  have inside : ∀ p flag, k.machine.proc c = some p → 0 < (k.machine.cpu c).ncli → k.entered p = some flag →
      (k.machine.cpu c).intena = flag := exact.flags.inside c
  unfold Processors.setStack
  cases on : k.machine.proc c with
  | none =>
    refine ⟨exact.locks, nested, exact.slots, ?_⟩
    have flags := exact.flags.setCpu exact.slots { k.machine.cpu c with interruptible } (fun _ _ => rfl)
      (fun p on' => by rw [on] at on'; cases on') inside
    refine ⟨flags.user, flags.inside, flags.saved, flags.trapped, ?_, flags.resting⟩
    intro c' flag mem
    change flag ∈ Function.update k.machine.idleFrames c frames c' at mem
    by_cases here : c' = c
    · rw [here, Function.update_self] at mem
      exact trapped flag mem
    · rw [Function.update_of_ne here] at mem
      exact exact.flags.idleTrapped c' flag mem
  | some p =>
    refine ⟨exact.locks, nested, exact.slots, ?_, ?_, exact.flags.saved, ?_, exact.flags.idleTrapped, ?_⟩
    · intro c' q on' empty
      change k.machine.proc c' = some q at on'
      change Function.update k.machine.frames p frames q = [] at empty
      change (Function.update k.machine.cpu c { k.machine.cpu c with interruptible } c').interruptible = true
      by_cases here : c' = c
      · rw [here, on] at on'
        rw [← Option.some.inj on', Function.update_self] at empty
        rw [here, Function.update_self]
        exact user empty
      · have other : q ≠ p := by
          intro same
          rw [same] at on'
          exact here (exact.slots.once c' c p on' on)
        rw [Function.update_of_ne other] at empty
        rw [Function.update_of_ne here]
        exact exact.flags.user c' q on' empty
    · intro c' q flag on' positive noted
      change 0 < (Function.update k.machine.cpu c { k.machine.cpu c with interruptible } c').ncli at positive
      change (Function.update k.machine.cpu c { k.machine.cpu c with interruptible } c').intena = flag
      by_cases here : c' = c
      · rw [here, Function.update_self] at positive
        change 0 < (k.machine.cpu c).ncli at positive
        omega
      · rw [Function.update_of_ne here] at positive ⊢
        exact exact.flags.inside c' q flag on' positive noted
    · intro q flag mem
      change flag ∈ Function.update k.machine.frames p frames q at mem
      by_cases same : q = p
      · rw [same, Function.update_self] at mem
        exact trapped flag mem
      · rw [Function.update_of_ne same] at mem
        exact exact.flags.trapped q flag mem
    · intro q off
      have other : q ≠ p := by
        intro same
        rw [same] at off
        exact off c on
      change Function.update k.machine.frames p frames q ≠ []
      rw [Function.update_of_ne other]
      exact exact.flags.resting q off

omit [DecidableEq γ] [DecidableEq ℓ] [DecidableEq π] in
/-- Interrupts were on before every trap of the stack in use. -/
theorem Exact.stack (exact : k.Exact) : ∀ flag ∈ k.machine.stack c, flag = true := by
  intro flag mem
  unfold Processors.stack at mem
  cases on : k.machine.proc c with
  | none =>
    rw [on] at mem
    exact exact.flags.idleTrapped c flag mem
  | some p =>
    rw [on] at mem
    exact exact.flags.trapped p flag mem

/-- A trap, which happens outside `pushcli`. -/
theorem Exact.trap (exact : k.Exact) {interruptGate : Bool} (allowed : k.Allowed c (.trap interruptGate)) :
    k.Keeps c (.trap interruptGate) := by
  obtain ⟨enabled, _⟩ := allowed
  have zero : k.depth c = 0 := by
    by_contra positive
    rw [(exact.nested c).off (by omega)] at enabled
    contradiction
  refine ⟨_, rfl, exact.restack zero ?_ ?_⟩
  · intro flag mem
    rcases List.mem_cons.mp mem with same | mem
    · rw [same]
      exact enabled
    · exact exact.stack flag mem
  · intro empty
    exact absurd empty (List.cons_ne_nil _ _)

/-- The return from a trap. -/
theorem Exact.iret (exact : k.Exact) (allowed : k.Allowed c .iret) : k.Keeps c .iret := by
  obtain ⟨kernel, _, holds, popped, trapped⟩ := allowed
  have zero : k.depth c = 0 := by
    unfold depth
    rw [kernel.1, holds, popped]
    rfl
  cases frames : k.machine.stack c with
  | nil => exact absurd frames trapped
  | cons flag rest =>
    have enabled := exact.stack (c := c)
    rw [frames] at enabled
    have acted : k.act c .iret = .ok (k.onMachine ((k.machine.setStack c rest).setCpu c
        { k.machine.cpu c with interruptible := flag })) := by
      change (k.machine.iret c >>= _) = _
      unfold Processors.iret
      rw [frames]
      rfl
    refine ⟨_, acted, exact.restack zero ?_ ?_⟩
    · intro other mem
      exact enabled other (List.mem_cons_of_mem _ mem)
    · intro _
      exact enabled flag List.mem_cons_self

/-! ## Runs -/

/-- What is allowed happens and keeps what holds between actions. -/
theorem Exact.act (exact : k.Exact) {action : KernelAction ℓ π} (allowed : k.Allowed c action) :
    k.Keeps c action := by
  cases action with
  | pushcli => exact exact.pushcli allowed
  | popcli => exact exact.popcli allowed
  | acquire lk => exact exact.acquire allowed
  | xchg lk => exact exact.xchg allowed
  | record lk => exact exact.record allowed
  | release lk => exact exact.release allowed
  | unlock lk => exact exact.unlock allowed
  | become state => exact exact.become allowed
  | rouse p => exact exact.rouse allowed
  | allocproc p => exact exact.allocproc allowed
  | ready p => exact exact.ready allowed
  | discard p => exact exact.discard allowed
  | reap p => exact exact.reap allowed
  | sched => exact exact.sched allowed
  | schedThread next => exact exact.schedThread allowed
  | start p => exact exact.start allowed
  | sti => exact exact.sti allowed
  | trap interruptGate => exact exact.trap allowed
  | iret => exact exact.iret allowed

omit [DecidableEq γ] [DecidableEq ℓ] in
/-- What holds between actions holds at the start. -/
theorem exact_boot (init : π) : (boot init : Multiprocessor γ ℓ π).Exact where
  locks := ⟨fun lk => by simp [boot, HasLock], fun c c' lk has => by simp [boot, HasLock] at has,
    fun c lk => by simp [boot], fun c => List.nodup_nil, fun c lk handling => (handling_outside handling).elim⟩
  nested c := ⟨rfl, fun positive => absurd positive (Nat.lt_irrefl 0)⟩
  slots := by
    refine ⟨?_, ?_, ?_⟩
    · intro c c' p on
      cases on
    · intro c p on
      cases on
    · intro p running
      change (if p = init then RunState.runnable else .unused) = .running at running
      split_ifs at running
  flags := ⟨fun c p on => (by cases on), fun c p flag on => (by cases on), fun p _ => rfl,
    fun p flag mem => List.mem_singleton.mp mem, fun c flag mem => (by cases mem), fun p _ => List.cons_ne_nil _ _⟩

/-- In every run of any number of processors: one processor at most holds a lock, and it is the one
that `cpu` names; interrupts are off where a lock is held or wanted and on in user space; `ncli`
counts what the code has to undo; a kernel stack is in use on one processor at most, and where its
LWP is not `RUNNING` this processor holds `ptable.lock`; no panic stops an action; and at its
outermost `popcli` an LWP gets the interrupt flag back that it had at its outermost `pushcli`. -/
theorem locks_and_interrupts {init : π} {events : List (γ × KernelAction ℓ π)}
    (run : Run Step (boot init) events k) :
    (∀ c c' lk, lk ∈ k.held c → lk ∈ k.held c' → c = c') ∧
      (∀ c lk, lk ∈ k.held c ↔ (k.machine.lock lk).cpu = some c) ∧
      (∀ c, (k.machine.cpu c).ncli = k.depth c ∧ (0 < k.depth c → (k.machine.cpu c).interruptible = false)) ∧
      (∀ c p, k.machine.proc c = some p → k.machine.frames p = [] → (k.machine.cpu c).interruptible = true) ∧
      (∀ c c' p, k.machine.proc c = some p → k.machine.proc c' = some p → c = c') ∧
      (∀ c p, k.machine.proc c = some p → k.machine.state p = .running ∨ .ptable ∈ k.held c) ∧
      (∀ c action, k.Allowed c action → ∃ k', k.act c action = .ok k') ∧
      ∀ c p flag action k', k.machine.proc c = some p → k.entered p = some flag → k.depth c = 1 →
        (action = .popcli ∨ ∃ lk, action = .unlock lk) → k.Allowed c action → k.act c action = .ok k' →
          (k'.machine.cpu c).interruptible = flag := by
  have exact : k.Exact := by
    refine run.invariant Exact ?_ (exact_boot init)
    intro t event u exact step
    obtain ⟨allowed, acted⟩ := step
    obtain ⟨k', acted', exact'⟩ := exact.act allowed
    rw [acted] at acted'
    rw [Except.ok.inj acted']
    exact exact'
  refine ⟨?_, fun c lk => (exact.locks.owner c lk).symm, fun c => ⟨(exact.nested c).ncli, (exact.nested c).off⟩,
    exact.flags.user, exact.slots.once, ?_, ?_, ?_⟩
  · intro c c' lk first second
    exact exact.locks.unique c c' lk (.inl first) (.inl second)
  · intro c p on
    rcases exact.slots.staying c p on with running | ⟨holds, _⟩
    · exact .inl running
    · exact .inr holds
  · intro c action allowed
    obtain ⟨k', acted, _⟩ := exact.act allowed
    exact ⟨k', acted⟩
  · intro c p flag action k' on noted outermost last allowed acted
    have count := (exact.nested c).ncli
    rw [outermost] at count
    have intena := exact.flags.inside c p flag on (by omega) noted
    have popped : (k'.machine.cpu c) = (k.machine.cpu c).pop := by
      rcases last with same | ⟨lk, same⟩
      · rw [same] at allowed acted
        rw [exact.popcli_acts allowed] at acted
        rw [← Except.ok.inj acted]
        exact Function.update_self c _ _
      · rw [same] at allowed acted
        rw [exact.unlock_acts allowed] at acted
        rw [← Except.ok.inj acted]
        exact Function.update_self c _ _
    rw [popped]
    unfold InterruptState.pop
    rw [count, intena]
    simp

/-- The kernel after an action that no panic stops. -/
def next (k : Multiprocessor γ ℓ π) (event : γ × KernelAction ℓ π) : Multiprocessor γ ℓ π :=
  match k.act event.1 event.2 with
  | .ok k' => k'
  | .error _ => k

/-- An allowed action that no panic stops is a step. -/
theorem step_next {event : γ × KernelAction ℓ π} (allowed : k.Allowed event.1 event.2)
    (happens : (k.act event.1 event.2).isOk = true) : Step k event (k.next event) := by
  refine ⟨allowed, ?_⟩
  unfold next
  cases acted : k.act event.1 event.2 with
  | error reason =>
    rw [acted] at happens
    cases happens
  | ok k' => rfl

/-- Two processors want `ptable.lock`. The one that gets it starts the first LWP, which releases the
lock; then the other one, which has tried in vain, gets it. -/
def firstActions : List (Bool × KernelAction Unit Bool) :=
  [(false, .sti), (false, .acquire .ptable), (true, .acquire .ptable), (false, .xchg .ptable), (true, .xchg .ptable),
    (false, .record .ptable), (false, .start true), (false, .release .ptable), (false, .unlock .ptable),
    (true, .xchg .ptable), (true, .record .ptable)]

/-- These actions are a run. -/
theorem firstActions_run : Run Step (boot true) firstActions (firstActions.foldl next (boot true)) := by
  refine .cons (step_next ?_ rfl) (.cons (step_next ?_ rfl) (.cons (step_next ?_ rfl) (.cons (step_next rfl rfl)
    (.cons (step_next rfl rfl) (.cons (step_next rfl rfl) (.cons (step_next ?_ rfl) (.cons (step_next ?_ rfl)
    (.cons (step_next rfl rfl) (.cons (step_next rfl rfl) (.cons (step_next rfl rfl) (.nil _)))))))))))
  · exact ⟨⟨rfl, by decide⟩, rfl, rfl, rfl, rfl⟩
  · exact ⟨⟨rfl, by decide⟩, fun p on => (by cases on), List.not_mem_nil⟩
  · exact ⟨⟨rfl, by decide⟩, fun p on => (by cases on), List.not_mem_nil⟩
  · exact ⟨⟨rfl, by decide⟩, rfl, rfl, rfl, rfl, rfl⟩
  · exact ⟨⟨rfl, by decide⟩, fun p on => (by cases on; rfl), List.mem_cons_self⟩

/-- At the end the lock names the second processor, the first one does not hold it and may be
interrupted, and interrupts are off on the second one. -/
theorem locks_and_interrupts_contended :
    ((firstActions.foldl next (boot true)).machine.lock .ptable).cpu = some true ∧
      .ptable ∉ (firstActions.foldl next (boot true)).held false ∧
      ((firstActions.foldl next (boot true)).machine.cpu false).interruptible = true ∧
      ((firstActions.foldl next (boot true)).machine.cpu true).interruptible = false := by
  obtain ⟨once, named, nested, _⟩ := locks_and_interrupts firstActions_run
  have second : .ptable ∈ (firstActions.foldl next (boot true)).held true := List.mem_cons_self
  refine ⟨(named true .ptable).mp second, fun first => ?_, rfl, (nested true).2 (by decide)⟩
  exact absurd (once false true .ptable first second) (by decide)

end Multiprocessor

end Xv6
