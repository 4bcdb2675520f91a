import Xv6.Lib.RingBuffer
import Xv6.Lib.Runs
import Xv6.Pipe

/-!
# Pipes are queues

The ring of a pipe holds the bytes stored and not yet read, also across wrapping counters, so
what the readers get is what the writers stored, in order and without gaps. Over a run the
queue is what separates all bytes stored from all bytes delivered, and a writer that returns
from its end has stored its whole buffer.
-/

namespace Xv6

/-! ## The ring -/

/-- The pipe holds these bytes, oldest first. -/
def Pipe.Carries (p : Pipe) (queue : List UInt8) : Prop :=
  RingBuffer.Holds p.data PIPESIZE (2 ^ 32) p.nread p.nwrite queue

/-- The bytes between the counters of a pipe. -/
def Pipe.contents (p : Pipe) : List UInt8 :=
  RingBuffer.contents p.data PIPESIZE (2 ^ 32) p.nread p.nwrite

/-- The ring's size divides the range of the counters. -/
theorem pipeSize_dvd : PIPESIZE ∣ 2 ^ 32 := ⟨2 ^ 23, by decide⟩

/-- The ring is smaller than the range of the counters. -/
theorem pipeSize_lt : PIPESIZE < 2 ^ 32 := by decide

namespace Pipe

variable {p : Pipe} {queue : List UInt8}

/-- The bytes between the counters are the queue. -/
theorem Carries.contents_eq (carries : p.Carries queue) : p.contents = queue :=
  RingBuffer.Holds.contents_eq carries pipeSize_lt

/-- The test of `pipewrite` for a full pipe. -/
theorem Carries.full (carries : p.Carries queue) :
    p.nwrite = add32 p.nread PIPESIZE ↔ queue.length = PIPESIZE :=
  RingBuffer.Holds.tail_eq_full carries pipeSize_lt

/-- The test of `piperead` for an empty pipe. -/
theorem Carries.drained (carries : p.Carries queue) : p.nread = p.nwrite ↔ queue = [] :=
  RingBuffer.Holds.head_eq_tail carries pipeSize_lt

/-- A byte stored in a pipe that is not full comes last. -/
theorem Carries.store (carries : p.Carries queue) (room : queue.length < PIPESIZE) (byte : UInt8) :
    (p.store byte).Carries (queue ++ [byte]) :=
  RingBuffer.Holds.push carries pipeSize_dvd room byte

/-- The byte at `nread` is the oldest, and is gone when `nread` advances. -/
theorem Carries.skip {byte : UInt8} (carries : p.Carries (byte :: queue)) :
    p.data (p.nread % PIPESIZE) = byte ∧ p.skip.Carries queue :=
  ⟨RingBuffer.Holds.front carries, RingBuffer.Holds.pop carries⟩

end Pipe

/-! ## Stretches of a call -/

/-- The flags of a pipe are as before. -/
def SameEnds (p q : Pipe) : Prop := q.readopen = p.readopen ∧ q.writeopen = p.writeopen

/-- What a stretch of a writer with `bytes` left does: some of them join the queue, and all of
them if it returns from its end. -/
structure WriteStretch (n : Int) (p : Pipe) (queue bytes : List UInt8) (q : Pipe) (rest : List UInt8)
    (pause : Pause) : Prop where
  /-- The bytes stored come first in the buffer and last in the queue. -/
  stored : ∃ put, bytes = put ++ rest ∧ q.Carries (queue ++ put)
  ends : SameEnds p q
  /-- At its end nothing is left and the result is the length asked for. -/
  finished : ∀ r, pause = .finished r → rest = [] ∧ r = n

/-- `pipewrite` appends to the queue. -/
theorem pipewriteLoop_spec (killed : Bool) (n : Int) (p : Pipe) (queue bytes : List UInt8)
    (carries : p.Carries queue) :
    WriteStretch n p queue bytes (pipewriteLoop killed n p bytes).1 (pipewriteLoop killed n p bytes).2.1
      (pipewriteLoop killed n p bytes).2.2 := by
  induction bytes generalizing p queue with
  | nil =>
    have kept : p.Carries (queue ++ []) := by
      rw [List.append_nil]
      exact carries
    exact ⟨⟨[], rfl, kept⟩, ⟨rfl, rfl⟩, fun r same => ⟨rfl, (Pause.finished.inj same).symm⟩⟩
  | cons byte rest ih =>
    have stays : ∃ put, byte :: rest = put ++ byte :: rest ∧ p.Carries (queue ++ put) := by
      refine ⟨[], rfl, ?_⟩
      rw [List.append_nil]
      exact carries
    unfold pipewriteLoop
    by_cases full : p.nwrite = add32 p.nread PIPESIZE
    · rw [if_pos full]
      by_cases gives : p.readopen = false ∨ killed = true
      · rw [if_pos gives]
        exact ⟨stays, ⟨rfl, rfl⟩, fun r same => nomatch same⟩
      · rw [if_neg gives]
        exact ⟨stays, ⟨rfl, rfl⟩, fun r same => nomatch same⟩
    · rw [if_neg full]
      have room : queue.length < PIPESIZE := by
        have fits : queue.length ≤ PIPESIZE := RingBuffer.Holds.fits carries
        have short : queue.length ≠ PIPESIZE := fun same => full (carries.full.mpr same)
        omega
      have later := ih (p.store byte) (queue ++ [byte]) (carries.store room byte)
      obtain ⟨put, split, holds⟩ := later.stored
      refine ⟨⟨byte :: put, ?_, ?_⟩, later.ends, later.finished⟩
      · rw [List.cons_append, ← split]
      · rw [List.append_assoc] at holds
        exact holds

/-- The copy loop of `piperead` takes the oldest bytes, as many as there are and are wanted. -/
theorem pipereadLoop_spec (p : Pipe) (queue : List UInt8) (left : Nat) (carries : p.Carries queue) :
    (pipereadLoop p left).2 = queue.take left ∧ (pipereadLoop p left).1.Carries (queue.drop left) ∧
      SameEnds p (pipereadLoop p left).1 := by
  induction left generalizing p queue with
  | zero => exact ⟨rfl, carries, rfl, rfl⟩
  | succ left ih =>
    unfold pipereadLoop
    by_cases none : p.nread = p.nwrite
    · rw [if_pos none]
      have empty : queue = [] := carries.drained.mp none
      subst empty
      exact ⟨rfl, carries, rfl, rfl⟩
    · rw [if_neg none]
      cases queue with
      | nil => exact absurd (carries.drained.mpr rfl) none
      | cons byte queue =>
        obtain ⟨front, next⟩ := carries.skip
        obtain ⟨bytes, rest, ends⟩ := ih p.skip queue next
        refine ⟨?_, rest, ends⟩
        show p.data (p.nread % PIPESIZE) :: (pipereadLoop p.skip left).2 = _
        rw [front, bytes, List.take_succ_cons]

/-- What a stretch of a reader does: the bytes it returns leave the queue, and there are none
only if none were wanted or the pipe was empty with its write end closed. -/
structure ReadStretch (n : Int) (p : Pipe) (queue : List UInt8) (q : Pipe) (bytes : List UInt8)
    (pause : Pause) : Prop where
  /-- The bytes returned were the oldest. -/
  taken : ∃ left, queue = bytes ++ left ∧ q.Carries left
  ends : SameEnds p q
  /-- The result from the end is the number of bytes. -/
  counted : ∀ r, pause = .finished r → r = bytes.length
  /-- Only an empty pipe that is closed for writing gives nothing. -/
  nothing : pause = .finished 0 → 0 < n → queue = [] ∧ p.writeopen = false

/-- `piperead` takes from the queue. -/
theorem pipereadStretch_spec (killed : Bool) (n : Int) (p : Pipe) (queue : List UInt8)
    (carries : p.Carries queue) :
    ReadStretch n p queue (pipereadStretch killed n p).1 (pipereadStretch killed n p).2.1
      (pipereadStretch killed n p).2.2 := by
  unfold pipereadStretch
  by_cases waits : p.nread = p.nwrite ∧ p.writeopen = true
  · rw [if_pos waits]
    by_cases dead : killed = true
    · rw [if_pos dead]
      exact ⟨⟨queue, rfl, carries⟩, ⟨rfl, rfl⟩, fun r same => (nomatch same), fun same => (nomatch same)⟩
    · rw [if_neg dead]
      exact ⟨⟨queue, rfl, carries⟩, ⟨rfl, rfl⟩, fun r same => (nomatch same), fun same => (nomatch same)⟩
  · rw [if_neg waits]
    obtain ⟨bytes, rest, ends⟩ := pipereadLoop_spec p queue n.toNat carries
    refine ⟨⟨queue.drop n.toNat, ?_, rest⟩, ends, ?_, ?_⟩
    · show queue = (pipereadLoop p n.toNat).2 ++ queue.drop n.toNat
      rw [bytes, List.take_append_drop]
    · intro r same
      exact (Pause.finished.inj same).symm
    · intro same wanted
      have none : ((pipereadLoop p n.toNat).2.length : Int) = 0 := Pause.finished.inj same
      rw [bytes, List.length_take] at none
      have empty : queue = [] := by
        apply List.eq_nil_of_length_eq_zero
        omega
      refine ⟨empty, ?_⟩
      cases «open» : p.writeopen with
      | false => rfl
      | true => exact absurd ⟨carries.drained.mpr empty, «open»⟩ waits

/-! ## Bytes of a run -/

/-- The bytes a step stored. -/
def PipeStep.put : PipeStep → List UInt8
  | .wrote _ bytes _ => bytes
  | _ => []

/-- The bytes a step returned. -/
def PipeStep.got : PipeStep → List UInt8
  | .read _ bytes _ => bytes
  | _ => []

/-- The bytes a step stored for one call. -/
def PipeStep.putBy (c : Nat) : PipeStep → List UInt8
  | .wrote d bytes _ => if d = c then bytes else []
  | _ => []

/-- The bytes stored by all calls of `pipewrite`, in order. -/
def stored (steps : List PipeStep) : List UInt8 := steps.flatMap PipeStep.put

/-- The bytes returned by all calls of `piperead`, in order. -/
def delivered (steps : List PipeStep) : List UInt8 := steps.flatMap PipeStep.got

/-- The bytes stored by one call, in order. -/
def storedBy (c : Nat) (steps : List PipeStep) : List UInt8 := steps.flatMap (PipeStep.putBy c)

section Bytes

variable {steps : List PipeStep} {step : PipeStep}

@[simp] theorem stored_snoc : stored (steps ++ [step]) = stored steps ++ step.put := by
  simp [stored]

@[simp] theorem delivered_snoc : delivered (steps ++ [step]) = delivered steps ++ step.got := by
  simp [delivered]

@[simp] theorem storedBy_snoc {c : Nat} : storedBy c (steps ++ [step]) = storedBy c steps ++ step.putBy c := by
  simp [storedBy]

end Bytes

/-! ## The invariant -/

/-- The queue separates what was stored from what was delivered. -/
structure Buffered (steps : List PipeStep) (p : Pipe) : Prop where
  /-- The bytes in the ring. -/
  queue : ∃ queue, p.Carries queue ∧ stored steps = delivered steps ++ queue
  /-- The write end is open until it is closed. -/
  closed : p.writeopen = false → PipeStep.closed true ∈ steps

/-- Each call has its part of the run. -/
structure Served (steps : List PipeStep) (calls : Nat → Option PipeCall) : Prop where
  /-- The calls made are the known ones. -/
  entered : ∀ c request, PipeStep.entered c request ∈ steps ↔
    ∃ call, calls c = some call ∧ call.request = request
  /-- A call has stored what it had to store, up to the rest. -/
  progress : ∀ c call, calls c = some call → storedBy c steps ++ call.rest = call.request.bytes
  /-- A number not used yet stands for no byte. -/
  unused : ∀ c, calls c = none → storedBy c steps = []
  /-- A writer that returned from its end had nothing left, and stays so. -/
  finished : ∀ c bytes r, PipeStep.wrote c bytes (.finished r) ∈ steps →
    ∃ call addr sized, calls c = some call ∧ call.request = .write r addr sized ∧ call.rest = [] ∧
      call.stage = .returned

/-- What holds after every run. -/
structure Flowing (steps : List PipeStep) (s : Pipes) : Prop where
  queued : Buffered steps s.pipe
  served : Served steps s.calls

namespace Buffered

variable {steps : List PipeStep} {p q : Pipe}

/-- A step without bytes that leaves the ring. -/
theorem quiet (queued : Buffered steps p) (step : PipeStep) (puts : step.put = []) (gets : step.got = [])
    (same : ∀ queue, p.Carries queue → q.Carries queue)
    (closes : q.writeopen = false → p.writeopen = false ∨ step = .closed true) :
    Buffered (steps ++ [step]) q := by
  obtain ⟨queue, carries, separated⟩ := queued.queue
  refine ⟨⟨queue, same queue carries, ?_⟩, ?_⟩
  · rw [stored_snoc, delivered_snoc, puts, gets, List.append_nil, List.append_nil]
    exact separated
  · intro shut
    rw [List.mem_append, List.mem_singleton]
    rcases closes shut with before | now
    · exact .inl (queued.closed before)
    · exact .inr now.symm

/-- A stretch of a writer. -/
theorem write {queue rest bytes : List UInt8} {pause : Pause} {n : Int} (queued : Buffered steps p)
    (separated : stored steps = delivered steps ++ queue)
    (stretch : WriteStretch n p queue bytes q rest pause) (c : Nat) :
    Buffered (steps ++ [.wrote c (bytes.take (bytes.length - rest.length)) pause]) q := by
  obtain ⟨put, split, holds⟩ := stretch.stored
  have stores : bytes.take (bytes.length - rest.length) = put := by
    rw [split, List.length_append, Nat.add_sub_cancel, List.take_left']
    rfl
  refine ⟨⟨queue ++ put, holds, ?_⟩, ?_⟩
  · rw [stored_snoc, delivered_snoc, stores, separated]
    show _ ++ queue ++ put = _ ++ [] ++ (queue ++ put)
    rw [List.append_nil, List.append_assoc]
  · intro shut
    rw [stretch.ends.2] at shut
    exact List.mem_append_left _ (queued.closed shut)

/-- A stretch of a reader. -/
theorem read {queue bytes : List UInt8} {pause : Pause} {n : Int} (queued : Buffered steps p)
    (separated : stored steps = delivered steps ++ queue)
    (stretch : ReadStretch n p queue q bytes pause) (c : Nat) :
    Buffered (steps ++ [.read c bytes pause]) q := by
  obtain ⟨left, split, holds⟩ := stretch.taken
  refine ⟨⟨left, holds, ?_⟩, ?_⟩
  · rw [stored_snoc, delivered_snoc, separated, split]
    show _ ++ (bytes ++ left) ++ [] = _ ++ bytes ++ left
    rw [List.append_nil, List.append_assoc]
  · intro shut
    rw [stretch.ends.2] at shut
    exact List.mem_append_left _ (queued.closed shut)

end Buffered

/-- A call as `wakeup` leaves it. -/
theorem wakeup_some {s : Pipes} (writers : Bool) {c : Nat} {call : PipeCall} (known : s.calls c = some call) :
    ∃ stage, (s.wakeup writers).calls c = some { call with stage := stage } ∧
      (call.stage = .returned → stage = .returned) ∧ (call.stage = .ready → stage = .ready) := by
  by_cases sleeps : call.stage = .asleep ∧ call.request.writes = writers
  · refine ⟨.ready, ?_, ?_, fun _ => rfl⟩
    · simp only [Pipes.wakeup, known, Option.map_some, if_pos sleeps]
    · intro returned
      rw [sleeps.1] at returned
      exact nomatch returned
  · refine ⟨call.stage, ?_, id, id⟩
    simp only [Pipes.wakeup, known, Option.map_some, if_neg sleeps]

/-- A call found after `wakeup` was there before. -/
theorem wakeup_back {s : Pipes} {writers : Bool} {c : Nat} {call : PipeCall}
    (known : (s.wakeup writers).calls c = some call) :
    ∃ stage, s.calls c = some { call with stage := stage } := by
  cases before : s.calls c with
  | none =>
    simp only [Pipes.wakeup, before, Option.map_none] at known
    exact nomatch known
  | some old =>
    obtain ⟨stage, woken, _⟩ := wakeup_some writers before
    rw [known] at woken
    cases woken
    exact ⟨old.stage, rfl⟩

namespace Served

variable {steps : List PipeStep} {s : Pipes} {calls : Nat → Option PipeCall}

/-- A step that is not a call's own. -/
theorem quiet (served : Served steps calls) (step : PipeStep) (puts : ∀ c, step.putBy c = [])
    (enters : ∀ c request, step ≠ .entered c request) (writes : ∀ c bytes pause, step ≠ .wrote c bytes pause) :
    Served (steps ++ [step]) calls where
  entered := by
    intro c request
    rw [List.mem_append, List.mem_singleton, ← served.entered c request]
    constructor
    · rintro (before | now)
      · exact before
      · exact absurd now.symm (enters c request)
    · exact .inl
  progress := by
    intro c call known
    rw [storedBy_snoc, puts, List.append_nil]
    exact served.progress c call known
  unused := by
    intro c none
    rw [storedBy_snoc, puts, List.append_nil]
    exact served.unused c none
  finished := by
    intro c bytes r member
    rw [List.mem_append, List.mem_singleton] at member
    rcases member with before | now
    · exact served.finished c bytes r before
    · exact absurd now.symm (writes c bytes (.finished r))

/-- A change of what a call is doing. -/
theorem restage (served : Served steps calls) {c : Nat} {call changed : PipeCall} (known : calls c = some call)
    (request : changed.request = call.request) (rest : changed.rest = call.rest)
    (stays : call.stage = .returned → changed.stage = .returned) :
    Served steps (Function.update calls c (some changed)) where
  entered := by
    intro d wanted
    rw [served.entered d wanted]
    by_cases same : d = c
    · subst same
      rw [Function.update_self]
      constructor
      · rintro ⟨other, found, asked⟩
        rw [known] at found
        cases found
        exact ⟨changed, rfl, request.trans asked⟩
      · rintro ⟨other, found, asked⟩
        cases found
        exact ⟨call, known, request.symm.trans asked⟩
    · rw [Function.update_of_ne same]
  progress := by
    intro d other found
    by_cases same : d = c
    · subst same
      rw [Function.update_self] at found
      cases found
      rw [request, rest]
      exact served.progress d call known
    · rw [Function.update_of_ne same] at found
      exact served.progress d other found
  unused := by
    intro d none
    by_cases same : d = c
    · subst same
      rw [Function.update_self] at none
      exact nomatch none
    · rw [Function.update_of_ne same] at none
      exact served.unused d none
  finished := by
    intro d bytes r member
    obtain ⟨other, addr, sized, found, asked, nothing, returned⟩ := served.finished d bytes r member
    by_cases same : d = c
    · subst same
      rw [known] at found
      cases found
      exact ⟨changed, addr, sized, Function.update_self _ _ _, request.trans asked, rest.trans nothing,
        stays returned⟩
    · refine ⟨other, addr, sized, ?_, asked, nothing, returned⟩
      rw [Function.update_of_ne same]
      exact found

/-- `wakeup`. -/
theorem wakeup (served : Served steps s.calls) (writers : Bool) : Served steps (s.wakeup writers).calls where
  entered := by
    intro c request
    rw [served.entered c request]
    constructor
    · rintro ⟨call, known, asked⟩
      obtain ⟨stage, woken, _⟩ := wakeup_some writers known
      exact ⟨{ call with stage := stage }, woken, asked⟩
    · rintro ⟨call, known, asked⟩
      obtain ⟨stage, before⟩ := wakeup_back known
      exact ⟨{ call with stage := stage }, before, asked⟩
  progress := by
    intro c call known
    obtain ⟨stage, before⟩ := wakeup_back known
    exact served.progress c { call with stage := stage } before
  unused := by
    intro c none
    apply served.unused c
    cases before : s.calls c with
    | none => rfl
    | some call =>
      obtain ⟨stage, woken, _⟩ := wakeup_some writers before
      rw [none] at woken
      exact nomatch woken
  finished := by
    intro c bytes r member
    obtain ⟨call, addr, sized, known, asked, nothing, returned⟩ := served.finished c bytes r member
    obtain ⟨stage, woken, stays, _⟩ := wakeup_some writers known
    exact ⟨{ call with stage := stage }, addr, sized, woken, asked, nothing, stays returned⟩

/-- A new call. -/
theorem enter (served : Served steps calls) {c : Nat} (fresh : calls c = none) (request : PipeRequest)
    (killed : Bool) :
    Served (steps ++ [.entered c request])
      (Function.update calls c (some ⟨request, killed, request.bytes, .ready⟩)) where
  entered := by
    intro d wanted
    rw [List.mem_append, List.mem_singleton, served.entered d wanted, PipeStep.entered.injEq]
    by_cases same : d = c
    · subst same
      rw [Function.update_self, fresh]
      constructor
      · rintro (⟨call, known, _⟩ | ⟨_, asked⟩)
        · exact nomatch known
        · exact ⟨_, rfl, asked.symm⟩
      · rintro ⟨call, known, asked⟩
        cases known
        exact .inr ⟨rfl, asked.symm⟩
    · rw [Function.update_of_ne same]
      constructor
      · rintro (known | ⟨equal, _⟩)
        · exact known
        · exact absurd equal same
      · exact .inl
  progress := by
    intro d call known
    rw [storedBy_snoc]
    show storedBy d steps ++ [] ++ call.rest = _
    rw [List.append_nil]
    by_cases same : d = c
    · subst same
      rw [Function.update_self] at known
      cases known
      rw [served.unused d fresh]
      rfl
    · rw [Function.update_of_ne same] at known
      exact served.progress d call known
  unused := by
    intro d none
    rw [storedBy_snoc]
    show storedBy d steps ++ [] = []
    rw [List.append_nil]
    by_cases same : d = c
    · subst same
      exact served.unused d fresh
    · rw [Function.update_of_ne same] at none
      exact served.unused d none
  finished := by
    intro d bytes r member
    rw [List.mem_append, List.mem_singleton] at member
    rcases member with before | now
    · obtain ⟨call, addr, sized, known, rest⟩ := served.finished d bytes r before
      have other : d ≠ c := by
        rintro rfl
        rw [fresh] at known
        exact nomatch known
      refine ⟨call, addr, sized, ?_, rest⟩
      rw [Function.update_of_ne other]
      exact known
    · exact nomatch now

/-- A stretch of a writer. -/
theorem write (served : Served steps calls) {c : Nat} {call : PipeCall} (known : calls c = some call)
    (ready : call.stage = .ready) {n : Int} {addr : List UInt8} {sized : addr.length = n.toNat}
    (asked : call.request = .write n addr sized) {put rest : List UInt8} (split : call.rest = put ++ rest)
    {pause : Pause} (ends : ∀ r, pause = .finished r → rest = [] ∧ r = n) :
    Served (steps ++ [.wrote c put pause])
      (Function.update calls c (some { call with rest := rest, stage := pause.stage })) where
  entered := by
    intro d wanted
    rw [List.mem_append, List.mem_singleton, served.entered d wanted]
    by_cases same : d = c
    · subst same
      rw [Function.update_self, known]
      constructor
      · rintro (⟨other, found, request⟩ | impossible)
        · cases found
          exact ⟨_, rfl, request⟩
        · exact nomatch impossible
      · rintro ⟨other, found, request⟩
        cases found
        exact .inl ⟨call, rfl, request⟩
    · rw [Function.update_of_ne same]
      constructor
      · rintro (found | impossible)
        · exact found
        · exact nomatch impossible
      · exact .inl
  progress := by
    intro d other found
    rw [storedBy_snoc, PipeStep.putBy]
    by_cases same : d = c
    · subst same
      rw [Function.update_self] at found
      cases found
      rw [if_pos rfl, List.append_assoc, ← split]
      exact served.progress d call known
    · rw [Function.update_of_ne same] at found
      rw [if_neg (Ne.symm same), List.append_nil]
      exact served.progress d other found
  unused := by
    intro d none
    by_cases same : d = c
    · subst same
      rw [Function.update_self] at none
      exact nomatch none
    · rw [Function.update_of_ne same] at none
      rw [storedBy_snoc, PipeStep.putBy, if_neg (Ne.symm same), List.append_nil]
      exact served.unused d none
  finished := by
    intro d bytes r member
    rw [List.mem_append, List.mem_singleton] at member
    rcases member with before | now
    · obtain ⟨other, buffer, fits, found, request, nothing, returned⟩ := served.finished d bytes r before
      have different : d ≠ c := by
        rintro rfl
        rw [known] at found
        cases found
        rw [ready] at returned
        exact nomatch returned
      refine ⟨other, buffer, fits, ?_, request, nothing, returned⟩
      rw [Function.update_of_ne different]
      exact found
    · injection now with number _ paused
      subst number
      obtain ⟨nothing, length⟩ := ends r paused.symm
      subst length
      refine ⟨_, addr, sized, Function.update_self _ _ _, asked, nothing, ?_⟩
      show pause.stage = .returned
      rw [← paused]
      rfl

end Served

/-! ## Runs -/

/-- A ready call is found as it was after `wakeup`. -/
theorem wakeup_ready {s : Pipes} {writers : Bool} {c : Nat} {call : PipeCall} (known : s.calls c = some call)
    (ready : call.stage = .ready) : (s.wakeup writers).calls c = some call := by
  obtain ⟨stage, woken, _, stays⟩ := wakeup_some writers known
  have same : stage = call.stage := by rw [ready, stays ready]
  rw [same] at woken
  exact woken

namespace Flowing

variable {steps : List PipeStep} {s : Pipes}

/-- A new pipe. -/
theorem start (page : Nat → UInt8) : Flowing [] (Pipes.start page) where
  queued := by
    refine ⟨⟨[], RingBuffer.Holds.empty (Nat.two_pow_pos 32), rfl⟩, ?_⟩
    intro shut
    exact nomatch shut
  served :=
    { entered := by
        intro c request
        constructor
        · intro member
          exact absurd member List.not_mem_nil
        · rintro ⟨call, known, _⟩
          exact nomatch known
      progress := by
        intro c call known
        exact nomatch known
      unused := fun c _ => rfl
      finished := by
        intro c bytes r member
        exact absurd member List.not_mem_nil }

/-- A call of `pipewrite` runs. -/
theorem pipewrite (flowing : Flowing steps s) {c : Nat} {call : PipeCall} (known : s.calls c = some call)
    (ready : call.stage = .ready) {n : Int} {addr : List UInt8} {sized : addr.length = n.toNat}
    (asked : call.request = .write n addr sized) :
    Flowing (steps ++ [(s.pipewrite c call n).1]) (s.pipewrite c call n).2 := by
  obtain ⟨queue, carries, separated⟩ := flowing.queued.queue
  have stretch := pipewriteLoop_spec call.killed n s.pipe queue call.rest carries
  unfold Pipes.pipewrite
  generalize pipewriteLoop call.killed n s.pipe call.rest = result at stretch
  obtain ⟨q, rest, pause⟩ := result
  change WriteStretch n s.pipe queue call.rest q rest pause at stretch
  obtain ⟨put, split, _⟩ := stretch.stored
  have stores : call.rest.take (call.rest.length - rest.length) = put := by
    rw [split, List.length_append, Nat.add_sub_cancel, List.take_left']
    rfl
  have bytes := flowing.queued.write separated stretch c
  by_cases fails : pause = .failed
  · simp only [if_pos fails]
    refine ⟨bytes, ?_⟩
    rw [stores]
    exact flowing.served.write known ready asked split stretch.finished
  · simp only [if_neg fails]
    refine ⟨bytes, ?_⟩
    rw [stores]
    have woken : Served steps ({ s with pipe := q }.wakeup false).calls :=
      Served.wakeup (s := { s with pipe := q }) flowing.served false
    have found : ({ s with pipe := q }.wakeup false).calls c = some call :=
      wakeup_ready (s := { s with pipe := q }) known ready
    exact woken.write found ready asked split stretch.finished

/-- A call of `piperead` runs. -/
theorem piperead (flowing : Flowing steps s) {c : Nat} {call : PipeCall} (known : s.calls c = some call)
    (ready : call.stage = .ready) (n : Int) :
    Flowing (steps ++ [(s.piperead c call n).1]) (s.piperead c call n).2 := by
  obtain ⟨queue, carries, separated⟩ := flowing.queued.queue
  have stretch := pipereadStretch_spec call.killed n s.pipe queue carries
  unfold Pipes.piperead
  generalize pipereadStretch call.killed n s.pipe = result at stretch
  obtain ⟨q, bytes, pause⟩ := result
  change ReadStretch n s.pipe queue q bytes pause at stretch
  have buffered := flowing.queued.read separated stretch c
  have quiet : ∀ {calls}, Served steps calls → Served (steps ++ [.read c bytes pause]) calls := by
    intro calls served
    exact served.quiet _ (fun _ => rfl) (fun _ _ same => nomatch same) (fun _ _ _ same => nomatch same)
  have stays : call.stage = .returned → ({ call with stage := pause.stage } : PipeCall).stage = .returned := by
    intro returned
    rw [ready] at returned
    exact nomatch returned
  by_cases waits : pause = .failed ∨ pause = .asleep
  · simp only [if_pos waits]
    exact ⟨buffered, (quiet flowing.served).restage known rfl rfl stays⟩
  · simp only [if_neg waits]
    have woken : Served steps ({ s with pipe := q }.wakeup true).calls :=
      Served.wakeup (s := { s with pipe := q }) flowing.served true
    have found : ({ s with pipe := q }.wakeup true).calls c = some call :=
      wakeup_ready (s := { s with pipe := q }) known ready
    exact ⟨buffered, (quiet woken).restage found rfl rfl stays⟩

/-- An end is closed. -/
theorem pipeclose (flowing : Flowing steps s) (writable : Bool) :
    Flowing (steps ++ [.closed writable]) (s.pipeclose writable) := by
  have served : Served steps (s.pipeclose writable).calls := by
    exact Served.wakeup (s := { s with pipe := _ }) flowing.served (!writable)
  refine ⟨?_, ?_⟩
  · apply flowing.queued.quiet (.closed writable) rfl rfl
    · intro queue carries
      cases writable with
      | false => exact carries
      | true => exact carries
    · intro shut
      cases writable with
      | false => exact .inl shut
      | true => exact .inr rfl
  · exact served.quiet _ (fun _ => rfl) (fun _ _ same => nomatch same) (fun _ _ _ same => nomatch same)

/-- Every step keeps the invariant. -/
theorem next (flowing : Flowing steps s) {event : PipeEvent} {step : PipeStep} {t : Pipes}
    (taken : s.next event = some (step, t)) : Flowing (steps ++ [step]) t := by
  unfold Pipes.next at taken
  by_cases gone : s.freed = true
  · rw [if_pos gone] at taken
    exact nomatch taken
  rw [if_neg gone] at taken
  cases event with
  | enter c request killed =>
    cases known : s.calls c with
    | some call =>
      simp only [known] at taken
      exact nomatch taken
    | none =>
      simp only [known, Option.some.injEq, Prod.mk.injEq] at taken
      obtain ⟨rfl, rfl⟩ := taken
      exact ⟨flowing.queued.quiet _ rfl rfl (fun _ carries => carries) .inl,
        flowing.served.enter known request killed⟩
  | go c =>
    cases known : s.calls c with
    | none =>
      simp only [known] at taken
      exact nomatch taken
    | some call =>
      simp only [known] at taken
      by_cases ready : call.stage = .ready
      · rw [if_pos ready] at taken
        cases asked : call.request with
        | write n addr sized =>
          simp only [asked] at taken
          have ran := flowing.pipewrite known ready asked
          rw [Option.some.inj taken] at ran
          exact ran
        | read n =>
          simp only [asked] at taken
          have ran := flowing.piperead known ready n
          rw [Option.some.inj taken] at ran
          exact ran
      · rw [if_neg ready] at taken
        exact nomatch taken
  | kill c =>
    cases known : s.calls c with
    | none =>
      simp only [known] at taken
      exact nomatch taken
    | some call =>
      simp only [known, Option.some.injEq, Prod.mk.injEq] at taken
      obtain ⟨rfl, rfl⟩ := taken
      refine ⟨flowing.queued.quiet _ rfl rfl (fun _ carries => carries) .inl, ?_⟩
      have quiet : Served (steps ++ [.killed c]) s.calls :=
        flowing.served.quiet _ (fun _ => rfl) (fun _ _ same => nomatch same) (fun _ _ _ same => nomatch same)
      apply quiet.restage known
      · rfl
      · rfl
      · intro returned
        simp only [returned]
        rfl
  | close writable =>
    simp only [Option.some.injEq, Prod.mk.injEq] at taken
    obtain ⟨rfl, rfl⟩ := taken
    exact flowing.pipeclose writable

/-- The invariant holds after every run. -/
theorem run {page : Nat → UInt8} (run : Run Pipes.Step (Pipes.start page) steps s) : Flowing steps s := by
  apply run.history (fun steps s => Flowing steps s) (Flowing.start page)
  rintro before t step u _ flowing ⟨event, taken⟩
  exact flowing.next taken

end Flowing

/-- The step of a reader, seen from the state before: the result counts the bytes, and nothing is
returned only from an empty pipe whose write end is closed. -/
theorem read_returns {steps : List PipeStep} {s t : Pipes} {c : Nat} {bytes : List UInt8} {pause : Pause}
    (flowing : Flowing steps s) (taken : Pipes.Step s (.read c bytes pause) t) :
    (∀ r, pause = .finished r → r = bytes.length) ∧
      ∀ n call, s.calls c = some call → call.request = .read n → pause = .finished 0 → 0 < n →
        stored steps = delivered steps ∧ PipeStep.closed true ∈ steps := by
  obtain ⟨event, taken⟩ := taken
  obtain ⟨queue, carries, separated⟩ := flowing.queued.queue
  unfold Pipes.next at taken
  by_cases gone : s.freed = true
  · rw [if_pos gone] at taken
    exact nomatch taken
  rw [if_neg gone] at taken
  cases event with
  | enter d request killed =>
    cases known : s.calls d with
    | some call =>
      simp only [known] at taken
      exact nomatch taken
    | none =>
      simp only [known] at taken
      exact nomatch taken
  | kill d =>
    cases known : s.calls d with
    | some call =>
      simp only [known] at taken
      exact nomatch taken
    | none =>
      simp only [known] at taken
      exact nomatch taken
  | close writable => exact nomatch taken
  | go d =>
    cases known : s.calls d with
    | none =>
      simp only [known] at taken
      exact nomatch taken
    | some call =>
      simp only [known] at taken
      by_cases ready : call.stage = .ready
      · rw [if_pos ready] at taken
        cases asked : call.request with
        | write n addr sized =>
          simp only [asked] at taken
          exact nomatch taken
        | read n =>
          simp only [asked, Option.some.injEq] at taken
          have stretch := pipereadStretch_spec call.killed n s.pipe queue carries
          have labelled : PipeStep.read d (pipereadStretch call.killed n s.pipe).2.1
              (pipereadStretch call.killed n s.pipe).2.2 = .read c bytes pause := congrArg Prod.fst taken
          injection labelled with number returned paused
          subst number returned paused
          refine ⟨stretch.counted, ?_⟩
          intro m other found request ended wanted
          rw [known] at found
          cases found
          rw [asked] at request
          cases request
          obtain ⟨empty, shut⟩ := stretch.nothing ended wanted
          rw [empty, List.append_nil] at separated
          exact ⟨separated, flowing.queued.closed shut⟩
      · rw [if_neg ready] at taken
        exact nomatch taken

/-- The steps of a writer and two readers, with the write end closed in between. -/
def twoBytes : List PipeStep :=
  [.entered 0 (.write 2 [7, 8] rfl), .wrote 0 [7, 8] (.finished 2), .entered 1 (.read 5),
    .read 1 [7, 8] (.finished 2), .entered 2 (.read 5), .closed true, .read 2 [] (.finished 0)]

/-- They are a run. -/
theorem twoBytes_runs : ∃ s, Run Pipes.Step (Pipes.start fun _ => 0) twoBytes s :=
  ⟨_, .cons ⟨.enter 0 (.write 2 [7, 8] rfl) false, rfl⟩ <| .cons ⟨.go 0, rfl⟩ <|
    .cons ⟨.enter 1 (.read 5) false, rfl⟩ <| .cons ⟨.go 1, rfl⟩ <| .cons ⟨.enter 2 (.read 5) false, rfl⟩ <|
    .cons ⟨.close true, rfl⟩ <| .cons ⟨.go 2, rfl⟩ <| .nil _⟩

/-- The bytes returned by `piperead` are a first part of the bytes stored by `pipewrite`, the
rest, at most `PIPESIZE` bytes, lies in the ring, a writer that returns the length it was given
has stored exactly its buffer, and a reader returns nothing only when everything stored was read
and the write end is closed. -/
theorem pipes_fifo {page : Nat → UInt8} {steps : List PipeStep} {s : Pipes}
    (run : Run Pipes.Step (Pipes.start page) steps s) :
    (delivered steps <+: stored steps ∧ stored steps = delivered steps ++ s.pipe.contents ∧
      s.pipe.contents.length ≤ PIPESIZE) ∧
    (∀ c bytes pause r, PipeStep.wrote c bytes pause ∈ steps → pause.result = some r → 0 ≤ r →
      ∃ addr sized, PipeStep.entered c (.write r addr sized) ∈ steps ∧ storedBy c steps = addr) ∧
    (∀ c bytes r, PipeStep.read c bytes (.finished r) ∈ steps → r = bytes.length) ∧
    ∀ before after c n bytes pause, steps = before ++ PipeStep.read c bytes pause :: after →
      PipeStep.entered c (.read n) ∈ before → pause.result = some 0 → 0 < n →
      stored before = delivered before ∧ PipeStep.closed true ∈ before := by
  have flowing := Flowing.run run
  obtain ⟨queue, carries, separated⟩ := flowing.queued.queue
  refine ⟨?_, ?_, ?_, ?_⟩
  · rw [carries.contents_eq]
    exact ⟨⟨queue, separated.symm⟩, separated, RingBuffer.Holds.fits carries⟩
  · intro c bytes pause r member result length
    have ended : pause = .finished r := by
      cases pause with
      | asleep => exact nomatch result
      | failed =>
        have negative : (-1 : Int) = r := Option.some.inj result
        omega
      | finished k => rw [Option.some.inj result]
    subst ended
    obtain ⟨call, addr, sized, known, asked, nothing, _⟩ := flowing.served.finished c bytes r member
    have all := flowing.served.progress c call known
    rw [nothing, asked, List.append_nil] at all
    exact ⟨addr, sized, (flowing.served.entered c _).mpr ⟨call, known, asked⟩, all⟩
  · intro c bytes r member
    obtain ⟨before, after, v, w, _, first, taken, _⟩ := run.step_of_mem member
    exact (read_returns (Flowing.run first) taken).1 r rfl
  · intro before after c n bytes pause cut entered result wanted
    subst cut
    obtain ⟨v, first, rest⟩ := run.split
    have past := Flowing.run first
    cases rest with
    | cons taken _ =>
      have ended : pause = .finished 0 := by
        cases pause with
        | asleep => exact nomatch result
        | failed => exact nomatch (Option.some.inj result)
        | finished k => rw [Option.some.inj result]
      obtain ⟨call, known, asked⟩ := (past.served.entered c _).mp entered
      exact (read_returns past taken).2 n call known asked ended wanted

/-- A writer stores two bytes and returns, a reader of up to five gets them, and after the write
end is closed the next reader gets nothing. -/
theorem pipes_fifo_twoBytes :
    (∃ addr sized, PipeStep.entered 0 (.write 2 addr sized) ∈ twoBytes ∧ storedBy 0 twoBytes = addr) ∧
      stored twoBytes = delivered twoBytes :=
  ⟨(pipes_fifo twoBytes_runs.choose_spec).2.1 0 [7, 8] (.finished 2) 2 (by simp [twoBytes]) rfl (by decide),
    ((pipes_fifo twoBytes_runs.choose_spec).2.2.2 (twoBytes.take 6) [] 2 5 [] (.finished 0) rfl
      (by simp [twoBytes]) rfl (by decide)).1⟩

end Xv6
