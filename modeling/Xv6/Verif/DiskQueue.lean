import Mathlib.Data.Fintype.Card
import Xv6.Ide
import Xv6.Lib.Runs

/-!
# The disk queue

The queue of `ide.c` holds the requests that are not complete, in the order in which they were
made; the controller has the command of the first one. After so many commands the disk is what
the requests leave that are executed one after the other at once, and a request that is complete
has left its buffer as that does.
-/

namespace Xv6

/-! ## Flags -/

/-- The flags of a buffer after its request. -/
def doneFlags (flags : BitVec 32) : BitVec 32 := (flags ||| B_VALID) &&& ~~~B_DIRTY

/-- Clearing before setting makes no difference. -/
theorem clear_then_set (flags : BitVec 32) : flags &&& ~~~B_DIRTY ||| B_VALID = doneFlags flags := by
  have kept : B_VALID &&& ~~~B_DIRTY = B_VALID := by decide
  rw [doneFlags, BitVec.and_or_distrib_right, kept]

/-- Nothing has to be cleared in a clean buffer. -/
theorem set_clean {flags : BitVec 32} (clean : flags &&& B_DIRTY = 0) :
    flags ||| B_VALID = doneFlags flags := by
  have same : flags &&& ~~~B_DIRTY = flags := by
    ext i inside
    have bit := congrArg (fun v => v.getLsbD i) clean
    simp at bit ⊢
    grind
  rw [← clear_then_set, same]

namespace DiskBuf

variable {π β : Type}

/-- The buffer without its place in the queue. -/
def unlinked (b : DiskBuf π β) : DiskBuf π β := { b with qnext := none }

variable {a b : DiskBuf π β}

/-- Buffers that differ in `qnext` alone make the same command. -/
theorem idestart_congr (same : a.unlinked = b.unlinked) : idestart a = idestart b := by
  change idestart a.unlinked = idestart b.unlinked
  rw [same]

/-- Buffers that differ in `qnext` alone have the same holder. -/
theorem holder_congr (same : a.unlinked = b.unlinked) : a.holder = b.holder :=
  congrArg (fun c => c.holder) same

/-- Buffers that differ in `qnext` alone are in sync together. -/
theorem synced_congr (same : a.unlinked = b.unlinked) : a.synced ↔ b.synced := by
  have flags : a.flags = b.flags := congrArg (fun c => c.flags) same
  unfold synced
  rw [flags]

/-- Buffers that differ in `qnext` alone are dirty together. -/
theorem dirty_congr (same : a.unlinked = b.unlinked) : a.dirty ↔ b.dirty := by
  have flags : a.flags = b.flags := congrArg (fun c => c.flags) same
  unfold dirty
  rw [flags]

end DiskBuf

/-! ## Requests executed at once -/

section AtOnce

variable {π β : Type}

/-- The disk after a request is executed at once. -/
def DiskBuf.writeTo (b : DiskBuf π β) (disk : Drives) : Drives :=
  if b.dirty then disk.write (b.dev % 2) b.blockno b.data else disk

/-- The data after a request is executed at once. -/
def DiskBuf.dataFrom (b : DiskBuf π β) (disk : Drives) : Block :=
  if b.dirty then b.data else disk (b.dev % 2) b.blockno

/-- The buffer after a request is executed at once. -/
def DiskBuf.after (b : DiskBuf π β) (disk : Drives) : DiskBuf π β :=
  { b with flags := doneFlags b.flags, data := b.dataFrom disk }

/-- The disk after requests are executed at once, in order. -/
def Drives.after (disk : Drives) (requests : List (DiskBuf π β)) : Drives :=
  requests.foldl (fun disk b => b.writeTo disk) disk

/-- Requests one after the other. -/
theorem Drives.after_append (disk : Drives) (first second : List (DiskBuf π β)) :
    disk.after (first ++ second) = (disk.after first).after second := List.foldl_append ..

/-- One more request. -/
theorem Drives.after_snoc (disk : Drives) (requests : List (DiskBuf π β)) (b : DiskBuf π β) :
    disk.after (requests ++ [b]) = b.writeTo (disk.after requests) := by
  simp [Drives.after]

/-- The command of a block in range names the drive and the sector of the buffer. -/
theorem idestart_execute {b : DiskBuf π β} {c : IdeCommand} (started : idestart b = some c)
    (disk : Drives) :
    (c.execute disk).1 = b.writeTo disk ∧ (¬b.dirty → (c.execute disk).2 = b.dataFrom disk) := by
  unfold idestart at started
  by_cases far : FSSIZE ≤ b.blockno
  · rw [if_pos far] at started
    cases started
  · rw [if_neg far] at started
    cases started
    have range : b.blockno < 40000 := Nat.not_le.mp far
    have top : b.blockno / 2 ^ 24 = 0 := by omega
    have drive : (0xe0 ||| (b.dev % 2 * 2 ^ 4) ||| (b.blockno / 2 ^ 24 % 2 ^ 4)) / 2 ^ 4 % 2 =
        b.dev % 2 := by
      rw [top]
      rcases Nat.mod_two_eq_zero_or_one b.dev with even | odd
      · rw [even]
        decide
      · rw [odd]
        decide
    have high : (0xe0 ||| (b.dev % 2 * 2 ^ 4) ||| (b.blockno / 2 ^ 24 % 2 ^ 4)) % 2 ^ 4 = 0 := by
      rw [top]
      rcases Nat.mod_two_eq_zero_or_one b.dev with even | odd
      · rw [even]
        decide
      · rw [odd]
        decide
    have sector : b.blockno % 2 ^ 8 + 2 ^ 8 * (b.blockno / 2 ^ 8 % 2 ^ 8) +
        2 ^ 16 * (b.blockno / 2 ^ 16 % 2 ^ 8) + 2 ^ 24 * 0 = b.blockno := by
      omega
    unfold IdeCommand.execute IdeCommand.drive IdeCommand.sector DiskBuf.writeTo DiskBuf.dataFrom
    dsimp only
    rw [drive, high, sector]
    by_cases dirty : b.dirty
    · simp only [if_pos dirty, if_true]
      exact ⟨trivial, fun clean => absurd dirty clean⟩
    · simp only [if_neg dirty]
      exact ⟨trivial, fun _ => trivial⟩

end AtOnce

namespace Ide

/-! ## Requests of a run -/

/-- A request that joined the queue. -/
structure Submission (π β : Type) where
  /-- The process. -/
  proc : π
  /-- Its buffer. -/
  buf : β
  request : DiskBuf π β

variable {π β : Type}

/-- The requests of a run, in the order in which they joined the queue. -/
def submissions (steps : List (IdeStep π β)) : List (Submission π β) :=
  steps.filterMap fun
    | .submitted p b request _ => some ⟨p, b, request⟩
    | _ => none

/-- The commands of a run, in the order in which they were started. -/
def started (steps : List (IdeStep π β)) : List IdeCommand :=
  steps.filterMap fun
    | .submitted _ _ _ c => c
    | .completed _ c => c
    | _ => none

/-- How many commands were executed. -/
def executions (steps : List (IdeStep π β)) : Nat :=
  steps.countP fun
    | .executed => true
    | _ => false

/-- How many requests were completed. -/
def completions (steps : List (IdeStep π β)) : Nat :=
  steps.countP fun
    | .completed _ _ => true
    | _ => false

/-- The requests that are not complete. -/
def pending (steps : List (IdeStep π β)) : List (Submission π β) :=
  (submissions steps).drop (completions steps)

/-- The requests alone. -/
def requestsOf (subs : List (Submission π β)) : List (DiskBuf π β) := subs.map Submission.request

/-- The requests of two lists. -/
theorem requestsOf_append (first second : List (Submission π β)) :
    requestsOf (first ++ second) = requestsOf first ++ requestsOf second := List.map_append

/-- What holds after every run from this disk. -/
structure Driving (disk : Drives) (steps : List (IdeStep π β)) (s : Ide π β) : Prop where
  count : s.count = (submissions steps).length
  /-- No more requests are complete than were made. -/
  bound : completions steps ≤ (submissions steps).length
  /-- The queue holds the requests that are not complete, in order. -/
  queued : Chain.Visits (fun b => (s.buf b).qnext) s.idequeue ((pending steps).map Submission.buf)
  /-- The process of a request that is not complete is in its call, and not woken by the driver. -/
  waiting : ∀ k sub, (submissions steps)[k]? = some sub → completions steps ≤ k →
    ∃ stage, s.caller sub.proc = some ⟨k, sub.buf, stage⟩ ∧ stage ≠ .woken
  /-- The buffer of a request that is not complete is as it was. -/
  unchanged : ∀ k sub, (submissions steps)[k]? = some sub → completions steps ≤ k →
    (s.buf sub.buf).unlinked = sub.request.unlinked
  /-- A request is made for a locked buffer that is not in sync. -/
  proper : ∀ sub ∈ submissions steps, sub.request.holder = some sub.proc ∧ ¬sub.request.synced
  /-- A process in a call has made its request and holds its buffer, which is as it has to be once
  the request is complete. -/
  calling : ∀ p call, s.caller p = some call →
    ∃ sub, (submissions steps)[call.number]? = some sub ∧ sub.proc = p ∧ sub.buf = call.buf ∧
      (s.buf call.buf).holder = some p ∧
      (call.number < completions steps → (s.buf call.buf).unlinked =
        (sub.request.after (disk.after (requestsOf ((submissions steps).take call.number)))).unlinked)
  /-- The controller has the command of the first request that is not complete. -/
  active : ∀ sub, (submissions steps)[completions steps]? = some sub →
    ∃ c, idestart sub.request = some c ∧
      ((s.controller = .busy c ∧ executions steps = completions steps) ∨
        ∃ port, s.controller = .finished c port ∧ executions steps = completions steps + 1 ∧
          (¬sub.request.dirty → port =
            sub.request.dataFrom (disk.after (requestsOf ((submissions steps).take (completions steps))))))
  /-- It rests when all requests are complete. -/
  resting : completions steps = (submissions steps).length →
    s.controller = .idle ∧ executions steps = completions steps
  /-- The disk is what the requests whose commands were executed leave. -/
  disk : s.disk = disk.after (requestsOf ((submissions steps).take (executions steps)))
  /-- The commands were started in order, each when the one before it was complete. -/
  order : (started steps).map some =
    ((submissions steps).take (completions steps + 1)).map fun sub => idestart sub.request

/-! ## Labels -/

section Labels

variable {steps : List (IdeStep π β)} {p : π} {b : β} {request : DiskBuf π β}
  {c : Option IdeCommand} {call : IdeCall β}

theorem submissions_submitted :
    submissions (steps ++ [.submitted p b request c]) = submissions steps ++ [⟨p, b, request⟩] := by
  simp [submissions]

theorem submissions_completed : submissions (steps ++ [.completed b c]) = submissions steps := by
  simp [submissions]

theorem started_submitted :
    started (steps ++ [.submitted p b request c]) = started steps ++ c.toList := by
  cases c <;> simp [started]

theorem started_completed : started (steps ++ [.completed b c]) = started steps ++ c.toList := by
  cases c <;> simp [started]

theorem executions_submitted :
    executions (steps ++ [.submitted p b request c]) = executions steps := by
  simp [executions]

theorem executions_completed : executions (steps ++ [.completed b c]) = executions steps := by
  simp [executions]

theorem executions_executed :
    executions (steps ++ [(.executed : IdeStep π β)]) = executions steps + 1 := by
  simp [executions]

theorem completions_submitted :
    completions (steps ++ [.submitted p b request c]) = completions steps := by
  simp [completions]

theorem completions_completed :
    completions (steps ++ [.completed b c]) = completions steps + 1 := by
  simp [completions]

/-- The step neither makes nor starts nor completes a request. -/
def Silent (step : IdeStep π β) : Prop :=
  step = .quiet ∨ step = .executed ∨ ∃ p call, step = .returned p call

theorem Silent.same {step : IdeStep π β} (silent : Silent step) (steps : List (IdeStep π β)) :
    submissions (steps ++ [step]) = submissions steps ∧ started (steps ++ [step]) = started steps ∧
      completions (steps ++ [step]) = completions steps := by
  rcases silent with rfl | rfl | ⟨p, call, rfl⟩ <;> simp [submissions, started, completions]

theorem executions_quiet : executions (steps ++ [.quiet]) = executions steps := by
  simp [executions]

theorem executions_returned : executions (steps ++ [.returned p call]) = executions steps := by
  simp [executions]

end Labels

/-! ## The list -/

section Append

variable [DecidableEq β] {s : Ide π β} {queue : List β} {b : β}

/-- What `append` leaves as it is. -/
structure SameButList (s t : Ide π β) : Prop where
  /-- The buffers. -/
  buf : ∀ x, (t.buf x).unlinked = (s.buf x).unlinked
  disk : t.disk = s.disk
  controller : t.controller = s.controller
  caller : t.caller = s.caller
  count : t.count = s.count

/-- Setting `qnext` leaves everything else. -/
theorem link_same (s : Ide π β) (b : β) (x : Option β) : SameButList s (s.link b x) := by
  refine ⟨?_, rfl, rfl, rfl, rfl⟩
  intro y
  by_cases same : y = b
  · subst same
    simp [link, setBuf, DiskBuf.unlinked]
  · simp [link, setBuf, same]

/-- The successors after `qnext` is set. -/
theorem link_qnext (s : Ide π β) (b : β) (x : Option β) :
    (fun y => ((s.link b x).buf y).qnext) = Function.update (fun y => (s.buf y).qnext) b x := by
  funext y
  by_cases same : y = b
  · subst same
    simp [link, setBuf]
  · simp [link, setBuf, same]

variable [Fintype β]

/-- `append` leaves everything but the list. -/
theorem append_same (s : Ide π β) (b : β) : SameButList s (s.append b) := by
  have first := link_same s b none
  unfold append
  dsimp only
  split
  · exact ⟨first.buf, first.disk, first.controller, first.caller, first.count⟩
  · next x _ =>
    have second := link_same (s.link b none)
      (Chain.last (fun y => ((s.link b none).buf y).qnext) x (Fintype.card β)) (some b)
    exact ⟨fun y => (second.buf y).trans (first.buf y), second.disk.trans first.disk,
      second.controller.trans first.controller, second.caller.trans first.caller,
      second.count.trans first.count⟩

/-- `append` puts the buffer at the end of the queue. -/
theorem append_visits (visits : Chain.Visits (fun x => (s.buf x).qnext) s.idequeue queue)
    (new : b ∉ queue) (distinct : queue.Nodup) :
    Chain.Visits (fun x => ((s.append b).buf x).qnext) (s.append b).idequeue (queue ++ [b]) := by
  have qnexts := link_qnext s b none
  rcases List.eq_nil_or_concat queue with empty | ⟨front, x, whole⟩
  · subst empty
    have none : s.idequeue = none := visits
    have result : s.append b = { s.link b Option.none with idequeue := some b } := by
      unfold append
      dsimp only
      rw [show (s.link b Option.none).idequeue = Option.none from none]
    rw [result]
    refine ⟨rfl, ?_⟩
    have ends := congrFun qnexts b
    rw [Function.update_self] at ends
    exact ends
  · rw [List.concat_eq_append] at whole
    subst whole
    obtain ⟨a, first⟩ : ∃ a, s.idequeue = some a := by
      cases front with
      | nil => exact ⟨x, visits.1⟩
      | cons a front => exact ⟨a, visits.1⟩
    rw [first] at visits
    have kept : Chain.Visits (fun y => ((s.link b none).buf y).qnext) (some a) (front ++ [x]) := by
      apply visits.congr
      intro y member
      have other : y ≠ b := by
        rintro rfl
        exact new member
      have successor := congrFun qnexts y
      rw [Function.update_of_ne other] at successor
      exact successor
    have short : front.length ≤ Fintype.card β := by
      have fits := distinct.length_le_card
      rw [List.length_append] at fits
      omega
    have last := kept.last_eq short
    have result : s.append b = (s.link b none).link x (some b) := by
      unfold append
      dsimp only
      rw [show (s.link b none).idequeue = some a from first]
      dsimp only
      rw [last]
    rw [result, link_qnext, qnexts]
    change Chain.Visits _ s.idequeue _
    rw [first]
    exact visits.append new distinct

/-- `append` puts the buffer at the head exactly if the queue was empty. -/
theorem append_head (visits : Chain.Visits (fun x => (s.buf x).qnext) s.idequeue queue)
    (new : b ∉ queue) (distinct : queue.Nodup) :
    (s.append b).idequeue = some b ↔ queue = [] := by
  have after := append_visits visits new distinct
  cases queue with
  | nil => exact ⟨fun _ => rfl, fun _ => after.1⟩
  | cons a rest =>
    constructor
    · intro head
      have first : (s.append b).idequeue = some a := after.1
      rw [head] at first
      have same : b = a := Option.some.inj first
      exact absurd (same ▸ List.mem_cons_self) new
    · intro wrong
      cases wrong

end Append

/-! ## Steps -/

namespace Driving

variable {disk : Drives} {steps : List (IdeStep π β)} {s t : Ide π β}

/-- A request that is not complete is in the list of those. -/
theorem pending_getElem? (steps : List (IdeStep π β)) (i : Nat) :
    (pending steps)[i]? = (submissions steps)[completions steps + i]? := List.getElem?_drop

/-- The holder of a buffer in the queue is the process of its request. -/
theorem holder (inv : Driving disk steps s) {k : Nat} {sub : Submission π β}
    (known : (submissions steps)[k]? = some sub) (waits : completions steps ≤ k) :
    (s.buf sub.buf).holder = some sub.proc := by
  have member := List.mem_of_getElem? known
  rw [DiskBuf.holder_congr (inv.unchanged k sub known waits)]
  exact (inv.proper sub member).1

/-- Calls on one buffer are one call. -/
theorem one_call (inv : Driving disk steps s) {p q : π} {call call' : IdeCall β}
    (first : s.caller p = some call) (second : s.caller q = some call') (same : call.buf = call'.buf) :
    p = q ∧ call = call' := by
  obtain ⟨_, _, _, _, held, _⟩ := inv.calling p call first
  obtain ⟨_, _, _, _, held', _⟩ := inv.calling q call' second
  rw [same, held'] at held
  have procs : q = p := Option.some.inj held
  subst procs
  rw [first] at second
  exact ⟨rfl, Option.some.inj second⟩

/-- The buffers in the queue are distinct. -/
theorem distinct (inv : Driving disk steps s) : ((pending steps).map Submission.buf).Nodup := by
  rw [List.nodup_iff_getElem?_ne_getElem?]
  intro i j before inside same
  rw [List.length_map] at inside
  have insideFirst : i < (pending steps).length := by omega
  rw [List.getElem?_map, List.getElem?_map, List.getElem?_eq_getElem insideFirst,
    List.getElem?_eq_getElem inside] at same
  have bufs := Option.some.inj same
  have first := List.getElem?_eq_getElem insideFirst
  have second := List.getElem?_eq_getElem inside
  rw [pending_getElem?] at first second
  obtain ⟨_, callFirst, _⟩ := inv.waiting _ _ first (Nat.le_add_right _ _)
  obtain ⟨_, callSecond, _⟩ := inv.waiting _ _ second (Nat.le_add_right _ _)
  have calls := (inv.one_call callFirst callSecond bufs).2
  have numbers := congrArg IdeCall.number calls
  dsimp only at numbers
  omega

/-- A buffer whose holder is in no call is not in the queue. -/
theorem not_queued (inv : Driving disk steps s) {p : π} {b : β} (held : (s.buf b).holder = some p)
    (idle : s.caller p = none) : b ∉ (pending steps).map Submission.buf := by
  intro member
  obtain ⟨sub, inQueue, same⟩ := List.mem_map.mp member
  obtain ⟨i, found⟩ := List.mem_iff_getElem?.mp inQueue
  rw [pending_getElem?] at found
  have holder := inv.holder found (Nat.le_add_right _ _)
  rw [same, held] at holder
  have procs : p = sub.proc := Option.some.inj holder
  obtain ⟨_, call, _⟩ := inv.waiting _ _ found (Nat.le_add_right _ _)
  rw [← procs, idle] at call
  cases call

/-- The queue is empty exactly if all requests are complete. -/
theorem empty_iff (inv : Driving disk steps s) :
    (pending steps).map Submission.buf = [] ↔ completions steps = (submissions steps).length := by
  rw [List.map_eq_nil_iff, pending, List.drop_eq_nil_iff]
  have bound := inv.bound
  omega

/-- A step that makes, starts, executes and completes nothing. -/
theorem relabel (inv : Driving disk steps s) {step : IdeStep π β} (silent : Silent step)
    (rests : executions (steps ++ [step]) = executions steps) : Driving disk (steps ++ [step]) s := by
  obtain ⟨subs, starts, completes⟩ := silent.same steps
  have waits : pending (steps ++ [step]) = pending steps := by
    rw [pending, pending, subs, completes]
  constructor
  · rw [subs]
    exact inv.count
  · rw [subs, completes]
    exact inv.bound
  · rw [waits]
    exact inv.queued
  · rw [subs, completes]
    exact inv.waiting
  · rw [subs, completes]
    exact inv.unchanged
  · rw [subs]
    exact inv.proper
  · rw [subs, completes]
    exact inv.calling
  · rw [subs, completes, rests]
    exact inv.active
  · rw [subs, completes, rests]
    exact inv.resting
  · rw [subs, rests]
    exact inv.disk
  · rw [subs, completes, starts]
    exact inv.order

/-- The first request that is not complete, if there is one. -/
theorem first (inv : Driving disk steps s) :
    completions steps = (submissions steps).length ∨
      ∃ sub, (submissions steps)[completions steps]? = some sub := by
  rcases Nat.lt_or_ge (completions steps) (submissions steps).length with inside | outside
  · right
    exact ⟨_, List.getElem?_eq_getElem inside⟩
  · left
    exact Nat.le_antisymm inv.bound outside

/-- No more commands were executed than requests were made. -/
theorem executed_le (inv : Driving disk steps s) :
    executions steps ≤ (submissions steps).length := by
  rcases inv.first with rests | ⟨sub, known⟩
  · rw [(inv.resting rests).2]
    exact inv.bound
  · have inside := (List.getElem?_eq_some_iff.mp known).1
    obtain ⟨c, _, busy | finished⟩ := inv.active sub known
    · rw [busy.2]
      exact inv.bound
    · obtain ⟨_, _, count, _⟩ := finished
      omega

/-- A call goes on without being woken by the driver. -/
theorem restage (inv : Driving disk steps s) [DecidableEq π] {p : π} {call : IdeCall β}
    (known : s.caller p = some call) {stage : IdeStage} (notWoken : stage ≠ .woken) :
    Driving disk steps (s.setCaller p (some { call with stage := stage })) := by
  refine ⟨inv.count, inv.bound, inv.queued, ?_, inv.unchanged, inv.proper, ?_, inv.active,
    inv.resting, inv.disk, inv.order⟩
  · intro k sub found waits
    obtain ⟨old, before, oldStage⟩ := inv.waiting k sub found waits
    by_cases same : sub.proc = p
    · rw [same, known] at before
      cases Option.some.inj before
      refine ⟨stage, ?_, notWoken⟩
      rw [same]
      exact Function.update_self ..
    · refine ⟨old, ?_, oldStage⟩
      exact (Function.update_of_ne same ..).trans before
  · intro q call' known'
    by_cases same : q = p
    · subst same
      have now : (s.setCaller q (some { call with stage := stage })).caller q =
          some { call with stage := stage } := Function.update_self ..
      rw [now] at known'
      cases known'
      exact inv.calling q call known
    · have other : (s.setCaller p (some { call with stage := stage })).caller q = s.caller q :=
        Function.update_of_ne same ..
      rw [other] at known'
      exact inv.calling q call' known'

/-- A call whose buffer is in sync returns. -/
theorem leave (inv : Driving disk steps s) [DecidableEq π] {p : π} {call : IdeCall β}
    (known : s.caller p = some call) (synced : (s.buf call.buf).synced) :
    Driving disk steps (s.setCaller p none) := by
  refine ⟨inv.count, inv.bound, inv.queued, ?_, inv.unchanged, inv.proper, ?_, inv.active,
    inv.resting, inv.disk, inv.order⟩
  · intro k sub found waits
    obtain ⟨stage, before, notWoken⟩ := inv.waiting k sub found waits
    by_cases same : sub.proc = p
    · rw [same, known] at before
      have calls := Option.some.inj before
      rw [calls, DiskBuf.synced_congr (inv.unchanged k sub found waits)] at synced
      exact absurd synced (inv.proper sub (List.mem_of_getElem? found)).2
    · exact ⟨stage, (Function.update_of_ne same ..).trans before, notWoken⟩
  · intro q call' known'
    by_cases same : q = p
    · subst same
      have now : (s.setCaller q none).caller q = none := Function.update_self ..
      rw [now] at known'
      cases known'
    · have other : (s.setCaller p none).caller q = s.caller q := Function.update_of_ne same ..
      rw [other] at known'
      exact inv.calling q call' known'

/-- A buffer that is in no request changes. -/
theorem change (inv : Driving disk steps s) [DecidableEq β] {b : β} (buf : DiskBuf π β)
    (place : buf.qnext = (s.buf b).qnext)
    (free : ∀ p call, s.caller p = some call → (s.buf b).holder = some p → call.buf ≠ b) :
    Driving disk steps (s.setBuf b buf) := by
  have others : ∀ x, x ≠ b → (s.setBuf b buf).buf x = s.buf x := fun x other =>
    Function.update_of_ne other ..
  have places : (fun x => ((s.setBuf b buf).buf x).qnext) = fun x => (s.buf x).qnext := by
    funext x
    by_cases same : x = b
    · subst same
      have now : (s.setBuf x buf).buf x = buf := Function.update_self ..
      rw [now, place]
    · rw [others x same]
  refine ⟨inv.count, inv.bound, ?_, inv.waiting, ?_, inv.proper, ?_, inv.active, inv.resting,
    inv.disk, inv.order⟩
  · rw [places]
    exact inv.queued
  · intro k sub found waits
    have other : sub.buf ≠ b := by
      rintro rfl
      obtain ⟨_, call, _⟩ := inv.waiting k sub found waits
      exact free sub.proc _ call (inv.holder found waits) rfl
    rw [others _ other]
    exact inv.unchanged k sub found waits
  · intro p call known
    obtain ⟨sub, found, proc, same, held, result⟩ := inv.calling p call known
    have other : call.buf ≠ b := by
      intro equal
      rw [equal] at held
      exact free p call known held equal
    rw [others _ other]
    exact ⟨sub, found, proc, same, held, result⟩

/-- The controller executes its command. -/
theorem execute (inv : Driving disk steps s) {c : IdeCommand} (busy : s.controller = .busy c) :
    Driving disk (steps ++ [.executed]) { s with
      disk := (c.execute s.disk).1, controller := .finished c (c.execute s.disk).2 } := by
  obtain ⟨subs, starts, completes⟩ :=
    (show Silent (.executed : IdeStep π β) from Or.inr (Or.inl rfl)).same steps
  have executes : executions (steps ++ [(.executed : IdeStep π β)]) = executions steps + 1 :=
    executions_executed
  have waits : pending (steps ++ [.executed]) = pending steps := by
    rw [pending, pending, subs, completes]
  obtain ⟨sub, known⟩ : ∃ sub, (submissions steps)[completions steps]? = some sub := by
    rcases inv.first with rests | found
    · rw [(inv.resting rests).1] at busy
      cases busy
    · exact found
  obtain ⟨c', command, current⟩ := inv.active sub known
  obtain ⟨same, count⟩ : c = c' ∧ executions steps = completions steps := by
    rcases current with ⟨now, count⟩ | ⟨port, now, _⟩
    · rw [busy] at now
      cases now
      exact ⟨rfl, count⟩
    · rw [busy] at now
      cases now
  subst same
  obtain ⟨written, port⟩ := idestart_execute command s.disk
  have before := inv.disk
  rw [count] at before
  constructor
  · rw [subs]
    exact inv.count
  · rw [subs, completes]
    exact inv.bound
  · rw [waits]
    exact inv.queued
  · rw [subs, completes]
    exact inv.waiting
  · rw [subs, completes]
    exact inv.unchanged
  · rw [subs]
    exact inv.proper
  · rw [subs, completes]
    exact inv.calling
  · rw [subs, completes, executes, count]
    intro sub' known'
    rw [known] at known'
    cases known'
    refine ⟨c, command, Or.inr ⟨_, rfl, rfl, ?_⟩⟩
    intro clean
    rw [port clean, before]
  · rw [subs, completes]
    intro rests
    rw [rests] at known
    simp at known
  · rw [subs, executes, count]
    have grown : (submissions steps).take (completions steps + 1) =
        (submissions steps).take (completions steps) ++ [sub] := by
      rw [List.take_add_one, known]
      rfl
    rw [grown, requestsOf, List.map_append, List.map_singleton, Drives.after_snoc]
    change (c.execute s.disk).1 = _
    rw [written, before]
    rfl
  · rw [subs, completes, starts]
    exact inv.order

/-- A request joins the queue. `started` is its command if the queue was empty. -/
theorem submit (inv : Driving disk steps s) [DecidableEq π] [DecidableEq β] [Fintype β] {p : π}
    {b : β} (idle : s.caller p = none) (held : (s.buf b).holder = some p)
    (work : ¬(s.buf b).synced) (command : Option IdeCommand) (controller : Controller)
    (starts : (completions steps = (submissions steps).length ∧
        ∃ c, command = some c ∧ idestart (s.buf b) = some c ∧ controller = .busy c) ∨
      (completions steps < (submissions steps).length ∧ command = none ∧
        controller = s.controller)) :
    Driving disk (steps ++ [.submitted p b (s.buf b) command])
      { (s.append b).setCaller p (some ⟨s.count, b, .asleep⟩) with
        count := s.count + 1, controller := controller } := by
  have same := append_same s b
  have new := inv.not_queued held idle
  have bound := inv.bound
  have executed := inv.executed_le
  have subs : submissions (steps ++ [.submitted p b (s.buf b) command]) =
      submissions steps ++ [⟨p, b, s.buf b⟩] := submissions_submitted
  have completes : completions (steps ++ [.submitted p b (s.buf b) command]) = completions steps :=
    completions_submitted
  have executes : executions (steps ++ [.submitted p b (s.buf b) command]) = executions steps :=
    executions_submitted
  have waits : (pending (steps ++ [.submitted p b (s.buf b) command])).map Submission.buf =
      (pending steps).map Submission.buf ++ [b] := by
    rw [pending, subs, completes, List.drop_append_of_le_length bound, List.map_append]
    rfl
  -- A request is an old one or the new one.
  have split : ∀ k sub, (submissions steps ++ [⟨p, b, s.buf b⟩])[k]? = some sub →
      (submissions steps)[k]? = some sub ∨ (k = (submissions steps).length ∧ sub = ⟨p, b, s.buf b⟩) := by
    intro k sub found
    rcases Nat.lt_trichotomy k (submissions steps).length with old | last | beyond
    · rw [List.getElem?_append_left old] at found
      exact Or.inl found
    · rw [last, List.getElem?_concat_length] at found
      exact Or.inr ⟨last, (Option.some.inj found).symm⟩
    · rw [List.getElem?_eq_none (by simp; omega)] at found
      cases found
  have notSelf : ∀ k sub, (submissions steps)[k]? = some sub → completions steps ≤ k → sub.proc ≠ p := by
    rintro k sub found later rfl
    obtain ⟨_, call, _⟩ := inv.waiting k sub found later
    rw [idle] at call
    cases call
  constructor
  · rw [subs, List.length_append]
    change s.count + 1 = _
    rw [inv.count]
    rfl
  · rw [subs, completes, List.length_append]
    omega
  · rw [waits]
    exact append_visits inv.queued new inv.distinct
  · rw [subs, completes]
    intro k sub found later
    change ∃ stage, Function.update (s.append b).caller p _ sub.proc = _ ∧ _
    rcases split k sub found with old | ⟨last, isNew⟩
    · rw [Function.update_of_ne (notSelf k sub old later), same.caller]
      exact inv.waiting k sub old later
    · subst last
      subst isNew
      refine ⟨.asleep, ?_, by decide⟩
      rw [Function.update_self, inv.count]
  · rw [subs, completes]
    intro k sub found later
    rcases split k sub found with old | ⟨_, isNew⟩
    · exact (same.buf sub.buf).trans (inv.unchanged k sub old later)
    · subst isNew
      exact same.buf b
  · rw [subs]
    intro sub member
    rcases List.mem_append.mp member with old | last
    · exact inv.proper sub old
    · rw [List.mem_singleton.mp last]
      exact ⟨held, work⟩
  · rw [subs, completes]
    intro q call known
    change Function.update (s.append b).caller p (some ⟨s.count, b, .asleep⟩) q = some call at known
    by_cases self : q = p
    · rw [self, Function.update_self] at known
      cases known
      refine ⟨⟨p, b, s.buf b⟩, ?_, self.symm, rfl, ?_, ?_⟩
      · rw [inv.count, List.getElem?_concat_length]
      · rw [self]
        exact (DiskBuf.holder_congr (same.buf b)).trans held
      · intro early
        change s.count < completions steps at early
        rw [inv.count] at early
        omega
    · rw [Function.update_of_ne self, same.caller] at known
      obtain ⟨sub, found, proc, equal, holds, result⟩ := inv.calling q call known
      have inside := (List.getElem?_eq_some_iff.mp found).1
      refine ⟨sub, ?_, proc, equal, (DiskBuf.holder_congr (same.buf _)).trans holds, ?_⟩
      · rw [List.getElem?_append_left inside]
        exact found
      · intro early
        rw [List.take_append_of_le_length (Nat.le_of_lt inside)]
        exact (same.buf _).trans (result early)
  · rw [subs, completes, executes]
    intro sub found
    rcases split _ sub found with old | ⟨last, isNew⟩
    · have inside := (List.getElem?_eq_some_iff.mp old).1
      rw [List.take_append_of_le_length (Nat.le_of_lt inside)]
      rcases starts with ⟨rests, _⟩ | ⟨_, _, kept⟩
      · omega
      · have current := inv.active sub old
        rw [← kept] at current
        exact current
    · rcases starts with ⟨rests, c, _, command, now⟩ | ⟨busy, _⟩
      · subst isNew
        exact ⟨c, command, Or.inl ⟨now, (inv.resting rests).2⟩⟩
      · omega
  · rw [subs, completes, List.length_append, List.length_singleton]
    intro rests
    omega
  · rw [subs, executes, List.take_append_of_le_length executed]
    exact same.disk.trans inv.disk
  · rw [subs, completes, started_submitted, List.map_append, inv.order]
    rcases starts with ⟨rests, c, some, command, _⟩ | ⟨busy, none, _⟩
    · rw [some, rests, List.take_of_length_le (Nat.le_succ _), List.take_of_length_le (by simp),
        List.map_append]
      simp [command]
    · rw [none, List.take_append_of_le_length (by omega)]
      exact List.append_nil _

/-- `iderw` up to where it sleeps. -/
theorem iderw (inv : Driving disk steps s) [DecidableEq π] [DecidableEq β] [Fintype β] {p : π}
    {b : β} {step : IdeStep π β} (idle : s.caller p = none)
    (taken : s.iderw p b = some (step, t)) : Driving disk (steps ++ [step]) t := by
  unfold Ide.iderw at taken
  dsimp only at taken
  by_cases bad : (s.buf b).holder ≠ some p ∨ (s.buf b).synced ∨
      ((s.buf b).dev ≠ 0 ∧ s.havedisk1 = false)
  · rw [if_pos bad] at taken
    cases taken
  rw [if_neg bad] at taken
  rw [not_or, not_or, not_not] at bad
  have new := inv.not_queued bad.1 idle
  have head := append_head inv.queued new inv.distinct
  rw [inv.empty_iff] at head
  change (if (s.append b).idequeue = some b then _ else _) = _ at taken
  by_cases first : (s.append b).idequeue = some b
  · rw [if_pos first] at taken
    obtain ⟨c, command, result⟩ := Option.map_eq_some_iff.mp taken
    cases result
    exact inv.submit idle bad.1 bad.2.1 (some c) (.busy c)
      (Or.inl ⟨head.mp first, c, rfl, command, rfl⟩)
  · rw [if_neg first] at taken
    cases taken
    have busy : completions steps < (submissions steps).length :=
      Nat.lt_of_le_of_ne inv.bound fun rests => first (head.mpr rests)
    have result := inv.submit idle bad.1 bad.2.1 none s.controller (Or.inr ⟨busy, rfl, rfl⟩)
    have kept : ((s.append b).setCaller p (some ⟨s.count, b, .asleep⟩)).controller = s.controller :=
      (append_same s b).controller
    rw [← kept] at result
    exact result

/-- A call as `wakeup` leaves it. -/
theorem wakeup_caller [DecidableEq β] {b : β} {p : π} {call : IdeCall β}
    (known : (s.wakeup b).caller p = some call) :
    ∃ old, s.caller p = some old ∧ old.number = call.number ∧ old.buf = call.buf := by
  obtain ⟨old, before, result⟩ := Option.map_eq_some_iff.mp known
  refine ⟨old, before, ?_⟩
  split_ifs at result <;> rw [← result] <;> exact ⟨rfl, rfl⟩

/-- Calls on other buffers sleep on. -/
theorem wakeup_other [DecidableEq β] {b : β} {p : π} {call : IdeCall β}
    (known : s.caller p = some call) (other : call.buf ≠ b) : (s.wakeup b).caller p = some call := by
  simp [Ide.wakeup, known, other]

/-- The buffer of a request that becomes complete. -/
theorem completed_buf {request buf : DiskBuf π β} {port : Block} (disk : Drives)
    (unchanged : buf.unlinked = request.unlinked)
    (read : ¬request.dirty → port = request.dataFrom disk) :
    (DiskBuf.unlinked { buf with
      data := if buf.dirty then buf.data else port
      flags := (buf.flags ||| B_VALID) &&& ~~~B_DIRTY }) = (request.after disk).unlinked := by
  have flags : buf.flags = request.flags := congrArg (fun c => c.flags) unchanged
  have dev : buf.dev = request.dev := congrArg (fun c => c.dev) unchanged
  have blockno : buf.blockno = request.blockno := congrArg (fun c => c.blockno) unchanged
  have holder : buf.holder = request.holder := congrArg (fun c => c.holder) unchanged
  have data : buf.data = request.data := congrArg (fun c => c.data) unchanged
  have dirty := DiskBuf.dirty_congr unchanged
  unfold DiskBuf.unlinked DiskBuf.after doneFlags
  dsimp only
  rw [flags, dev, blockno, holder]
  congr 1
  by_cases write : request.dirty
  · rw [if_pos (dirty.mpr write), DiskBuf.dataFrom, if_pos write, data]
  · rw [if_neg (fun wrong => write (dirty.mp wrong)), read write]

/-- The first request is complete, and the next one started if there is one. -/
theorem complete (inv : Driving disk steps s) [DecidableEq β] {c : IdeCommand} {port : Block}
    {sub : Submission π β} (known : (submissions steps)[completions steps]? = some sub)
    (finished : s.controller = .finished c port) (command : Option IdeCommand)
    (controller : Controller)
    (starts : ∀ next, (submissions steps)[completions steps + 1]? = some next →
      ∃ c, command = some c ∧ idestart next.request = some c ∧ controller = .busy c)
    (rests : completions steps + 1 = (submissions steps).length → command = none ∧ controller = .idle) :
    Driving disk (steps ++ [.completed sub.buf command])
      { ({ s with idequeue := (s.buf sub.buf).qnext, controller := .idle }.setBuf sub.buf
          { s.buf sub.buf with
            data := if (s.buf sub.buf).dirty then (s.buf sub.buf).data else port
            flags := ((s.buf sub.buf).flags ||| B_VALID) &&& ~~~B_DIRTY }).wakeup sub.buf with
        controller := controller } := by
  have inside := (List.getElem?_eq_some_iff.mp known).1
  have subs : submissions (steps ++ [.completed sub.buf command]) = submissions steps :=
    submissions_completed
  have completes : completions (steps ++ [.completed sub.buf command]) = completions steps + 1 :=
    completions_completed
  have executes : executions (steps ++ [.completed sub.buf command]) = executions steps :=
    executions_completed
  have parts : pending steps = sub :: pending (steps ++ [.completed sub.buf command]) := by
    rw [pending, pending, subs, completes, List.drop_eq_getElem_cons inside]
    congr 1
    exact (List.getElem?_eq_some_iff.mp known).2
  obtain ⟨mine, mineCall, _⟩ := inv.waiting _ _ known (Nat.le_refl _)
  obtain ⟨_, _, current⟩ := inv.active sub known
  obtain ⟨count, read⟩ : executions steps = completions steps + 1 ∧ (¬sub.request.dirty → port =
      sub.request.dataFrom (disk.after (requestsOf ((submissions steps).take (completions steps))))) := by
    rcases current with ⟨busy, _⟩ | ⟨port', now, count, read⟩
    · rw [finished] at busy
      cases busy
    · rw [finished] at now
      cases now
      exact ⟨count, read⟩
  have later : ∀ k next, (submissions steps)[k]? = some next → completions steps + 1 ≤ k →
      next.buf ≠ sub.buf := by
    intro k next found waits same
    obtain ⟨_, call, _⟩ := inv.waiting k next found (by omega)
    have numbers := congrArg IdeCall.number (inv.one_call call mineCall same).2
    dsimp only at numbers
    omega
  generalize changed : { s with idequeue := (s.buf sub.buf).qnext, controller := .idle }.setBuf sub.buf
    { s.buf sub.buf with
      data := if (s.buf sub.buf).dirty then (s.buf sub.buf).data else port
      flags := ((s.buf sub.buf).flags ||| B_VALID) &&& ~~~B_DIRTY } = u
  have callers : u.caller = s.caller := by rw [← changed]; rfl
  have others : ∀ x, x ≠ sub.buf → u.buf x = s.buf x := by
    intro x other
    rw [← changed]
    exact Function.update_of_ne other ..
  have own : u.buf sub.buf = { s.buf sub.buf with
      data := if (s.buf sub.buf).dirty then (s.buf sub.buf).data else port
      flags := ((s.buf sub.buf).flags ||| B_VALID) &&& ~~~B_DIRTY } := by
    rw [← changed]
    exact Function.update_self ..
  have places : (fun x => (u.buf x).qnext) = fun x => (s.buf x).qnext := by
    funext x
    by_cases same : x = sub.buf
    · subst same
      rw [own]
    · rw [others x same]
  have visits := inv.queued
  rw [parts] at visits
  constructor
  · rw [subs, ← inv.count, ← changed]
    rfl
  · rw [subs, completes]
    omega
  · change Chain.Visits (fun x => (u.buf x).qnext) u.idequeue _
    rw [places, show u.idequeue = (s.buf sub.buf).qnext by rw [← changed]; rfl]
    exact visits.2
  · rw [subs, completes]
    intro k next found waits
    obtain ⟨stage, call, notWoken⟩ := inv.waiting k next found (by omega)
    rw [← callers] at call
    exact ⟨stage, wakeup_other call (later k next found waits), notWoken⟩
  · rw [subs, completes]
    intro k next found waits
    change (u.buf next.buf).unlinked = _
    rw [others _ (later k next found waits)]
    exact inv.unchanged k next found (by omega)
  · rw [subs]
    exact inv.proper
  · rw [subs, completes]
    intro q call after
    obtain ⟨old, before, number, buf⟩ := wakeup_caller after
    rw [callers] at before
    obtain ⟨sub', found, proc, equal, holds, result⟩ := inv.calling q old before
    rw [← number, ← buf]
    change ∃ sub', _ ∧ _ ∧ _ ∧ (u.buf old.buf).holder = _ ∧ (_ → (u.buf old.buf).unlinked = _)
    by_cases same : old.buf = sub.buf
    · have calls := (inv.one_call before mineCall same).2
      rw [calls] at found
      dsimp only at found
      rw [known] at found
      cases found
      refine ⟨sub, ?_, proc, equal, ?_, ?_⟩
      · rw [calls]
        exact known
      · rw [same, own]
        rw [same] at holds
        exact holds
      · intro _
        rw [same, own, calls]
        exact completed_buf _ (inv.unchanged _ _ known (Nat.le_refl _)) read
    · rw [others _ same]
      refine ⟨sub', found, proc, equal, holds, ?_⟩
      intro early
      apply result
      have notMine : old.number ≠ completions steps := by
        intro wrong
        rw [wrong, known] at found
        cases found
        exact same equal.symm
      omega
  · rw [subs, completes, executes]
    intro next found
    obtain ⟨c, _, command, busy⟩ := starts next found
    exact ⟨c, command, Or.inl ⟨busy, count⟩⟩
  · rw [subs, completes, executes]
    intro all
    exact ⟨(rests all).2, count⟩
  · rw [subs, executes, ← inv.disk, ← changed]
    rfl
  · rw [subs, completes, started_completed, List.map_append, inv.order]
    cases next : (submissions steps)[completions steps + 1]? with
    | none =>
      have all : completions steps + 1 = (submissions steps).length := by
        have beyond := List.getElem?_eq_none_iff.mp next
        omega
      rw [(rests all).1, List.take_of_length_le (by omega), List.take_of_length_le (by omega)]
      exact List.append_nil _
    | some next' =>
      obtain ⟨c, isSome, command, _⟩ := starts next' next
      rw [isSome, List.take_add_one (i := completions steps + 1), next, List.map_append]
      simp [command]

/-- The interrupt for a command that was executed. -/
theorem ideintr (inv : Driving disk steps s) [DecidableEq β] {c : IdeCommand} {port : Block}
    {step : IdeStep π β} (finished : s.controller = .finished c port)
    (taken : s.ideintr port = some (step, t)) : Driving disk (steps ++ [step]) t := by
  obtain ⟨sub, known⟩ : ∃ sub, (submissions steps)[completions steps]? = some sub := by
    rcases inv.first with rests | found
    · rw [(inv.resting rests).1] at finished
      cases finished
    · exact found
  have inside := (List.getElem?_eq_some_iff.mp known).1
  have parts : (pending steps).map Submission.buf =
      sub.buf :: ((submissions steps).drop (completions steps + 1)).map Submission.buf := by
    rw [pending, List.drop_eq_getElem_cons inside, List.map_cons, (List.getElem?_eq_some_iff.mp known).2]
  have visits := inv.queued
  rw [parts] at visits
  obtain ⟨head, rest⟩ := visits
  dsimp only at rest
  unfold Ide.ideintr at taken
  rw [head] at taken
  dsimp only [Ide.wakeup, Ide.setBuf] at taken
  cases behind : (s.buf sub.buf).qnext with
  | none =>
    rw [behind] at rest taken
    cases taken
    have all : (submissions steps).length ≤ completions steps + 1 := by
      rw [← List.drop_eq_nil_iff]
      cases remaining : (submissions steps).drop (completions steps + 1) with
      | nil => rfl
      | cons next others =>
        rw [remaining] at rest
        cases rest.1
    have result := inv.complete known finished none .idle
      (by
        intro next found
        have beyond := (List.getElem?_eq_some_iff.mp found).1
        omega)
      (fun _ => ⟨rfl, rfl⟩)
    dsimp only at result
    rw [behind] at result
    exact result
  | some x =>
    rw [behind] at rest taken
    dsimp only at taken
    obtain ⟨c', command, result⟩ := Option.map_eq_some_iff.mp taken
    cases result
    obtain ⟨next, found, same⟩ : ∃ next, (submissions steps)[completions steps + 1]? = some next ∧
        next.buf = x := by
      cases remaining : (submissions steps).drop (completions steps + 1) with
      | nil =>
        rw [remaining] at rest
        cases rest
      | cons next others =>
        rw [remaining] at rest
        refine ⟨next, ?_, (Option.some.inj rest.1).symm⟩
        have front := congrArg (fun l => l[0]?) remaining
        rw [List.getElem?_drop] at front
        exact front
    have other : x ≠ sub.buf := by
      rintro rfl
      obtain ⟨_, call, _⟩ := inv.waiting _ _ found (by omega)
      obtain ⟨_, mine, _⟩ := inv.waiting _ _ known (Nat.le_refl _)
      have numbers := congrArg IdeCall.number (inv.one_call call mine same).2
      dsimp only at numbers
      omega
    have kept : idestart next.request = some c' := by
      rw [← command, ← DiskBuf.idestart_congr (inv.unchanged _ _ found (by omega)), same]
      congr 1
      exact (Function.update_of_ne other ..).symm
    have result := inv.complete known finished (some c') (.busy c')
      (by
        intro next' found'
        rw [found] at found'
        cases found'
        exact ⟨c', rfl, kept, rfl⟩)
      (by
        intro all
        have within := (List.getElem?_eq_some_iff.mp found).1
        omega)
    dsimp only at result
    rw [behind] at result
    exact result

/-- The invariant holds at the start. -/
theorem start (havedisk1 : Bool) (buf : β → DiskBuf π β) (disk : Drives) :
    Driving disk [] (Ide.start havedisk1 buf disk) := by
  refine ⟨rfl, Nat.le_refl 0, rfl, ?_, ?_, ?_, ?_, ?_, fun _ => ⟨rfl, rfl⟩, rfl, rfl⟩
  · intro k sub found
    cases found
  · intro k sub found
    cases found
  · intro sub member
    cases member
  · intro p call known
    cases known
  · intro sub found
    cases found

variable [DecidableEq π] [DecidableEq β] [Fintype β]

/-- Every step keeps the invariant. -/
theorem next (inv : Driving disk steps s) {step : IdeStep π β} (taken : s.Step step t) :
    Driving disk (steps ++ [step]) t := by
  obtain ⟨event, taken⟩ := taken
  cases event with
  | iderw p b =>
    rw [Ide.next] at taken
    cases idle : s.caller p with
    | none =>
      rw [idle] at taken
      exact inv.iderw idle taken
    | some call =>
      rw [idle] at taken
      cases taken
  | execute =>
    rw [Ide.next] at taken
    cases current : s.controller with
    | idle =>
      rw [current] at taken
      cases taken
    | busy c =>
      rw [current] at taken
      cases taken
      exact inv.execute current
    | finished c port =>
      rw [current] at taken
      cases taken
  | ideintr =>
    rw [Ide.next] at taken
    cases current : s.controller with
    | idle =>
      rw [current] at taken
      cases taken
    | busy c =>
      rw [current] at taken
      cases taken
    | finished c port =>
      rw [current] at taken
      exact inv.ideintr current taken
  | resume p =>
    rw [Ide.next] at taken
    cases known : s.caller p with
    | none =>
      rw [known] at taken
      cases taken
    | some call =>
      rw [known] at taken
      dsimp only at taken
      by_cases sleeps : call.stage = .asleep
      · rw [if_pos sleeps] at taken
        cases taken
      · rw [if_neg sleeps] at taken
        by_cases synced : (s.buf call.buf).synced
        · rw [if_pos synced] at taken
          cases taken
          exact (inv.leave known synced).relabel (Or.inr (Or.inr ⟨p, call, rfl⟩)) executions_returned
        · rw [if_neg synced] at taken
          cases taken
          exact (inv.restage known (by decide)).relabel (Or.inl rfl) executions_quiet
  | rouse p =>
    rw [Ide.next] at taken
    cases known : s.caller p with
    | none =>
      rw [known] at taken
      cases taken
    | some call =>
      rw [known] at taken
      dsimp only at taken
      by_cases sleeps : call.stage = .asleep
      · rw [if_pos sleeps] at taken
        cases taken
        exact (inv.restage known (by decide)).relabel (Or.inl rfl) executions_quiet
      · rw [if_neg sleeps] at taken
        cases taken
  | change b flags dev blockno holder data =>
    rw [Ide.next] at taken
    split_ifs at taken with locked
    cases taken
    refine (inv.change { s.buf b with flags, dev, blockno, holder, data } rfl ?_).relabel
      (Or.inl rfl) executions_quiet
    intro p call known held same
    apply locked
    rw [held]
    simp [inRequest, known, same]

/-- The invariant holds after every run. -/
theorem run {havedisk1 : Bool} {buf : β → DiskBuf π β}
    (run : Run Ide.Step (Ide.start havedisk1 buf disk) steps s) : Driving disk steps s :=
  run.history (Driving disk) (start havedisk1 buf disk) fun _ _ _ _ _ inv step => inv.next step

end Driving

end Ide

end Xv6
