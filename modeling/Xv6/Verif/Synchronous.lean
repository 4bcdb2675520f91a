import Xv6.Verif.DiskQueue

/-!
# The queued driver and the driver in memory

The requests of a run, served one after the other by `memide.c`, leave the disk and the buffers
that `ide.c` leaves with its queue, its commands and its interrupts.
-/

namespace Xv6

/-! ## Serving in memory -/

section Memory

variable {π β : Type} [DecidableEq π]

/-- `memide.c` serves requests one after the other: the buffers they leave, and the disk. -/
def Memide.serve (m : Memide) : List (π × DiskBuf π β) → Option (List (DiskBuf π β) × Memide)
  | [] => some ([], m)
  | (p, b) :: rest =>
    match m.iderw p b with
    | none => none
    | some (after, m) => (m.serve rest).map fun served => (after :: served.1, served.2)

/-- One request leaves what a request executed at once leaves. -/
theorem Memide.iderw_after {m m' : Memide} {p : π} {b b' : DiskBuf π β} {disk : Drives}
    (same : m.memdisk = disk 1) (served : m.iderw p b = some (b', m')) :
    b.dev = 1 ∧ b' = b.after disk ∧ m'.memdisk = b.writeTo disk 1 := by
  unfold Memide.iderw at served
  by_cases bad : b.holder ≠ some p ∨ b.synced ∨ b.dev ≠ 1 ∨ m.disksize ≤ b.blockno
  · rw [if_pos bad] at served
    cases served
  rw [if_neg bad] at served
  have one : b.dev = 1 := by
    by_contra wrong
    exact bad (Or.inr (Or.inr (Or.inl wrong)))
  refine ⟨one, ?_⟩
  by_cases dirty : b.dirty
  · rw [if_pos dirty] at served
    cases served
    constructor
    · rw [DiskBuf.after, DiskBuf.dataFrom, if_pos dirty, clear_then_set]
    · rw [DiskBuf.writeTo, if_pos dirty, one, same]
      simp [Drives.write]
  · rw [if_neg dirty] at served
    cases served
    constructor
    · rw [DiskBuf.after, DiskBuf.dataFrom, if_neg dirty, set_clean (not_not.mp dirty), one, same]
    · rw [DiskBuf.writeTo, if_neg dirty]
      exact same

/-- Requests served leave what requests executed at once leave. -/
theorem Memide.serve_after {m m' : Memide} {requests : List (π × DiskBuf π β)}
    {results : List (DiskBuf π β)} {disk : Drives} (same : m.memdisk = disk 1)
    (served : m.serve requests = some (results, m')) :
    m'.memdisk = disk.after (requests.map Prod.snd) 1 ∧
      ∀ k (p : π) (b : DiskBuf π β), requests[k]? = some (p, b) → b.dev = 1 ∧
        results[k]? = some (b.after (disk.after ((requests.take k).map Prod.snd))) := by
  induction requests generalizing m disk results with
  | nil =>
    cases served
    refine ⟨same, ?_⟩
    intro k p b found
    cases found
  | cons request rest step =>
    obtain ⟨p, b⟩ := request
    rw [Memide.serve] at served
    cases first : m.iderw p b with
    | none =>
      rw [first] at served
      cases served
    | some result =>
      obtain ⟨after, m₁⟩ := result
      rw [first] at served
      dsimp only at served
      obtain ⟨others, servedRest, whole⟩ := Option.map_eq_some_iff.mp served
      cases whole
      obtain ⟨one, left, written⟩ := Memide.iderw_after same first
      obtain ⟨final, each⟩ := step written servedRest
      refine ⟨final, ?_⟩
      intro k q c found
      cases k with
      | zero =>
        cases found
        refine ⟨one, ?_⟩
        rw [left]
        rfl
      | succ k => exact each k q c found

/-- The first requests are served if all are. -/
theorem Memide.serve_take {m m' : Memide} {requests : List (π × DiskBuf π β)}
    {results : List (DiskBuf π β)} (served : m.serve requests = some (results, m')) (n : Nat) :
    ∃ m'', m.serve (requests.take n) = some (results.take n, m'') := by
  induction requests generalizing m results n with
  | nil =>
    cases served
    rw [List.take_nil, List.take_nil]
    exact ⟨_, rfl⟩
  | cons request rest step =>
    obtain ⟨p, b⟩ := request
    cases n with
    | zero => exact ⟨m, rfl⟩
    | succ n =>
      rw [Memide.serve] at served
      rw [List.take_succ_cons, Memide.serve]
      cases first : m.iderw p b with
      | none =>
        rw [first] at served
        cases served
      | some result =>
        obtain ⟨after, m₁⟩ := result
        rw [first] at served
        dsimp only at served ⊢
        obtain ⟨others, servedRest, whole⟩ := Option.map_eq_some_iff.mp served
        cases whole
        obtain ⟨m'', front⟩ := step servedRest n
        exact ⟨m'', by rw [front]; rfl⟩

end Memory

/-- A block that none of the requests writes. -/
theorem Drives.after_unwritten {π β : Type} {requests : List (DiskBuf π β)} {blockno : Nat}
    (disk : Drives) (kept : ∀ b ∈ requests, b.dirty → b.blockno ≠ blockno) :
    disk.after requests 1 blockno = disk 1 blockno := by
  induction requests generalizing disk with
  | nil => rfl
  | cons b rest step =>
    have others : ∀ b ∈ rest, b.dirty → b.blockno ≠ blockno := fun b member =>
      kept b (List.mem_cons_of_mem _ member)
    change (b.writeTo disk).after rest 1 blockno = _
    rw [step _ others, DiskBuf.writeTo]
    by_cases dirty : b.dirty
    · rw [if_pos dirty, Drives.write]
      have other := kept b List.mem_cons_self dirty
      by_cases same : 1 = b.dev % 2
      · rw [← same, Function.update_self, Function.update_of_ne (Ne.symm other)]
      · rw [Function.update_of_ne same]
    · rw [if_neg dirty]

namespace Ide

variable {π β : Type} [DecidableEq π] [DecidableEq β] [Fintype β]

/-- The requests of a run with their processes, as `memide.c` serves them. -/
def requests (steps : List (IdeStep π β)) : List (π × DiskBuf π β) :=
  (submissions steps).map fun sub => (sub.proc, sub.request)

/-- The queued driver after a run, beside `memide.c` that has served the requests in order and
has left `results`. -/
structure Refines (m : Memide) (results : List (DiskBuf π β)) (steps : List (IdeStep π β))
    (s : Ide π β) : Prop where
  /-- Commands are started in the order of the requests, each when the one before is complete. -/
  inOrder : (started steps).map some =
    ((submissions steps).take (completions steps + 1)).map fun sub => idestart sub.request
  /-- A command is under way while a request is not complete. -/
  busy : completions steps < (submissions steps).length → s.controller ≠ .idle
  /-- The driver wakes a process only when its own request is complete. -/
  woken : ∀ p call, s.caller p = some call → call.stage = .woken → call.number < completions steps
  /-- The controller is no further than the command under way. -/
  oneAhead : completions steps ≤ executions steps ∧ executions steps ≤ completions steps + 1
  /-- The disk is what `memide.c` leaves after as many requests as commands were executed. -/
  disk : ∃ m', m.serve ((requests steps).take (executions steps)) =
    some (results.take (executions steps), m') ∧ m'.memdisk = s.disk 1
  /-- A call returns when its request is complete, with the flags and the data that `memide.c`
  leaves in its buffer. The block on disk is also as `memide.c` leaves it after this request,
  unless a later request that was executed writes the block. -/
  returned : ∀ before p call, steps = before ++ [.returned p call] →
    call.number < completions steps ∧ ∃ b, results[call.number]? = some b ∧
      (s.buf call.buf).flags = b.flags ∧ (s.buf call.buf).data = b.data ∧
      ((∀ i q c, call.number < i → i < executions steps → (requests steps)[i]? = some (q, c) →
          c.dirty → c.blockno ≠ b.blockno) →
        ∃ m', m.serve ((requests steps).take (call.number + 1)) =
          some (results.take (call.number + 1), m') ∧ m'.memdisk b.blockno = s.disk 1 b.blockno)

/-- A call returns when it finds its buffer in sync. -/
theorem returned_of_step {s t : Ide π β} {p : π} {call : IdeCall β}
    (taken : s.Step (.returned p call) t) :
    s.caller p = some call ∧ (s.buf call.buf).synced ∧ t = s.setCaller p none := by
  obtain ⟨event, taken⟩ := taken
  cases event with
  | iderw q b =>
    rw [Ide.next] at taken
    cases idle : s.caller q with
    | none =>
      rw [idle] at taken
      unfold Ide.iderw at taken
      dsimp only at taken
      split_ifs at taken
      · obtain ⟨_, _, result⟩ := Option.map_eq_some_iff.mp taken
        cases result
      · cases taken
    | some other =>
      rw [idle] at taken
      cases taken
  | execute =>
    rw [Ide.next] at taken
    cases current : s.controller <;> rw [current] at taken <;> cases taken
  | ideintr =>
    rw [Ide.next] at taken
    cases current : s.controller with
    | idle =>
      rw [current] at taken
      cases taken
    | busy c =>
      rw [current] at taken
      cases taken
    | finished c port =>
      rw [current] at taken
      change s.ideintr port = _ at taken
      unfold Ide.ideintr at taken
      split at taken
      · cases taken
      · dsimp only at taken
        split at taken
        · cases taken
        · obtain ⟨_, _, result⟩ := Option.map_eq_some_iff.mp taken
          cases result
  | resume q =>
    rw [Ide.next] at taken
    cases known : s.caller q with
    | none =>
      rw [known] at taken
      cases taken
    | some other =>
      rw [known] at taken
      dsimp only at taken
      split_ifs at taken with sleeps synced
      · cases taken
        exact ⟨known, synced, rfl⟩
      · cases taken
  | rouse q =>
    rw [Ide.next] at taken
    cases known : s.caller q with
    | none =>
      rw [known] at taken
      cases taken
    | some other =>
      rw [known] at taken
      dsimp only at taken
      split_ifs at taken
      cases taken
  | change b flags dev blockno holder data =>
    rw [Ide.next] at taken
    split_ifs at taken
    cases taken

/-- The call that returns in the last step of a run. -/
theorem last_return {disk : Drives} {havedisk1 : Bool} {buf : β → DiskBuf π β}
    {before : List (IdeStep π β)} {p : π} {call : IdeCall β} {s : Ide π β}
    (run : Run Ide.Step (Ide.start havedisk1 buf disk) (before ++ [.returned p call]) s) :
    ∃ sub, (submissions before)[call.number]? = some sub ∧ call.number < completions before ∧
      (s.buf call.buf).unlinked =
        (sub.request.after (disk.after (requestsOf ((submissions before).take call.number)))).unlinked := by
  obtain ⟨s₀, first, rest⟩ := run.split
  have inv := Driving.run first
  cases rest with
  | cons taken nothing =>
    cases nothing
    obtain ⟨known, synced, same⟩ := returned_of_step taken
    obtain ⟨sub, found, proc, equal, _, result⟩ := inv.calling p call known
    have done : call.number < completions before := by
      by_contra waits
      rw [← equal, DiskBuf.synced_congr (inv.unchanged _ _ found (Nat.not_lt.mp waits))] at synced
      exact (inv.proper sub (List.mem_of_getElem? found)).2 synced
    refine ⟨sub, found, done, ?_⟩
    rw [same]
    exact result done

/-- Over every run the queued driver does what the driver in memory does that serves the requests
in the order in which they were made. -/
theorem ide_refines_memide (havedisk1 : Bool) (buf : β → DiskBuf π β) (disk : Drives)
    (steps : List (IdeStep π β)) (s : Ide π β)
    (run : Run Ide.Step (Ide.start havedisk1 buf disk) steps s) (m m' : Memide)
    (results : List (DiskBuf π β)) (same : m.memdisk = disk 1)
    (served : m.serve (requests steps) = some (results, m')) : Refines m results steps s := by
  have inv := Driving.run run
  have part : ∀ n, ((requests steps).take n).map Prod.snd = requestsOf ((submissions steps).take n) := by
    intro n
    rw [requests, requestsOf, ← List.map_take, List.map_map]
    rfl
  constructor
  · exact inv.order
  · intro waits idle
    obtain ⟨c, _, busy | ⟨port, finished, _⟩⟩ := inv.active _ (List.getElem?_eq_getElem waits)
    · rw [idle] at busy
      cases busy.1
    · rw [idle] at finished
      cases finished
  · intro p call known woken
    by_contra waits
    obtain ⟨sub, found, proc, _⟩ := inv.calling p call known
    obtain ⟨stage, now, notWoken⟩ := inv.waiting _ sub found (Nat.not_lt.mp waits)
    rw [proc, known] at now
    rw [Option.some.inj now] at woken
    exact notWoken woken
  · rcases inv.first with rests | ⟨sub, known⟩
    · have count := (inv.resting rests).2
      omega
    · obtain ⟨c, _, busy | ⟨port, _, count, _⟩⟩ := inv.active sub known
      · have count := busy.2
        omega
      · omega
  · obtain ⟨m'', front⟩ := Memide.serve_take served (executions steps)
    refine ⟨m'', front, ?_⟩
    rw [(Memide.serve_after same front).1, part, ← inv.disk]
  · intro before p call split
    subst split
    obtain ⟨sub, found, done, result⟩ := last_return run
    obtain ⟨subs, _, completes⟩ := (show Silent (.returned p call : IdeStep π β) from
      Or.inr (Or.inr ⟨p, call, rfl⟩)).same before
    rw [← subs] at found result
    rw [completes]
    refine ⟨done, sub.request.after (disk.after (requestsOf ((submissions (before ++
      [.returned p call])).take call.number))), ?_, ?_, ?_, ?_⟩
    · have request : (requests (before ++ [.returned p call]))[call.number]? =
          some (sub.proc, sub.request) := by
        rw [requests, List.getElem?_map, found]
        rfl
      have left := ((Memide.serve_after same served).2 _ _ _ request).2
      rw [part] at left
      exact left
    · have flags := congrArg DiskBuf.flags result
      exact flags
    · have data := congrArg DiskBuf.data result
      exact data
    · intro unwritten
      obtain ⟨m'', front⟩ := Memide.serve_take served (call.number + 1)
      refine ⟨m'', front, ?_⟩
      rw [(Memide.serve_after same front).1, part, inv.disk]
      have executed : call.number + 1 ≤ executions (before ++ [.returned p call]) := by
        rcases inv.first with rests | ⟨next, known⟩
        · have count := (inv.resting rests).2
          omega
        · obtain ⟨c, _, busy | ⟨port, _, count, _⟩⟩ := inv.active next known
          · have count := busy.2
            omega
          · omega
      obtain ⟨later, size⟩ := Nat.exists_eq_add_of_le executed
      have parts : (submissions (before ++ [.returned p call])).take (call.number + 1 + later) =
          (submissions (before ++ [.returned p call])).take (call.number + 1) ++
            ((submissions (before ++ [.returned p call])).drop (call.number + 1)).take later :=
        List.take_add
      rw [size, parts, requestsOf_append, Drives.after_append]
      symm
      apply Drives.after_unwritten
      intro c member dirty
      obtain ⟨sub', member', isRequest⟩ := List.mem_map.mp member
      obtain ⟨j, position⟩ := List.mem_iff_getElem?.mp member'
      have small : j < later := by
        have inside := (List.getElem?_eq_some_iff.mp position).1
        rw [List.length_take] at inside
        omega
      rw [List.getElem?_take_of_lt small, List.getElem?_drop] at position
      apply unwritten (call.number + 1 + j) sub'.proc c (by omega) (by omega) _ dirty
      rw [requests, List.getElem?_map, position, ← isRequest]
      rfl

/-- Buffer 0 is to be written to block 5, and buffer 1 to be read from there. -/
def writtenAndRead : Fin 2 → DiskBuf (Fin 2) (Fin 2) :=
  fun b => ⟨if b.val = 0 then B_DIRTY else 0, 1, 5, some b, none, fun _ => if b.val = 0 then 7 else 0⟩

/-- The refinement when a block is written and read while the write is under way. -/
theorem ide_refines_memide_written :
    ∃ steps s results, Run Ide.Step (Ide.start true writtenAndRead fun _ _ => Block.zero) steps s ∧
      completions steps = 2 ∧ Refines ⟨FSSIZE, fun _ => Block.zero⟩ results steps s := by
  have run : ∃ steps s, Run Ide.Step (Ide.start true writtenAndRead fun _ _ => Block.zero) steps s ∧
      completions steps = 2 ∧
      ∃ served, Memide.serve ⟨FSSIZE, fun _ => Block.zero⟩ (requests steps) = some served := by
    refine ⟨_, _, .cons ⟨.iderw 0 0, rfl⟩ (.cons ⟨.iderw 1 1, rfl⟩ (.cons ⟨.execute, rfl⟩
      (.cons ⟨.ideintr, rfl⟩ (.cons ⟨.execute, rfl⟩ (.cons ⟨.ideintr, rfl⟩ (.cons ⟨.resume 0, rfl⟩
      (.cons ⟨.resume 1, rfl⟩ (.nil _)))))))), rfl, _, rfl⟩
  obtain ⟨steps, s, run, count, served, serves⟩ := run
  exact ⟨steps, s, served.1, run, count,
    ide_refines_memide true writtenAndRead _ steps s run _ served.2 served.1 rfl serves⟩

end Ide

end Xv6
