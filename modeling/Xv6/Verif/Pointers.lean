import Xv6.Syscall
import Xv6.Verif.Kin

/-!
# Result pointers

Whether the bytes that a system call stores through the pointer it was given lie in the memory of
its caller. The calls that check the pointer with `argptr` store there only, and refuse any other
pointer; `thread_create` and `thread_join` store wherever the pointer points.
-/

namespace Xv6

/-- A system call with a result pointer, and what it finds in the kernel. -/
inductive ResultCall where
  /-- `read`, with what is in the pipe or comes from the console. -/
  | read (sb : Superblock) (pipe : List UInt8 × Bool) (console : List UInt8)
  | pread (sb : Superblock) (pipe : List UInt8 × Bool) (console : List UInt8)
  | fstat
  /-- `pipe`, with the answer of `kalloc`. -/
  | pipe (kalloc : Bool)
  /-- `thread_create`, with the end of its middle part. -/
  | threadCreate (outcome : StackOutcome)
  /-- `thread_join` with its first pass. -/
  | threadJoin
  /-- The next pass of `thread_join`, which was called with this pointer. -/
  | rejoin (retval : Nat)

/-- The call is executed with this outcome; whatever the buffers hold, they answer. -/
inductive Performs (c : Caller) : ResultCall → Outcome → Prop where
  | read {sb : Superblock} {pipe : List UInt8 × Bool} {console : List UInt8}
      {write : Int → Option (Inode → List UInt8 → Kernel Int)} {σ : Type} {handler : Handler bufSignature σ Stop}
      {s t : σ} {files : OpenFiles} {outcome : Outcome} :
      Program.run handler (c.sysRead sb (Caller.devices console write) pipe) s = .ok ((files, outcome), t) →
        Performs c (.read sb pipe console) outcome
  | pread {sb : Superblock} {pipe : List UInt8 × Bool} {console : List UInt8}
      {write : Int → Option (Inode → List UInt8 → Kernel Int)} {σ : Type} {handler : Handler bufSignature σ Stop}
      {s t : σ} {files : OpenFiles} {outcome : Outcome} :
      Program.run handler (c.sysPread sb (Caller.devices console write) pipe) s = .ok ((files, outcome), t) →
        Performs c (.pread sb pipe console) outcome
  | fstat : Performs c .fstat c.sysFstat
  | pipe (kalloc : Bool) : Performs c (.pipe kalloc) (c.sysPipe kalloc).2
  | threadCreate {finish : StackOutcome} {s : System} {outcome : Outcome} :
      c.sysThreadCreate finish = some (s, outcome) → Performs c (.threadCreate finish) outcome
  | threadJoin {s : System} {outcome : Outcome} :
      c.sysThreadJoin = some (s, outcome) → Performs c .threadJoin outcome
  /-- The next pass of `thread_join`. -/
  | rejoin {retval : Nat} {s : System} {outcome : Outcome} :
      c.rejoin retval = some (s, outcome) → Performs c (.rejoin retval) outcome

namespace ResultCall

/-- The pointer, if it can be fetched. -/
def pointer (c : Caller) : ResultCall → Option Nat
  | .read _ _ _ => c.argint 1
  | .pread _ _ _ => c.argint 1
  | .fstat => c.argint 1
  | .pipe _ => c.argint 0
  | .threadCreate _ => c.argint 0
  | .threadJoin => c.argint 1
  | .rejoin retval => some retval

/-- The number of bytes that it points to, if that can be fetched. -/
def size (c : Caller) : ResultCall → Option Int
  | .read _ _ _ => (c.argint 2).map sint
  | .pread _ _ _ => (c.argint 2).map sint
  | .fstat => some Caller.statSize
  | .pipe _ => some 8
  | _ => some 4

/-- The bytes that the pointer points to are in the caller's memory. -/
def Acceptable (c : Caller) (call : ResultCall) : Prop :=
  ∃ addr size, call.pointer c = some addr ∧ call.size c = some size ∧ 0 ≤ size ∧ addr + size ≤ c.sz

/-- The call stores into the caller's memory only, and refuses a pointer out of it. -/
def Contained (c : Caller) (call : ResultCall) (outcome : Outcome) : Prop :=
  (∀ store ∈ outcome.stores, store.1 < c.sz) ∧ (¬call.Acceptable c → outcome = .failed)

/-- No LWP that `thread_join` looks for is a zombie, and it does not wait for one. -/
def NoneToJoin (c : Caller) (thread : Nat) : Prop :=
  (∀ q, (c.sys.proc q).pid = (c.sys.proc c.lwp).pid → (c.sys.proc q).tid = thread →
    (c.sys.proc q).state ≠ .zombie ∧ (c.sys.proc c.lwp).killed = true)

/-- The call ends before it uses its pointer. -/
def EndsBefore (c : Caller) : ResultCall → Prop
  | .threadCreate outcome => c.argint 0 = none ∨ c.argint 1 = none ∨ c.argint 2 = none ∨ outcome ≠ .mapped
  | .threadJoin => c.argint 1 = none ∨ ∀ thread, c.argint 0 = some thread →
      (c.sys.proc c.lwp).tid ≠ 1 ∨ NoneToJoin c thread
  | .rejoin _ => ∀ thread, c.sys.call c.lwp = .threadJoin thread → NoneToJoin c thread
  | _ => False

/-- The handler checks its pointer with `argptr`. -/
def checks : ResultCall → Bool
  | .threadCreate _ => false
  | .threadJoin => false
  | .rejoin _ => false
  | _ => true

end ResultCall

/-! ## Stores -/

section Stores

variable {c : Caller} {call : ResultCall} {outcome : Outcome} {addr n : Nat} {size : Int} {bytes : List UInt8}

/-- Bytes that fit below a bound are stored below it. -/
theorem storeAt_below {bound : Nat} (fits : bound ≤ KERNBASE) (inside : addr + bytes.length ≤ bound) :
    ∀ store ∈ storeAt addr bytes, store.1 < bound := by
  intro store member
  unfold storeAt at member
  obtain ⟨⟨value, i⟩, found, rfl⟩ := List.mem_map.mp member
  have early := List.snd_lt_of_mem_zipIdx found
  unfold KERNBASE at fits
  simp only [uint]
  omega

/-- A word has four bytes. -/
theorem wordBytes_length (word : Nat) : (wordBytes word).length = 4 := rfl

/-- What `argptr` accepts is in the caller's memory. -/
theorem Caller.argptr_some (accepted : c.argptr n size = some addr) :
    c.argint n = some addr ∧ 0 ≤ size ∧ (size < 2 ^ 31 → addr + size ≤ c.sz) := by
  have user := c.user
  unfold KERNBASE at user
  unfold Caller.argptr at accepted
  cases fetched : c.argint n with
  | none =>
    rw [fetched] at accepted
    contradiction
  | some i =>
    rw [fetched] at accepted
    simp only at accepted
    split at accepted
    · rename_i checked
      cases accepted
      unfold Xv6.argptr uint at checked
      rw [decide_eq_true_eq] at checked
      refine ⟨rfl, checked.1, fun short => ?_⟩
      change _ ≤ ((c.sys.proc c.lwp).sz : Int)
      have inside : _ ≤ (c.sys.proc c.lwp).sz := checked.2.2
      have below : _ < (c.sys.proc c.lwp).sz := checked.2.1
      omega
    · contradiction

/-- An `int` is less than 2^31. -/
theorem sint_lt (word : Nat) (fits : word < 2 ^ 32) : sint word < 2 ^ 31 := by
  unfold sint
  split <;> omega

/-- A word that was fetched is less than 2^32. -/
theorem Caller.argint_lt {word : Nat} (fetched : c.argint n = some word) : word < 2 ^ 32 := by
  unfold Caller.argint at fetched
  simp only at fetched
  split at fetched
  · cases fetched
    unfold Caller.load
    have low := (c.memory (uint (c.esp + 4 + 4 * n))).toNat_lt
    have second := (c.memory (uint (c.esp + 4 + 4 * n) + 1)).toNat_lt
    have third := (c.memory (uint (c.esp + 4 + 4 * n) + 2)).toNat_lt
    have high := (c.memory (uint (c.esp + 4 + 4 * n) + 3)).toNat_lt
    omega
  · contradiction

/-- A call that fails at once is contained. -/
theorem ResultCall.Contained.failed : call.Contained c .failed :=
  ⟨fun _ member => absurd member List.not_mem_nil, fun _ => rfl⟩

/-- A call with an acceptable pointer that stores below its size is contained. -/
theorem ResultCall.Contained.accepted {result : Option Int} {stores : List (Nat × UInt8)}
    (acceptable : call.Acceptable c) (inside : ∀ store ∈ stores, store.1 < c.sz) :
    call.Contained c ⟨result, stores⟩ :=
  ⟨inside, fun refused => absurd acceptable refused⟩

end Stores

/-! ## Files -/

section Files

variable {σ : Type} {handler : Handler bufSignature σ Stop} {sb : Superblock} {s t : σ} {ip ip' : Inode}
  {bytes : List UInt8} {r : Int} {c : Caller} {outcome : Outcome} {files : OpenFiles}

/-- The copy loop of `readi` stores no more than it was asked for. -/
theorem readLoop_length {off rest fuel : Nat}
    (returned : Program.run handler (readLoop sb ip off rest fuel) s = .ok ((ip', bytes), t)) :
    bytes.length ≤ rest := by
  induction fuel generalizing ip off rest s bytes ip' t with
  | zero =>
    cases returned
    exact Nat.zero_le _
  | succ fuel ih =>
    unfold readLoop at returned
    split at returned
    · cases returned
      exact Nat.zero_le _
    · obtain ⟨⟨ip₁, addr⟩, s₁, _, returned⟩ := Program.run_bind_eq_ok returned
      obtain ⟨data, s₂, _, returned⟩ := Program.run_bind_eq_ok returned
      obtain ⟨_, s₃, _, returned⟩ := Program.run_bind_eq_ok returned
      obtain ⟨⟨ip₂, later⟩, s₄, looped, returned⟩ := Program.run_bind_eq_ok returned
      cases returned
      have left := ih looped
      rw [List.length_append, Block.extract_length]
      omega

/-- The loop of `consoleread` stores no more than it was asked for. -/
theorem consoleLoop_length (target n : Nat) (input : List UInt8) :
    (Caller.consoleLoop target n input).2.length ≤ n := by
  induction n generalizing input with
  | zero => exact Nat.le_refl 0
  | succ n ih =>
    cases input with
    | nil => exact Nat.zero_le _
    | cons c input =>
      unfold Caller.consoleLoop
      split
      · exact Nat.zero_le _
      · split
        · exact Nat.le_add_left 1 n
        · exact Nat.succ_le_succ (ih input)

/-- `readi` stores no more than it was asked for. -/
theorem readi_length {console : List UInt8} {write : Int → Option (Inode → List UInt8 → Kernel Int)} {off n : Nat}
    (fits : n < 2 ^ 32) (returned : Program.run handler (readi sb (Caller.devices console write) ip off n) s =
      .ok ((ip', r, bytes), t)) : bytes.length ≤ n := by
  unfold readi at returned
  split at returned
  · split at returned
    · cases returned
      exact Nat.zero_le _
    · unfold Caller.devices at returned
      simp only at returned
      split at returned
      · cases returned
        exact Nat.zero_le _
      · rename_i read device
        split at device
        · cases device
          cases returned
          exact consoleLoop_length n n console
        · contradiction
  · split at returned
    · cases returned
      exact Nat.zero_le _
    · rename_i within
      obtain ⟨⟨ip₁, read⟩, s₁, looped, returned⟩ := Program.run_bind_eq_ok returned
      cases returned
      have short := readLoop_length looped
      unfold add32 at short within
      split at short <;> omega

/-- `piperead` stores no more than it was asked for. -/
theorem piperead_length {pipe : List UInt8 × Bool} {n : Int}
    (returned : Program.run handler (c.piperead pipe.1 pipe.2 n) s = .ok ((r, bytes), t)) : bytes.length ≤ n.toNat := by
  unfold Caller.piperead at returned
  split at returned
  · split at returned
    · cases returned
      exact Nat.zero_le _
    · contradiction
  · cases returned
    exact List.length_take_le _ _

/-- `fileread` stores no more than it was asked for. -/
theorem fileread_length {console : List UInt8} {write : Int → Option (Inode → List UInt8 → Kernel Int)}
    {pipe : List UInt8 × Bool} {f f' : File} {n : Int} (positive : 0 ≤ n) (fits : n < 2 ^ 31)
    (returned : Program.run handler (fileread sb (Caller.devices console write) (c.piperead pipe.1 pipe.2) f ip n) s =
      .ok ((f', ip', r, bytes), t)) : bytes.length ≤ n.toNat := by
  have same : toUint n = n.toNat := by
    unfold toUint
    omega
  unfold fileread at returned
  split at returned
  · cases returned
    exact Nat.zero_le _
  · split at returned
    · obtain ⟨⟨r₁, read⟩, s₁, piped, returned⟩ := Program.run_bind_eq_ok returned
      cases returned
      exact piperead_length piped
    · obtain ⟨⟨ip₁, r₁, read⟩, s₁, inode, returned⟩ := Program.run_bind_eq_ok returned
      cases returned
      rw [← same]
      exact readi_length (by omega) inode
    · contradiction

/-- `filepread` stores no more than it was asked for. -/
theorem filepread_length {console : List UInt8} {write : Int → Option (Inode → List UInt8 → Kernel Int)}
    {pipe : List UInt8 × Bool} {f : File} {n off : Int} (positive : 0 ≤ n) (fits : n < 2 ^ 31)
    (returned : Program.run handler (filepread sb (Caller.devices console write) (c.piperead pipe.1 pipe.2) f ip n off) s =
      .ok ((ip', r, bytes), t)) : bytes.length ≤ n.toNat := by
  have same : toUint n = n.toNat := by
    unfold toUint
    omega
  unfold filepread at returned
  split at returned
  · cases returned
    exact Nat.zero_le _
  · split at returned
    · obtain ⟨⟨r₁, read⟩, s₁, piped, returned⟩ := Program.run_bind_eq_ok returned
      cases returned
      exact piperead_length piped
    · rw [← same]
      exact readi_length (by omega) returned
    · contradiction

end Files

/-! ## The calls -/

section Calls

variable {c : Caller} {call : ResultCall} {outcome : Outcome} {addr n : Nat}

/-- What a call stores that has checked its pointer with `argptr`. -/
theorem ResultCall.Contained.of_argptr {size : Int} {r : Int} {bytes : List UInt8} (accepted : c.argptr n size = some addr)
    (fits : size < 2 ^ 31) (pointer : call.pointer c = c.argint n) (sized : call.size c = some size)
    (short : bytes.length ≤ size.toNat) : call.Contained c ⟨some r, storeAt addr bytes⟩ := by
  obtain ⟨fetched, positive, inside⟩ := Caller.argptr_some accepted
  refine .accepted ⟨addr, size, pointer.trans fetched, sized, positive, inside fits⟩ (storeAt_below c.user ?_)
  have room := inside fits
  change _ ≤ ((c.sys.proc c.lwp).sz : Int) at room
  omega

/-- `read` is contained. -/
theorem read_contained {sb : Superblock} {pipe : List UInt8 × Bool} {console : List UInt8}
    {write : Int → Option (Inode → List UInt8 → Kernel Int)} {σ : Type} {handler : Handler bufSignature σ Stop}
    {s t : σ} {files : OpenFiles}
    (returned : Program.run handler (c.sysRead sb (Caller.devices console write) pipe) s = .ok ((files, outcome), t)) :
    (ResultCall.read sb pipe console).Contained c outcome := by
  unfold Caller.sysRead at returned
  split at returned
  · rename_i i n _ count
    have fits := sint_lt n (Caller.argint_lt count)
    split at returned
    · cases returned
      exact .failed
    · rename_i addr accepted
      obtain ⟨⟨f, ip, r, bytes⟩, s₁, read, returned⟩ := Program.run_bind_eq_ok returned
      cases returned
      refine .of_argptr accepted fits rfl ?_ (fileread_length (Caller.argptr_some accepted).2.1 fits read)
      rw [ResultCall.size, count, Option.map_some]
  · cases returned
    exact .failed

/-- `pread` is contained. -/
theorem pread_contained {sb : Superblock} {pipe : List UInt8 × Bool} {console : List UInt8}
    {write : Int → Option (Inode → List UInt8 → Kernel Int)} {σ : Type} {handler : Handler bufSignature σ Stop}
    {s t : σ} {files : OpenFiles}
    (returned : Program.run handler (c.sysPread sb (Caller.devices console write) pipe) s = .ok ((files, outcome), t)) :
    (ResultCall.pread sb pipe console).Contained c outcome := by
  unfold Caller.sysPread at returned
  split at returned
  · rename_i i n _ count
    have fits := sint_lt n (Caller.argint_lt count)
    split at returned
    · rename_i addr off accepted _
      obtain ⟨⟨ip, r, bytes⟩, s₁, read, returned⟩ := Program.run_bind_eq_ok returned
      cases returned
      refine .of_argptr accepted fits rfl ?_ (filepread_length (Caller.argptr_some accepted).2.1 fits read)
      rw [ResultCall.size, count, Option.map_some]
    · cases returned
      exact .failed
  · cases returned
    exact .failed

/-- The fields of `struct stat` lie in it. -/
theorem stati_inside (ip : Inode) : ∀ field ∈ Caller.stati ip, field.1 + field.2.length ≤ 20 := by
  intro field member
  unfold Caller.stati at member
  simp only [List.mem_cons, List.not_mem_nil, or_false] at member
  have short : ∀ value, (shortBytes value).length = 2 := fun _ => rfl
  rcases member with rfl | rfl | rfl | rfl | rfl <;> simp only [short, wordBytes_length] <;> decide

/-- `fstat` is contained. -/
theorem fstat_contained (c : Caller) : ResultCall.fstat.Contained c c.sysFstat := by
  unfold Caller.sysFstat
  split
  · rename_i i addr _ accepted
    obtain ⟨fetched, positive, inside⟩ := Caller.argptr_some accepted
    have room := inside (by decide)
    unfold Caller.filestat
    split
    · refine .accepted ⟨addr, Caller.statSize, fetched, rfl, positive, room⟩ fun store member => ?_
      obtain ⟨field, known, stored⟩ := List.mem_flatMap.mp member
      have within := stati_inside (c.files.ip i) field known
      refine storeAt_below c.user ?_ store stored
      change _ ≤ ((c.sys.proc c.lwp).sz : Int) at room
      unfold Caller.statSize at room
      omega
    · exact .failed
  · exact .failed

/-- `pipe` is contained. -/
theorem pipe_contained (c : Caller) (kalloc : Bool) : (ResultCall.pipe kalloc).Contained c (c.sysPipe kalloc).2 := by
  unfold Caller.sysPipe
  split
  · exact .failed
  · rename_i addr accepted
    obtain ⟨fetched, positive, inside⟩ := Caller.argptr_some accepted
    have room := inside (by decide)
    split
    · exact .failed
    · split
      · exact .failed
      · split
        · exact .failed
        · rename_i fd0 files _ fd1 files' _
          refine .accepted ⟨addr, 8, fetched, rfl, positive, room⟩ fun store member => ?_
          change _ ≤ ((c.sys.proc c.lwp).sz : Int) at room
          rcases List.mem_append.mp member with first | second
          · refine storeAt_below c.user ?_ store first
            rw [wordBytes_length]
            omega
          · refine storeAt_below c.user ?_ store second
            rw [wordBytes_length]
            omega

/-- A call that succeeds with one word is contained when its pointer is acceptable, and only then. -/
theorem contained_word_iff (pointer : call.pointer c = some addr) (sized : call.size c = some 4) (word : Nat) :
    call.Contained c ⟨some 0, storeAt addr (wordBytes word)⟩ ↔ call.Acceptable c := by
  constructor
  · rintro ⟨_, refuses⟩
    by_contra outside
    have failed : some (0 : Int) = some (-1) := congrArg Outcome.result (refuses outside)
    contradiction
  · intro acceptable
    obtain ⟨addr', size, same, sized', _, inside⟩ := acceptable
    rw [pointer] at same
    rw [sized] at sized'
    cases same
    cases sized'
    refine .accepted ⟨addr, 4, pointer, sized, by decide, inside⟩ (storeAt_below c.user ?_)
    rw [wordBytes_length]
    omega

/-- A pass of the loop of `thread_join` is contained when its pointer is acceptable or it has
nobody to join, and only then. -/
theorem join_contained_iff {t : System} {thread : Nat} {result : JoinResult} (pointer : call.pointer c = some addr)
    (sized : call.size c = some 4) (passed : c.sys.joinPass c.lwp thread = some (result, t)) :
    call.Contained c (Caller.joinOutcome addr result) ↔ call.Acceptable c ∨ ResultCall.NoneToJoin c thread := by
  cases joinPass_ends passed with
  | collected q pid tid zombie _ =>
    rw [Caller.joinOutcome, contained_word_iff pointer sized]
    exact ⟨.inl, fun either => either.resolve_right fun none => (none q pid tid).1 zombie⟩
  | failed calm nobody => exact ⟨fun _ => .inr fun q pid tid => ⟨calm q pid tid, nobody q pid tid⟩, fun _ => .failed⟩
  | asleep _ q _ alive pid tid =>
    constructor
    · rintro ⟨_, refuses⟩
      by_contra outside
      have failed : none = some (-1 : Int) := congrArg Outcome.result (refuses fun acceptable => outside (.inl acceptable))
      contradiction
    · rintro (acceptable | none)
      · exact .accepted acceptable fun _ member => absurd member List.not_mem_nil
      · rw [(none q pid tid).2] at alive
        contradiction

end Calls

/-- For every argument word and every state of the kernel: a system call with a result pointer
stores into the memory of its caller only, and returns -1 and stores nothing when the pointer does
not point there, if and only if it is one of those that check it with `argptr`, or the pointer
points there, or the call ends before it uses it. -/
theorem stores_contained_iff {c : Caller} {call : ResultCall} {outcome : Outcome} (performs : Performs c call outcome) :
    call.Contained c outcome ↔ call.checks = true ∨ call.Acceptable c ∨ call.EndsBefore c := by
  cases performs with
  | read returned => exact ⟨fun _ => .inl rfl, fun _ => read_contained returned⟩
  | pread returned => exact ⟨fun _ => .inl rfl, fun _ => pread_contained returned⟩
  | fstat => exact ⟨fun _ => .inl rfl, fun _ => fstat_contained c⟩
  | pipe kalloc => exact ⟨fun _ => .inl rfl, fun _ => pipe_contained c kalloc⟩
  | threadCreate created =>
    rename_i finish s
    unfold Caller.sysThreadCreate at created
    split at created
    · rename_i thread _ _ first second third
      split at created
      · obtain ⟨t, _, same⟩ := Option.map_eq_some_iff.mp created
        rw [Prod.mk.injEq] at same
        obtain ⟨rfl, rfl⟩ := same
        by_cases mapped : finish = .mapped
        · have pointer : ResultCall.pointer c (.threadCreate finish) = some thread := first
          rw [if_pos mapped, contained_word_iff pointer rfl]
          refine ⟨fun acceptable => .inr (.inl acceptable), fun either => ?_⟩
          rcases either with checked | acceptable | ends
          · contradiction
          · exact acceptable
          · rcases ends with none | none | none | other
            · rw [first] at none
              contradiction
            · rw [second] at none
              contradiction
            · rw [third] at none
              contradiction
            · exact absurd mapped other
        · rw [if_neg mapped]
          exact ⟨fun _ => .inr (.inr (.inr (.inr (.inr mapped)))), fun _ => .failed⟩
      · contradiction
    · rename_i missing
      cases created
      refine ⟨fun _ => .inr (.inr ?_), fun _ => .failed⟩
      cases first : c.argint 0 with
      | none => exact .inl first
      | some thread =>
        cases second : c.argint 1 with
        | none => exact .inr (.inl second)
        | some routine =>
          cases third : c.argint 2 with
          | none => exact .inr (.inr (.inl third))
          | some arg => exact (missing thread routine arg first second third).elim
  | threadJoin joined =>
    unfold Caller.sysThreadJoin at joined
    split at joined
    · rename_i thread retval first second
      obtain ⟨⟨result, t⟩, passed, same⟩ := Option.map_eq_some_iff.mp joined
      cases same
      unfold System.threadJoin at passed
      split at passed
      · rename_i worker
        cases passed
        exact ⟨fun _ => .inr (.inr (.inr fun _ _ => .inl worker)), fun _ => .failed⟩
      · rename_i master
        have pointer : ResultCall.pointer c .threadJoin = some retval := second
        rw [join_contained_iff pointer rfl passed]
        constructor
        · rintro (acceptable | none)
          · exact .inr (.inl acceptable)
          · refine .inr (.inr (.inr fun thread' same => .inr ?_))
            rw [first] at same
            cases same
            exact none
        · rintro (checked | acceptable | missing | ends)
          · contradiction
          · exact .inl acceptable
          · rw [second] at missing
            contradiction
          · exact .inr ((ends thread first).resolve_left master)
    · rename_i missing
      cases joined
      refine ⟨fun _ => .inr (.inr ?_), fun _ => .failed⟩
      cases second : c.argint 1 with
      | none => exact .inl second
      | some retval =>
        refine .inr fun thread first => ?_
        exact (missing thread retval first second).elim
  | rejoin resumed =>
    rename_i retval _
    unfold Caller.rejoin at resumed
    split at resumed
    · rename_i thread call
      obtain ⟨⟨result, t⟩, passed, same⟩ := Option.map_eq_some_iff.mp resumed
      cases same
      have pointer : ResultCall.pointer c (.rejoin retval) = some retval := rfl
      rw [join_contained_iff pointer rfl passed]
      constructor
      · rintro (acceptable | none)
        · exact .inr (.inl acceptable)
        · refine .inr (.inr fun thread' same => ?_)
          rw [call] at same
          cases same
          exact none
      · rintro (checked | acceptable | ends)
        · contradiction
        · exact .inl acceptable
        · exact .inr (ends thread call)
    · contradiction

/-- The first process in `thread_create`, with the arguments 0 but for the highest byte of the
first. -/
def creatingCaller (s : System) (user : (s.proc 0).sz ≤ KERNBASE) (high : UInt8) : Caller where
  sys := s
  lwp := 0
  user := user
  esp := 4080
  memory addr := if addr = 4087 then high else 0
  files := ⟨fun _ => none, fun _ => 0, fun _ => ⟨.none, false, 0⟩, fun _ => ⟨0, 0, 0, 0, 0, 0, fun _ => 0⟩⟩

/-- The first process calls `thread_create` with the pointer 0. -/
theorem stores_contained_null :
    ∃ (c : Caller) (outcome : Outcome), Performs c (.threadCreate .mapped) outcome ∧
      (ResultCall.threadCreate .mapped).Contained c outcome := by
  have ready : ((Run.exec System.step [.run 0, .threadChoose 0] (System.userinit 0)).bind fun s =>
      if user : (s.proc 0).sz ≤ KERNBASE then ((creatingCaller s user 0).sysThreadCreate .mapped).map fun created =>
        (created.2.result, (creatingCaller s user 0).argint 0, (creatingCaller s user 0).sz) else none) =
          some (some 0, some 0, 4096) := by
    decide +kernel
  obtain ⟨s, _, ready⟩ := Option.bind_eq_some_iff.mp ready
  by_cases user : (s.proc 0).sz ≤ KERNBASE
  · rw [dif_pos user] at ready
    obtain ⟨⟨t, outcome⟩, created, known⟩ := Option.map_eq_some_iff.mp ready
    rw [Prod.mk.injEq, Prod.mk.injEq] at known
    refine ⟨creatingCaller s user 0, outcome, .threadCreate created,
      (stores_contained_iff (.threadCreate created)).mpr (.inr (.inl ⟨0, 4, known.2.1, rfl, by decide, ?_⟩))⟩
    rw [known.2.2]
    decide
  · rw [dif_neg user] at ready
    contradiction

/-- The first process calls `thread_create` with a pointer into the kernel: the call succeeds and
stores the tid there. -/
theorem thread_create_stores_in_kernel :
    ∃ (s : System) (c : Caller) (outcome : Outcome),
      Run (fun s event t => s.step event = some t) (System.userinit 0) [.run 0, .threadChoose 0] s ∧ c.sys = s ∧
      c.sz = 4096 ∧ c.argint 0 = some KERNBASE ∧ Performs c (.threadCreate .mapped) outcome ∧
      outcome.result = some 0 ∧ (KERNBASE, 2) ∈ outcome.stores := by
  have ready : ((Run.exec System.step [.run 0, .threadChoose 0] (System.userinit 0)).bind fun s =>
      if user : (s.proc 0).sz ≤ KERNBASE then ((creatingCaller s user 128).sysThreadCreate .mapped).map fun created =>
        (created.2.result, decide ((KERNBASE, 2) ∈ created.2.stores), (creatingCaller s user 128).argint 0,
          (creatingCaller s user 128).sz) else none) = some (some 0, true, some KERNBASE, 4096) := by
    decide +kernel
  obtain ⟨s, executed, ready⟩ := Option.bind_eq_some_iff.mp ready
  by_cases user : (s.proc 0).sz ≤ KERNBASE
  · rw [dif_pos user] at ready
    obtain ⟨⟨t, outcome⟩, created, known⟩ := Option.map_eq_some_iff.mp ready
    rw [Prod.mk.injEq, Prod.mk.injEq, Prod.mk.injEq, decide_eq_true_eq] at known
    exact ⟨s, creatingCaller s user 128, outcome, Run.of_exec executed, rfl, known.2.2.2, known.2.2.1,
      .threadCreate created, known.1, known.2.1⟩
  · rw [dif_neg user] at ready
    contradiction

end Xv6
