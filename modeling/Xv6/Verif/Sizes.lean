import Xv6.Verif.Sharing

/-!
# The size of memory that LWPs keep

Every slot keeps the size of its process's memory, but only the master's is kept up to date. The
checks on addresses and `fork` use the caller's. The sizes agree as long as every step that changes
the master's size is taken when no other LWP is started.
-/

namespace Xv6

namespace GroupMemory

/-- `sbrk` stores another size. -/
def resizes (g : GroupMemory) (n : Int) (room : Nat) : Bool :=
  let newsz := uint (g.sz + n)
  if 0 < n then decide (g.sz < newsz) && fits g.sz newsz room
  else decide (n < 0 ∧ 0 < newsz ∧ newsz < g.sz)

/-- The step changes the size of the master only when no other LWP is started, and starts an LWP
with the size of the master. -/
def keepsSizes (g : GroupMemory) : MemoryAction → Bool
  | .rest => true
  | .collect _ => true
  | .create room =>
    match g.free with
    | base :: _ => !fits base (base + 2 * PGSIZE) room || base + 2 * PGSIZE == g.sz
    | [] => (startedSizes g.threads).isEmpty
  | .sbrk n room => !g.resizes n room || (startedSizes g.threads).isEmpty
  | .exec _ => false

/-- The started LWPs keep the size of the master. -/
def Agrees (g : GroupMemory) : Prop := ∀ sz ∈ startedSizes g.threads, sz = g.sz

variable {g g' : GroupMemory}

/-- `sbrk` that stores another size. -/
theorem growth_resizes {n : Int} {room sz : Nat} {pages : PageMap} (grown : g.growth n room = some (sz, pages))
    (stored : ¬(n ≠ 0 ∧ sz = 0)) : sz = g.sz ∨ g.resizes n room = true := by
  unfold growth at grown
  unfold resizes
  split at grown
  · rename_i positive
    rw [if_pos positive]
    rcases Nat.lt_trichotomy g.sz sz with larger | same | smaller
    · obtain ⟨rfl, enough, _, _⟩ := allocuvm_grown grown larger
      exact .inr (Bool.and_eq_true_iff.mpr ⟨decide_eq_true larger, enough⟩)
    · exact .inl same.symm
    · cases allocuvm_allocates grown with
      | refused _ => exact absurd ⟨by omega, rfl⟩ stored
      | kept _ _ => exact .inl rfl
      | mapped _ larger _ _ _ => omega
      | exhausted _ _ _ _ _ => exact absurd ⟨by omega, rfl⟩ stored
  · rename_i positive
    rw [if_neg positive]
    split at grown
    · rename_i negative
      have size := deallocuvm_size grown
      by_cases same : sz = g.sz
      · exact .inl same
      · refine .inr (decide_eq_true ⟨negative, ?_, ?_⟩)
        · omega
        · omega
    · cases grown
      exact .inl rfl

/-- Every change that meets the condition keeps the sizes equal. -/
theorem Agrees.changes (agrees : Agrees g) {action : MemoryAction} (met : g.keepsSizes action = true)
    (changes : g.Changes action g') : Agrees g' := by
  cases changes with
  | rested => exact agrees
  | exited q stack _ =>
    intro sz member
    rcases startedSizes_update member with old | ⟨_, new, started, _⟩
    · exact agrees sz old
    · cases new
      contradiction
  | created room np pages _ allocated =>
    intro sz member
    unfold keepsSizes at met
    cases held : g.free with
    | nil =>
      obtain ⟨base, based⟩ := next_fresh held
      simp only [held, List.isEmpty_iff] at met
      rw [base] at member
      rw [based]
      rcases startedSizes_update member with old | ⟨_, new, _, rfl⟩
      · rw [met] at old
        exact absurd old List.not_mem_nil
      · cases new
        rfl
    | cons base rest =>
      obtain ⟨next, based⟩ := next_recycled held
      rw [next] at allocated member
      have enough := (allocuvm_grown allocated (by simp only [PGSIZE]; omega)).2.1
      simp only [held, enough, Bool.not_true, Bool.false_or, beq_iff_eq] at met
      rw [based]
      rcases startedSizes_update member with old | ⟨_, new, _, rfl⟩
      · exact agrees sz old
      · cases new
        exact met
  | uncreated room pages allocated =>
    intro sz member
    unfold keepsSizes at met
    cases held : g.free with
    | nil =>
      rw [(next_fresh held).2] at member
      simp only [held, List.isEmpty_iff] at met
      change sz ∈ startedSizes g.threads at member
      rw [met] at member
      exact absurd member List.not_mem_nil
    | cons base rest =>
      rw [(next_recycled held).2] at member ⊢
      exact agrees sz member
  | collected q stack _ pages _ _ =>
    intro sz member
    rcases startedSizes_update member with old | ⟨_, new, _⟩
    · exact agrees sz old
    · contradiction
  | grown n room sz pages grown stored =>
    unfold keepsSizes at met
    rcases growth_resizes grown stored with rfl | resized
    · exact agrees
    · simp only [resized, Bool.not_true, Bool.false_or, List.isEmpty_iff] at met
      intro sz member
      change sz ∈ startedSizes g.threads at member
      rw [met] at member
      exact absurd member List.not_mem_nil
  | ungrown n room pages _ _ => exact agrees
  | replaced ends sz pages _ _ => contradiction
  | unloaded ends => contradiction

end GroupMemory

/-- The size that `fork` gives to its child is the caller's. -/
theorem forkCopy_size {s t : System} {p np : Lwp} {pgdir : Nat} (copied : s.forkCopy p np (.copied pgdir) = some t) :
    (t.proc np).sz = (s.proc p).sz := by
  rcases forkCopy_some copied with ⟨_, _, wrong, _⟩ | ⟨_, _, _, rfl⟩
  · cases wrong
  · show ((System.setProc _ np _).proc np).sz = _
    rw [System.setProc_self]

/-- In every run of `thread_create`, `sbrk`, `thread_exit` and `thread_join` in a group whose steps
change the master's size only when no other LWP is started, and start LWPs with the master's size:
`fetchint`, `fetchstr` and `argptr` accept the same for all LWPs, and the size of the child of any
`fork` is that of the memory copied for it, so that no `sbrk` of the child panics. -/
theorem lwps_share_size {x y : Space} {m : Lwp} {events : List SpaceEvent} (single : SingleLwp x.sys m)
    (run : Run (GroupStep m GroupMemory.keepsSizes) x events y) :
    (∀ q r addr, y.IsLwp m q → y.IsLwp m r →
      fetchint (y.sys.proc q).sz addr = fetchint (y.sys.proc r).sz addr ∧
      (∀ memory, fetchstr (y.sys.proc q).sz addr memory = fetchstr (y.sys.proc r).sz addr memory) ∧
      ∀ size, argptr (y.sys.proc q).sz addr size = argptr (y.sys.proc r).sz addr size) ∧
    ∀ q np pgdir t, y.IsLwp m q → y.sys.forkCopy q np (.copied pgdir) = some t →
      (t.proc np).sz = (y.sys.proc m).sz ∧
      ∀ room copy, copyuvm (y.directory m) (y.sys.proc m).sz room = some (some copy) →
        ∀ newsz room', allocuvm copy (t.proc np).sz newsz room' ≠ none := by
  have start : (x.memory m).Agrees := by
    intro sz member
    rw [GroupMemory.startedSizes_alone single.threads] at member
    exact absurd member List.not_mem_nil
  obtain ⟨_, _, agrees⟩ := GroupOf.run GroupMemory.Agrees (fun g ends met => absurd met Bool.false_ne_true)
    (fun g action g' agrees met changes => agrees.changes met changes) single start run
  have size : ∀ q, y.IsLwp m q → (y.sys.proc q).sz = (y.sys.proc m).sz := by
    intro q lwp
    rcases GroupMemory.startedSizes_of_member lwp with rfl | member
    · rfl
    · exact agrees _ member
  refine ⟨fun q r addr first second => ?_, fun q np pgdir t lwp copied => ?_⟩
  · rw [size q first, size r second]
    exact ⟨rfl, fun _ => rfl, fun _ => rfl⟩
  · have child : (t.proc np).sz = (y.sys.proc m).sz := (forkCopy_size copied).trans (size q lwp)
    refine ⟨child, fun room copy memory newsz room' => ?_⟩
    rw [child]
    exact copyuvm_grows memory newsz room'

/-- The first process creates an LWP: both accept the same addresses. -/
theorem lwps_share_size_first : ∃ y, Run (GroupStep 0 GroupMemory.keepsSizes) firstSpace [.run 0, .choose 0, .create 0 2] y ∧
    (y.sys.proc 1).sz = 3 * PGSIZE ∧ fetchint (y.sys.proc 1).sz (2 * PGSIZE) = fetchint (y.sys.proc 0).sz (2 * PGSIZE) := by
  have outcome : ((Run.exec (Space.groupStep 0 GroupMemory.keepsSizes) [.run 0, .choose 0, .create 0 2] firstSpace).map
      fun y => ((y.sys.proc 1).sz, (y.sys.proc 0).state, (y.sys.proc 0).master, (y.sys.proc 1).state, (y.sys.proc 1).master)) =
      some (3 * PGSIZE, .running, some 0, .runnable, some 0) := by
    decide +kernel
  obtain ⟨y, executed, summary⟩ := Option.map_eq_some_iff.mp outcome
  simp only [Prod.mk.injEq] at summary
  obtain ⟨size, running, own, runnable, master⟩ := summary
  have run : Run (GroupStep 0 GroupMemory.keepsSizes) firstSpace [.run 0, .choose 0, .create 0 2] y := Run.of_exec executed
  have lwps := (lwps_share_size firstSpace_single run).1 1 0 (2 * PGSIZE)
    ⟨by rw [runnable]; rfl, master⟩ ⟨by rw [running]; rfl, own⟩
  exact ⟨y, run, size, lwps.1⟩

/-- The first process creates two LWPs: the first one keeps its size, so that `fetchint` refuses it
what it accepts from the master, and a child that it forks has a smaller size than the memory copied
for it: the first `sbrk` of that child panics. -/
theorem second_create_splits_sizes :
    ∃ y, Run (GroupStep 0 GroupMemory.imageStays) firstSpace [.run 0, .choose 0, .create 0 2, .choose 0, .create 0 2] y ∧
      y.IsLwp 0 0 ∧ y.IsLwp 0 1 ∧ fetchint (y.sys.proc 1).sz (4 * PGSIZE) ≠ fetchint (y.sys.proc 0).sz (4 * PGSIZE) ∧
      ∃ t copy, y.sys.forkCopy 1 5 (.copied 9) = some t ∧ (t.proc 5).sz ≠ (y.sys.proc 0).sz ∧
        copyuvm (y.directory 0) (y.sys.proc 0).sz 8 = some (some copy) ∧
        allocuvm copy (t.proc 5).sz ((t.proc 5).sz + PGSIZE) 8 = none := by
  have outcome : ((Run.exec (Space.groupStep 0 GroupMemory.imageStays)
      [.run 0, .choose 0, .create 0 2, .choose 0, .create 0 2] firstSpace).bind fun y =>
        (y.sys.forkCopy 1 5 (.copied 9)).bind fun t =>
          (copyuvm (y.directory 0) (y.sys.proc 0).sz 8).map fun copy => ((y.sys.proc 1).sz, (y.sys.proc 0).sz,
            (t.proc 5).sz, copy.map fun copy => (allocuvm copy (3 * PGSIZE) (4 * PGSIZE) 8).isSome)) =
      some (3 * PGSIZE, 5 * PGSIZE, 3 * PGSIZE, some false) := by
    decide +kernel
  obtain ⟨y, executed, rest⟩ := Option.bind_eq_some_iff.mp outcome
  obtain ⟨t, forked, rest⟩ := Option.bind_eq_some_iff.mp rest
  obtain ⟨copy, copied, summary⟩ := Option.map_eq_some_iff.mp rest
  simp only [Prod.mk.injEq] at summary
  obtain ⟨first, master, child, panics⟩ := summary
  have lwps : ((Run.exec (Space.groupStep 0 GroupMemory.imageStays)
      [.run 0, .choose 0, .create 0 2, .choose 0, .create 0 2] firstSpace).map fun y =>
        ((y.sys.proc 0).state.started, (y.sys.proc 0).master, (y.sys.proc 1).state.started, (y.sys.proc 1).master)) =
      some (true, some 0, true, some 0) := by
    decide +kernel
  rw [executed, Option.map_some, Option.some.injEq, Prod.mk.injEq, Prod.mk.injEq, Prod.mk.injEq] at lwps
  obtain ⟨running, own, runnable, points⟩ := lwps
  refine ⟨y, Run.of_exec executed, ⟨running, own⟩, ⟨runnable, points⟩, ?_, t, ?_⟩
  · rw [first, master]
    decide
  · cases copy with
    | none => contradiction
    | some copy =>
      refine ⟨copy, forked, ?_, copied, ?_⟩
      · rw [child, master]
        decide
      · rw [child]
        exact Option.not_isSome_iff_eq_none.mp (Bool.eq_false_iff.mp (Option.some.inj panics))

end Xv6
