import Xv6.Verif.Sharing

/-!
# Holes in user memory

`copyuvm` panics on a page below the size that is not present, and the checks on addresses take
every address below the size for a mapped one. Stacks lie in the same memory as the heap, and
`thread_join` unmaps them without lowering a size. There is no hole as long as pages are unmapped
only above the sizes that started LWPs keep, and new sizes only reach over mapped pages.
-/

namespace Xv6

/-! ## Mapped pages -/

section Mapping

variable {pages rest : PageMap} {low high sz : Nat}

/-- The page boundary after an address is no later than the pages after it. -/
theorem PGROUNDUP_le {page : Nat} (above : low ≤ page * PGSIZE) : PGROUNDUP low ≤ page * PGSIZE := by
  unfold PGROUNDUP
  simp only [PGSIZE] at *
  omega

/-- Pages below a boundary stay mapped when others are unmapped. -/
theorem Mapped.remove (mapped : Mapped pages sz) (below : sz ≤ PGROUNDUP low)
    (removed : ∀ page, rest page = if InRange low high page then none else pages page) : Mapped rest sz := by
  intro page inside
  rw [removed page, if_neg]
  · exact mapped page inside
  · intro range
    have boundary := PGROUNDUP_le range.1
    omega

/-- Pages stay mapped when others are mapped. -/
theorem Mapped.add (mapped : Mapped pages sz)
    (added : ∀ page, rest page = if InRange low high page then some true else pages page) : Mapped rest sz := by
  intro page inside
  rw [added page]
  split
  · exact Option.some_ne_none true
  · exact mapped page inside

/-- Mapping a range extends what is mapped below it. -/
theorem Mapped.extend (mapped : Mapped pages low)
    (added : ∀ page, rest page = if InRange low high page then some true else pages page) : Mapped rest high := by
  intro page inside
  rw [added page]
  by_cases above : low ≤ page * PGSIZE
  · rw [if_pos ⟨above, inside⟩]
    exact Option.some_ne_none true
  · rw [if_neg fun range => above range.1]
    exact mapped page (Nat.lt_of_not_le above)

/-- `clearpteu` unmaps nothing. -/
theorem Mapped.clearpteu (mapped : Mapped pages sz) (uva : Nat) : Mapped (clearpteu pages uva) sz :=
  fun page inside => (clearpteu_none pages uva page).not.mpr (mapped page inside)

end Mapping

/-! ## The invariant -/

namespace GroupMemory

/-- No started LWP but the master keeps a size beyond the page boundary after `low`. -/
def clearAbove (g : GroupMemory) (low : Nat) : Bool :=
  (startedSizes g.threads).all fun sz => decide (sz ≤ PGROUNDUP low)

/-- Every page below the address is present. -/
def mappedBelow (g : GroupMemory) (high : Nat) : Bool := (pageRange 0 high).all fun page => (g.pages page).isSome

/-- The step unmaps pages only above the sizes in use, and a new size reaches over mapped pages. -/
def keepsMapped (g : GroupMemory) : MemoryAction → Bool
  | .rest => true
  | .collect q =>
    match g.threads q with
    | none => true
    | some stack =>
      decide (stack.sz ≤ stack.base) || decide (g.sz ≤ PGROUNDUP stack.base) && g.clearAbove stack.base
  | .create room =>
    match g.free with
    | [] => fits g.sz (g.sz + 2 * PGSIZE) room
    | base :: _ =>
      if fits base (base + 2 * PGSIZE) room then g.mappedBelow base
      else decide (KERNBASE ≤ base + 2 * PGSIZE) || decide (g.sz ≤ PGROUNDUP base) && g.clearAbove base
  | .sbrk n room =>
    let newsz := uint (g.sz + n)
    if 0 < n then decide (newsz ≤ g.sz ∨ KERNBASE ≤ newsz) || fits g.sz newsz room || g.clearAbove g.sz
    else decide (0 ≤ n ∨ g.sz ≤ newsz) || decide (newsz ≠ 0) && g.clearAbove newsz
  | .exec _ => false

/-- Every page below a size that a started LWP or the master keeps is present. -/
def Full (g : GroupMemory) : Prop := ∀ sz, sz = g.sz ∨ sz ∈ startedSizes g.threads → Mapped g.pages sz ∧ sz ≤ KERNBASE

variable {g g' : GroupMemory} {low high n room : Nat}

/-- No started LWP keeps a larger size. -/
theorem clearAbove_iff : g.clearAbove low = true ↔ ∀ sz ∈ startedSizes g.threads, sz ≤ PGROUNDUP low := by
  unfold clearAbove
  rw [List.all_eq_true]
  simp only [decide_eq_true_eq]

/-- Every page below the address is mapped. -/
theorem Mapped.of_below (below : g.mappedBelow high = true) : Mapped g.pages high := by
  intro page inside
  have member : page ∈ pageRange 0 high := (mem_pageRange (show 0 + PGSIZE ≤ 2 ^ 32 by decide)).mpr ⟨Nat.zero_le _, inside⟩
  exact Option.isSome_iff_ne_none.mp (List.all_eq_true.mp below page member)

/-- `deallocuvm` at or above all sizes in use. -/
theorem Full.remove (full : Full g) {pages : PageMap} (size : g.sz ≤ PGROUNDUP low) (clear : g.clearAbove low = true)
    (removed : ∀ page, pages page = if InRange low high page then none else g.pages page) : Full { g with pages } := by
  intro sz kept
  obtain ⟨mapped, bound⟩ := full sz kept
  refine ⟨mapped.remove ?_ removed, bound⟩
  rcases kept with rfl | member
  · exact size
  · exact clearAbove_iff.mp clear sz member

/-- A size below `KERNBASE` is not beyond its page boundary. -/
theorem le_PGROUNDUP {sz : Nat} (bound : sz ≤ KERNBASE) : sz ≤ PGROUNDUP sz := by
  unfold PGROUNDUP
  simp only [KERNBASE, PGSIZE] at *
  omega

/-- `thread_create`. -/
theorem Full.create (full : Full g) {np : Lwp} {pages : PageMap} (met : g.keepsMapped (.create room) = true)
    (allocated : allocuvm g.pages g.nextBase (g.nextBase + 2 * PGSIZE) room = some (g.nextBase + 2 * PGSIZE, pages)) :
    Full { g.takeBase with
      threads := Function.update g.threads np (some ⟨g.nextBase, g.nextBase + 2 * PGSIZE, true⟩)
      pages := clearpteu pages g.nextBase } := by
  obtain ⟨_, enough, _, added⟩ := allocuvm_grown allocated (by simp only [PGSIZE]; omega)
  have low := Nat.le_of_lt (fits_low enough)
  have below : Mapped g.pages g.nextBase ∧ (g.takeBase.sz = g.sz ∨ g.takeBase.sz = g.nextBase + 2 * PGSIZE) := by
    unfold keepsMapped at met
    cases held : g.free with
    | nil =>
      obtain ⟨base, based⟩ := next_fresh held
      rw [base, based]
      exact ⟨(full g.sz (.inl rfl)).1, .inr rfl⟩
    | cons base rest =>
      obtain ⟨next, based⟩ := next_recycled held
      rw [next] at enough ⊢
      rw [based]
      simp only [held, enough, if_true] at met
      exact ⟨Mapped.of_below met, .inl rfl⟩
  have fresh : Mapped (clearpteu pages g.nextBase) (g.nextBase + 2 * PGSIZE) := (below.1.extend added).clearpteu _
  have old : ∀ sz, sz = g.sz ∨ sz ∈ startedSizes g.threads → Mapped (clearpteu pages g.nextBase) sz ∧ sz ≤ KERNBASE :=
    fun sz kept => ⟨((full sz kept).1.add added).clearpteu _, (full sz kept).2⟩
  rintro sz (rfl | member)
  · rcases below.2 with same | grown
    · exact old _ (.inl same)
    · show Mapped _ g.takeBase.sz ∧ g.takeBase.sz ≤ KERNBASE
      rw [grown]
      exact ⟨fresh, low⟩
  · rcases startedSizes_update member with kept | ⟨_, new, _, rfl⟩
    · exact old sz (.inr kept)
    · cases new
      exact ⟨fresh, low⟩

/-- `thread_create` without memory for the stack. -/
theorem Full.refuse (full : Full g) {pages : PageMap} (met : g.keepsMapped (.create room) = true)
    (allocated : allocuvm g.pages g.nextBase (g.nextBase + 2 * PGSIZE) room = some (0, pages)) :
    Full { g.takeBase with pages } := by
  obtain ⟨short, result⟩ := allocuvm_failed allocated (by simp only [PGSIZE]; omega)
  unfold keepsMapped at met
  cases held : g.free with
  | nil =>
    rw [(next_fresh held).1] at short
    simp only [held, short] at met
    exact absurd met Bool.false_ne_true
  | cons base rest =>
    obtain ⟨next, based⟩ := next_recycled held
    rw [next] at short result
    rw [based]
    simp only [held, short, Bool.false_eq_true, if_false, Bool.or_eq_true, Bool.and_eq_true, decide_eq_true_eq] at met
    rcases result with ⟨_, rfl⟩ | ⟨below, removed⟩
    · exact full
    · obtain ⟨size, clear⟩ := met.resolve_left (Nat.not_le.mpr below)
      exact full.remove size clear removed

/-- `thread_join` of an LWP. -/
theorem Full.collect (full : Full g) {q : Lwp} {stack : ThreadStack} {sz : Nat} {pages : PageMap}
    (held : g.threads q = some stack) (met : g.keepsMapped (.collect q) = true)
    (freed : deallocuvm g.pages stack.sz stack.base = some (sz, pages)) :
    Full { g with free := stack.base :: g.free, threads := Function.update g.threads q none, pages } := by
  have kept : Full { g with pages } := by
    unfold keepsMapped at met
    simp only [held, Bool.or_eq_true, Bool.and_eq_true, decide_eq_true_eq] at met
    rcases met with empty | ⟨size, clear⟩
    · have same : pages = g.pages := by
        funext page
        rw [deallocuvm_pages freed page, if_neg]
        intro range
        exact Nat.not_lt.mpr (Nat.le_trans empty range.1) range.2
      rw [same]
      exact full
    · exact full.remove size clear (deallocuvm_pages freed)
  rintro size (rfl | member)
  · exact kept g.sz (.inl rfl)
  · rcases startedSizes_update member with old | ⟨_, new, _⟩
    · exact kept size (.inr old)
    · cases new

/-- `sbrk`, whatever it returns. -/
theorem Full.grow (full : Full g) {n : Int} {sz : Nat} {pages : PageMap} (met : g.keepsMapped (.sbrk n room) = true)
    (grown : g.growth n room = some (sz, pages)) :
    (n ≠ 0 ∧ sz = 0 → Full { g with pages }) ∧ (¬(n ≠ 0 ∧ sz = 0) → Full { g with sz, pages }) := by
  obtain ⟨mapped, bound⟩ := full g.sz (.inl rfl)
  -- What is left to show for a new size, once the pages are known to be kept.
  have resize : Full { g with pages } → Mapped pages sz ∧ sz ≤ KERNBASE → Full { g with sz, pages } := by
    intro kept new size which
    rcases which with rfl | member
    · exact new
    · exact kept size (.inr member)
  unfold growth at grown
  unfold keepsMapped at met
  by_cases positive : 0 < n
  · rw [if_pos positive] at grown
    simp only [if_pos positive, Bool.or_eq_true, decide_eq_true_eq] at met
    cases allocuvm_allocates grown with
    | refused _ => exact ⟨fun _ => full, fun stored => absurd ⟨by omega, rfl⟩ stored⟩
    | kept _ _ => exact ⟨fun _ => full, fun _ => full⟩
    | mapped _ _ enough _ added =>
      have kept : Full { g with pages } := fun size which => ⟨(full size which).1.add added, (full size which).2⟩
      exact ⟨fun _ => kept, fun _ => resize kept ⟨mapped.extend added, Nat.le_of_lt (fits_low enough)⟩⟩
    | exhausted _ larger low short removed =>
      refine ⟨fun _ => ?_, fun stored => absurd ⟨by omega, rfl⟩ stored⟩
      rcases met with (small | enough) | clear
      · have same : pages = g.pages := by
          funext page
          rw [removed page, if_neg]
          intro range
          have := range.1
          have := range.2
          omega
        rw [same]
        exact full
      · rw [short] at enough
        contradiction
      · exact full.remove (le_PGROUNDUP bound) clear removed
  · rw [if_neg positive] at grown
    simp only [if_neg positive, Bool.or_eq_true, Bool.and_eq_true, decide_eq_true_eq] at met
    by_cases negative : n < 0
    · rw [if_pos negative] at grown
      have size := deallocuvm_size grown
      have removed := deallocuvm_pages grown
      by_cases smaller : g.sz ≤ uint (g.sz + n)
      · have same : pages = g.pages := by
          funext page
          rw [removed page, if_neg]
          intro range
          exact Nat.not_lt.mpr (Nat.le_trans smaller range.1) range.2
        rw [same, size, Nat.min_eq_left smaller]
        exact ⟨fun _ => full, fun _ => full⟩
      · obtain ⟨nonzero, clear⟩ := met.resolve_left (by omega)
        rw [Nat.min_eq_right (Nat.le_of_not_le smaller)] at size
        subst size
        refine ⟨fun failed => absurd failed.2 nonzero, fun _ => ?_⟩
        have low : uint (g.sz + n) ≤ PGROUNDUP (uint (g.sz + n)) := le_PGROUNDUP (by omega)
        rintro size (rfl | member)
        · refine ⟨Mapped.remove (fun page inside => mapped page ?_) low removed, ?_⟩
          · exact Nat.lt_of_lt_of_le inside (Nat.le_of_not_le smaller)
          · exact Nat.le_trans (Nat.le_of_not_le smaller) bound
        · obtain ⟨old, limit⟩ := full size (.inr member)
          exact ⟨old.remove (clearAbove_iff.mp clear size member) removed, limit⟩
    · rw [if_neg negative] at grown
      cases grown
      exact ⟨fun _ => full, fun _ => full⟩

/-- Every change that meets the condition leaves no hole. -/
theorem Full.changes (full : Full g) {action : MemoryAction} (met : g.keepsMapped action = true)
    (changes : g.Changes action g') : Full g' := by
  cases changes with
  | rested => exact full
  | exited q stack _ =>
    rintro sz (rfl | member)
    · exact full g.sz (.inl rfl)
    · rcases startedSizes_update member with old | ⟨_, new, started, _⟩
      · exact full sz (.inr old)
      · cases new
        contradiction
  | created room np pages _ allocated => exact full.create met allocated
  | uncreated room pages allocated => exact full.refuse met allocated
  | collected q stack sz pages held freed => exact full.collect held met freed
  | grown n room sz pages grown stored => exact (full.grow met grown).2 stored
  | ungrown n room pages grown nonzero => exact (full.grow met grown).1 ⟨nonzero, rfl⟩
  | replaced ends sz pages _ _ => contradiction
  | unloaded ends => contradiction

end GroupMemory

/-! ## Runs -/

/-- In every run of `thread_create`, `sbrk`, `thread_exit` and `thread_join` in a group with a mapped
image whose steps unmap pages only above the sizes in use and start LWPs only over mapped pages:
every page below the size of the master is present, `copyuvm` does not panic, and every address
that `fetchint`, `fetchstr` or `argptr` accepts from an LWP is in a present page. -/
theorem group_has_no_hole {x y : Space} {m : Lwp} {events : List SpaceEvent} (single : SingleLwp x.sys m)
    (image : Mapped (x.directory m) (x.sys.proc m).sz) (user : (x.sys.proc m).sz ≤ KERNBASE)
    (run : Run (GroupStep m GroupMemory.keepsMapped) x events y) :
    (∀ page, page * PGSIZE < (y.sys.proc m).sz → y.directory m page ≠ none) ∧
    (∀ room, copyuvm (y.directory m) (y.sys.proc m).sz room ≠ none) ∧
    ∀ q, y.IsLwp m q → ∀ addr,
      (fetchint (y.sys.proc q).sz addr = true → ∀ a, addr ≤ a → a < addr + 4 → y.directory m (a / PGSIZE) ≠ none) ∧
      (∀ memory length, fetchstr (y.sys.proc q).sz addr memory = some length → ∀ a, addr ≤ a → a ≤ addr + length →
        y.directory m (a / PGSIZE) ≠ none) ∧
      ∀ size : Int, size < 2 ^ 31 → argptr (y.sys.proc q).sz addr size = true → ∀ a : Nat, addr ≤ a → a < addr + size →
        y.directory m (a / PGSIZE) ≠ none := by
  have start : (x.memory m).Full := by
    rintro sz (rfl | member)
    · exact ⟨image, user⟩
    · rw [GroupMemory.startedSizes_alone single.threads] at member
      exact absurd member List.not_mem_nil
  obtain ⟨_, _, full⟩ := GroupOf.run GroupMemory.Full (fun g ends met => absurd met Bool.false_ne_true)
    (fun g action g' full met changes => full.changes met changes) single start run
  obtain ⟨mapped, _⟩ := full (y.sys.proc m).sz (.inl rfl)
  refine ⟨mapped, fun room => copyuvm_returns room mapped, fun q lwp addr => ?_⟩
  obtain ⟨own, bound⟩ : Mapped (y.directory m) (y.sys.proc q).sz ∧ (y.sys.proc q).sz ≤ KERNBASE := by
    rcases GroupMemory.startedSizes_of_member lwp with rfl | member
    · exact full _ (.inl rfl)
    · exact full _ (.inr member)
  refine ⟨fun accepted a _ below => ?_, fun memory length accepted a _ below => ?_, fun size signed accepted a _ below => ?_⟩
  · have inside := fetchint_below bound accepted
    exact own.address (by omega)
  · have inside := fetchstr_below accepted
    exact own.address (by omega)
  · have inside := argptr_below bound signed accepted
    exact own.address (by omega)

/-- The first process creates an LWP: no hole. -/
theorem group_has_no_hole_first : ∃ y, Run (GroupStep 0 GroupMemory.keepsMapped) firstSpace [.run 0, .choose 0, .create 0 2] y ∧
    (y.sys.proc 0).sz = 3 * PGSIZE ∧ y.directory 0 2 ≠ none := by
  have outcome : ((Run.exec (Space.groupStep 0 GroupMemory.keepsMapped) [.run 0, .choose 0, .create 0 2] firstSpace).map
      fun y => (y.sys.proc 0).sz) = some (3 * PGSIZE) := by
    decide +kernel
  obtain ⟨y, executed, size⟩ := Option.map_eq_some_iff.mp outcome
  have run : Run (GroupStep 0 GroupMemory.keepsMapped) firstSpace [.run 0, .choose 0, .create 0 2] y := Run.of_exec executed
  have first : (firstSpace.sys.proc 0).sz = PGSIZE := by decide +kernel
  have image : Mapped (firstSpace.directory 0) (firstSpace.sys.proc 0).sz := by
    intro page inside
    rw [first] at inside
    have only : page = 0 := by
      simp only [PGSIZE] at inside
      omega
    rw [only]
    decide +kernel
  have user : (firstSpace.sys.proc 0).sz ≤ KERNBASE := by
    rw [first]
    decide
  have mapped := (group_has_no_hole firstSpace_single image user run).1 2 (by rw [size]; decide)
  exact ⟨y, run, size, mapped⟩

/-- The first process creates an LWP that exits and is collected: the pages of its stack are gone
below the size of the master, and a `fork` panics. -/
theorem join_leaves_hole :
    ∃ y, Run (GroupStep 0 GroupMemory.imageStays) firstSpace
        [.run 0, .choose 0, .create 0 2, .run 1, .threadExit 1 0, .join 0 2] y ∧
      2 * PGSIZE < (y.sys.proc 0).sz ∧ y.directory 0 2 = none ∧ copyuvm (y.directory 0) (y.sys.proc 0).sz 8 = none ∧
      fetchint (y.sys.proc 0).sz (2 * PGSIZE) = true := by
  have outcome : ((Run.exec (Space.groupStep 0 GroupMemory.imageStays)
      [.run 0, .choose 0, .create 0 2, .run 1, .threadExit 1 0, .join 0 2] firstSpace).map fun y =>
        ((y.sys.proc 0).sz, (y.directory 0 2).isSome, (copyuvm (y.directory 0) (y.sys.proc 0).sz 8).isSome)) =
      some (3 * PGSIZE, false, false) := by
    decide +kernel
  obtain ⟨y, executed, summary⟩ := Option.map_eq_some_iff.mp outcome
  simp only [Prod.mk.injEq] at summary
  obtain ⟨size, absent, panics⟩ := summary
  refine ⟨y, Run.of_exec executed, ?_, Option.not_isSome_iff_eq_none.mp (Bool.eq_false_iff.mp absent),
    Option.not_isSome_iff_eq_none.mp (Bool.eq_false_iff.mp panics), ?_⟩
  · rw [size]
    decide
  · rw [size]
    decide

end Xv6
