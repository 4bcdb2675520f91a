import Xv6.Verif.ExecCalls
import Xv6.Verif.NewStacks

/-!
# `thread_create` over memory

When `thread_create` leaves the pages of its group alone, and that a call that fails never undoes what it
did: the page of the kernel stack is lost.
-/

namespace Xv6

section Tables

variable {s t : System} {p np q master : Lwp}

/-- `allocproc` leaves the memory of every other LWP alone. -/
theorem initSlot_memory (s : System) {np q : Lwp} (other : q ≠ np) :
    ∃ schedstate pmlfqNode, (((s.takeSlot np).initSlot np).proc q) = { s.proc q with schedstate, pmlfqNode } := by
  obtain ⟨schedstate, pmlfqNode, slot⟩ := pushMlfq_slot
    ((s.takeSlot np).setProc np { (s.takeSlot np).proc np with kstack := true })
    (((s.takeSlot np).setProc np { (s.takeSlot np).proc np with kstack := true }).proc np).pid 0 q
  refine ⟨schedstate, pmlfqNode, ?_⟩
  unfold System.initSlot
  dsimp only
  rw [System.setProc_other _ _ other, slot, System.setProc_other _ _ other, takeSlot_other _ other]

/-- Giving back a queue node leaves the process table alone. -/
theorem returnNode_proc (returned : s.returnNode np = some t) : t.proc = s.proc := by
  unfold System.returnNode at returned
  split at returned
  · contradiction
  · cases returned
    rfl

/-- The base of the next stack depends on the master's size and recycled stacks. -/
theorem takeBase_base (same : ∃ schedstate pmlfqNode, t.proc master = { s.proc master with schedstate, pmlfqNode }) :
    (t.takeBase master).1 = (s.takeBase master).1 := by
  obtain ⟨_, _, same⟩ := same
  unfold System.takeBase
  rw [same]
  dsimp only
  cases (s.proc master).stack with
  | nil => rfl
  | cons base rest => rfl

/-- Taking the base of a stack keeps the directories. -/
theorem takeBase_pgdir (s : System) (master q : Lwp) : ((s.takeBase master).2.proc q).pgdir = (s.proc q).pgdir := by
  unfold System.takeBase
  cases (s.proc master).stack with
  | nil =>
    by_cases here : q = master
    · rw [here, System.setProc_self]
    · rw [System.setProc_other _ _ here]
  | cons base rest =>
    by_cases here : q = master
    · rw [here, System.setProc_self]
    · rw [System.setProc_other _ _ here]

end Tables

section Calls

variable {k : KernelImage} {m m' : Memory} {s : System} {p master : Lwp} {d tid arg : Nat} {result : ThreadResult}

/-- `allocproc` finds no slot or no page, or it takes a page for the kernel stack. -/
theorem allocproc_yields (s : System) (m : Memory) : Yields k (Vm.allocproc s) m fun r m' =>
    r.1 = none ∨ ∃ np kstack rest, s.allocproc true = (some np, r.2) ∧ r.1 = some np ∧ m.free = kstack :: rest ∧
      m' = { m with free := rest } := by
  unfold Vm.allocproc
  rcases alloc : s.allocproc true with ⟨_ | np, t⟩
  · exact Yields.pure (.inl rfl)
  · refine (Vm.kalloc_returns k m).yields.bind fun page m₁ known => ?_
    rcases known with ⟨rfl, _, rfl⟩ | ⟨kstack, rest, rfl, head, rfl⟩
    · refine Yields.pure (.inl ?_)
      exact (allocproc_refused (Prod.eta (s.allocproc false)).symm).1
    · exact Yields.pure (.inr ⟨np, kstack, rest, rfl, rfl, head, rfl⟩)

/-- A call of `thread_create` that returns took a free slot and a page for the kernel stack, and is the
step of the process table for the way in which its stack ends. -/
theorem threadCreate_ran (grouped : Grouped s) (started : (s.proc p).state.started = true)
    (leader : (s.proc p).master = some master) (pgdir : (s.proc master).pgdir = some d)
    (ran : Program.run (Memory.handler k) (Vm.threadCreate s p tid arg) m = .ok (result, m')) :
    ∃ kstack rest outcome, m.free = kstack :: rest ∧
      Program.run (Memory.handler k) (Vm.threadStack d (s.takeBase master).1 arg) { m with free := rest } =
        .ok ((outcome, result.esp), m') ∧
      result.value = (if outcome = .mapped then 0 else -1) ∧
      s.threadCreate p tid outcome = some (result.system.setCall p .none) := by
  obtain ⟨_, known, _, _, begun⟩ := grouped.master p started
  rw [leader] at known
  cases known
  unfold Vm.threadCreate at ran
  obtain ⟨⟨found, t⟩, m₁, allocated, ran⟩ := Program.run_bind_eq_ok ran
  rcases (allocproc_yields s m).ok allocated with missing | ⟨np, kstack, rest, alloc, here, head, rfl⟩
  · dsimp only at missing
    rw [missing] at ran
    contradiction
  · dsimp only at alloc here
    rw [here] at ran
    obtain ⟨free, rfl⟩ := allocproc_free alloc
    have unused := freeSlot_unused free
    have creator : p ≠ np := by
      rintro rfl
      rw [unused] at started
      contradiction
    have whole : master ≠ np := by
      rintro rfl
      rw [unused] at begun
      contradiction
    obtain ⟨_, _, kept⟩ := initSlot_memory s creator
    have points : (((s.takeSlot np).initSlot np).proc p).master = some master := by
      rw [kept]
      exact leader
    dsimp only at ran
    cases returned : ((s.takeSlot np).initSlot np).returnNode np with
    | none =>
      rw [returned] at ran
      contradiction
    | some v =>
      rw [returned, points] at ran
      have same := returnNode_proc returned
      have base : (v.takeBase master).1 = (s.takeBase master).1 := by
        refine takeBase_base ?_
        rw [same]
        exact initSlot_memory s whole
      have dir : ((v.takeBase master).2.proc master).pgdir = some d := by
        obtain ⟨_, _, kept⟩ := initSlot_memory s whole
        rw [takeBase_pgdir, same, kept]
        exact pgdir
      dsimp only at ran
      rw [dir, base] at ran
      obtain ⟨⟨outcome, sp⟩, m₃, stacked, ran⟩ := Program.run_bind_eq_ok ran
      cases ran
      refine ⟨kstack, rest, outcome, head, stacked, rfl, ?_⟩
      unfold System.threadCreate
      rw [alloc]
      dsimp only
      rw [returned, points]
      dsimp only
      rw [base]

end Calls

/-! ## The pages of the group -/

/-- `thread_create` leaves the pages alone: those that were mapped are mapped as before, and if it returns
0 there are two new ones, the lower one not for the user and the upper one with the stack pointer. -/
structure LeavesPages (m : Memory) (d : Nat) (result : ThreadResult) (m' : Memory) : Prop where
  /-- The pages that were mapped. -/
  kept : ∀ pn < USERPAGES, ∀ w, m.mapping d pn = some w → m'.mapping d pn = some w
  /-- The new ones. -/
  new : result.value = 0 → ∃ low high, low < high ∧ high < USERPAGES ∧
    m.mapping d low = none ∧ m.mapping d high = none ∧
    (∃ w, m'.mapping d low = some w ∧ w / PTE_U % 2 = 0) ∧ (∃ w, m'.mapping d high = some w) ∧
    (∀ pn < USERPAGES, pn ≠ low → pn ≠ high → m'.mapping d pn = m.mapping d pn) ∧ result.esp / PGSIZE = high

/-- The stack ends above user memory; or both of its pages are vacant, and the base is aligned or there are
too few free pages besides the one for the kernel stack. -/
def StackSafe (m : Memory) (d base : Nat) : Prop :=
  KERNBASE ≤ base + 2 * PGSIZE ∨ (∀ pn ∈ stackPages base, m.mapping d pn = none) ∧
    (base % PGSIZE = 0 ∨ m.free.length ≤ pagesNeeded m d (stackPages base))

section Pages

variable {k : KernelImage} {m m' : Memory} {s : System} {p master : Lwp} {d base tid arg kstack : Nat} {rest : List Nat}
  {result : ThreadResult}

/-- A call that fails with the mappings as they were. -/
theorem LeavesPages.failed (value : result.value = -1) (same : ∀ pn < USERPAGES, m'.mapping d pn = m.mapping d pn) :
    LeavesPages m d result m' := by
  refine ⟨fun pn user w mapped => (same pn user).trans mapped, fun success => ?_⟩
  rw [value] at success
  contradiction

/-- The pages of a stack in user memory. -/
theorem stackPages_user (inside : base + 2 * PGSIZE < KERNBASE) {pn : Nat} (member : pn ∈ stackPages base) :
    pn < USERPAGES := by
  rw [mem_stackPages] at member
  unfold USERPAGES
  unfold KERNBASE PGSIZE at *
  omega

/-- The mappings outside of a new stack and of the page of its base. -/
theorem Guarded.mapping (guarded : Guarded k m d base m') {q : Nat} (user : q < USERPAGES) (outside : q ∉ stackPages base)
    (apart : q ≠ base / PGSIZE) : m'.mapping d q = m.mapping d q := by
  obtain ⟨m₁, stretched, mapping⟩ := guarded
  rw [mapping q (user_inside user), if_neg apart]
  exact stretched.mapping q (user_inside user) outside

/-- A new page that is not the one of the base is for the user. -/
theorem Guarded.upper (guarded : Guarded k m d base m') {q : Nat} (user : q < USERPAGES) (page : q ∈ stackPages base)
    (apart : q ≠ base / PGSIZE) : ∃ w, m'.mapping d q = some w ∧ w / PTE_U % 2 = 1 := by
  obtain ⟨m₁, stretched, mapping⟩ := guarded
  obtain ⟨f, _, mapped, _⟩ := stretched.fresh q page
  refine ⟨pteWord (f * PGSIZE) (PTE_W + PTE_U), ?_, pteWord_user f⟩
  rw [mapping q (user_inside user), if_neg apart, mapped]

/-- A stack at an aligned base has a guard page and a page for the user. -/
theorem Guarded.leaves (guarded : Guarded k m d base m') (inside : base + 2 * PGSIZE < KERNBASE)
    (vacant : ∀ pn ∈ stackPages base, m.mapping d pn = none) (aligned : base % PGSIZE = 0)
    (esp : result.esp = base + 2 * PGSIZE - 8) : LeavesPages m d result m' := by
  have low : base / PGSIZE ∈ stackPages base := by
    rw [mem_stackPages]
    unfold PGSIZE at *
    omega
  have high : base / PGSIZE + 1 ∈ stackPages base := by
    rw [mem_stackPages]
    unfold PGSIZE at *
    omega
  have members : ∀ pn ∈ stackPages base, pn = base / PGSIZE ∨ pn = base / PGSIZE + 1 := by
    intro pn member
    rw [mem_stackPages] at member
    unfold PGSIZE at *
    omega
  refine ⟨fun pn user w mapped => ?_, fun _ => ?_⟩
  · have outside : pn ∉ stackPages base := by
      intro member
      rw [vacant pn member] at mapped
      contradiction
    rw [guarded.mapping user outside fun here => outside (here ▸ low)]
    exact mapped
  · obtain ⟨w, upper, _⟩ := guarded.upper (stackPages_user inside high) high (Nat.succ_ne_self _)
    refine ⟨base / PGSIZE, base / PGSIZE + 1, Nat.lt_succ_self _, stackPages_user inside high, vacant _ low, vacant _ high,
      ?_, ⟨w, upper⟩, fun pn user other₁ other₂ => ?_, ?_⟩
    · obtain ⟨m₁, stretched, mapping⟩ := guarded
      obtain ⟨f, _, mapped, _⟩ := stretched.fresh _ low
      refine ⟨withoutUser (pteWord (f * PGSIZE) (PTE_W + PTE_U)), ?_, withoutUser_user _⟩
      rw [mapping _ (user_inside (stackPages_user inside low)), if_pos rfl, mapped]
      rfl
    · exact guarded.mapping user (fun member => (members pn member).elim other₁ other₂) other₁
    · rw [esp]
      unfold PGSIZE at *
      omega

/-- A stack at another base has two pages for the user. -/
theorem Guarded.uncovered (guarded : Guarded k m d base m') (inside : base + 2 * PGSIZE < KERNBASE)
    (vacant : ∀ pn ∈ stackPages base, m.mapping d pn = none) (unaligned : base % PGSIZE ≠ 0) (value : result.value = 0) :
    ¬LeavesPages m d result m' := by
  intro leaves
  obtain ⟨low, high, below, user, _, _, ⟨w, mapped, hidden⟩, ⟨w', mapped'⟩, others, _⟩ := leaves.new value
  have aside : ∀ pn ∈ stackPages base, pn ≠ base / PGSIZE := by
    intro pn member
    rw [mem_stackPages] at member
    unfold PGSIZE at *
    omega
  have accessible : ∀ pn ∈ stackPages base, ∃ w, m'.mapping d pn = some w ∧ w / PTE_U % 2 = 1 :=
    fun pn member => guarded.upper (stackPages_user inside member) member (aside pn member)
  have two : ∀ pn ∈ stackPages base, pn = low ∨ pn = high := by
    intro pn member
    by_contra other
    rw [not_or] at other
    obtain ⟨w, mapped, _⟩ := accessible pn member
    rw [others pn (stackPages_user inside member) other.1 other.2, vacant pn member] at mapped
    contradiction
  have first := two ((base + PGSIZE - 1) / PGSIZE) ((mem_stackPages _ _).mpr (.inl rfl))
  have second := two ((base + PGSIZE - 1) / PGSIZE + 1) ((mem_stackPages _ _).mpr (.inr rfl))
  have lowest : low ∈ stackPages base := by
    rw [mem_stackPages]
    omega
  obtain ⟨w₁, found, shown⟩ := accessible low lowest
  rw [mapped] at found
  cases found
  rw [hidden] at shown
  contradiction

/-- The page of the kernel stack is taken from the memory of a group. -/
theorem GroupSpace.take (space : GroupSpace k m d) (head : m.free = kstack :: rest) :
    GroupSpace k { m with free := rest } d ∧ Loose k { m with free := rest } d kstack := by
  obtain ⟨own, stock, loose⟩ := space.own.take space.stock head
  exact ⟨⟨own, stock, space.kernel⟩, loose⟩

/-- `thread_create` that returns leaves the pages of its group alone exactly when its stack is safe. -/
theorem threadCreate_leaves_iff (space : GroupSpace k m d) (grouped : Grouped s)
    (started : (s.proc p).state.started = true) (leader : (s.proc p).master = some master)
    (pgdir : (s.proc master).pgdir = some d) (narrow : (s.takeBase master).1 < 2 ^ 32)
    (ran : Program.run (Memory.handler k) (Vm.threadCreate s p tid arg) m = .ok (result, m')) :
    LeavesPages m d result m' ↔ StackSafe m d (s.takeBase master).1 := by
  obtain ⟨kstack, rest, outcome, head, stacked, value, _⟩ := threadCreate_ran grouped started leader pgdir ran
  obtain ⟨space', _⟩ := space.take head
  have count : m.free.length = rest.length + 1 := by rw [head, List.length_cons]
  generalize (s.takeBase master).1 = base at narrow stacked
  have failed : outcome ≠ .mapped → result.value = -1 := fun other => value.trans (if_neg other)
  by_cases high : KERNBASE ≤ base + 2 * PGSIZE
  · refine iff_of_true ?_ (.inl high)
    by_cases wraps : 2 ^ 32 ≤ base + 2 * PGSIZE
    · obtain ⟨ended, _, _, same⟩ := (threadStack_wraps space' narrow wraps).ok stacked
      refine .failed (failed ?_) same
      rw [show outcome = .noCopy from ended]
      decide
    · have above : KERNBASE ≤ uint (base + 2 * PGSIZE) := by
        unfold uint
        unfold KERNBASE PGSIZE at *
        omega
      obtain ⟨ended, rfl⟩ := (threadStack_refused above).yields.ok stacked
      refine .failed (failed ?_) fun _ _ => rfl
      rw [show outcome = .noMemory from ended]
      decide
  · have inside : base + 2 * PGSIZE < KERNBASE := Nat.lt_of_not_le high
    by_cases vacant : ∀ pn ∈ stackPages base, m.mapping d pn = none
    · rcases (threadStack_vacant space'.own space'.stock inside vacant).ok stacked with
        ⟨fits, ended, guarded⟩ | ⟨short, ended, reverted, _⟩
      · have fits' : pagesNeeded m d (stackPages base) ≤ rest.length := fits
        have made : result.value = 0 := by rw [value, (Prod.mk.inj ended).1]; rfl
        by_cases aligned : base % PGSIZE = 0
        · refine iff_of_true ?_ (.inr ⟨vacant, .inl aligned⟩)
          have leaves : LeavesPages { m with free := rest } d result m' :=
            guarded.leaves inside vacant aligned (Prod.mk.inj ended).2
          exact ⟨leaves.kept, leaves.new⟩
        · have uncovered : ¬LeavesPages { m with free := rest } d result m' := guarded.uncovered inside vacant aligned made
          refine iff_of_false (fun leaves => uncovered ⟨leaves.kept, leaves.new⟩) ?_
          rintro (above | ⟨_, safe | few⟩)
          · exact high above
          · exact aligned safe
          · omega
      · have short' : rest.length < pagesNeeded m d (stackPages base) := short
        refine iff_of_true ?_ (.inr ⟨vacant, .inr (by omega)⟩)
        refine .failed (failed ?_) fun pn user => reverted.mapping pn (user_inside user)
        rw [show outcome = .noMemory from ended]
        decide
    · refine iff_of_false ?_ ?_
      · intro leaves
        rw [not_forall] at vacant
        obtain ⟨pn, vacant⟩ := vacant
        rw [not_forall] at vacant
        obtain ⟨member, there⟩ := vacant
        obtain ⟨_, _, gone⟩ := (threadStack_taken space'.own space'.stock inside ⟨pn, member, there⟩).ok stacked
        obtain ⟨w, mapped⟩ := Option.ne_none_iff_exists'.mp there
        have still := leaves.kept pn (stackPages_user inside member) w mapped
        rw [gone pn member] at still
        cases still
      · rintro (above | ⟨safe, _⟩)
        · exact high above
        · exact vacant safe

end Pages

/-! ## Two pages -/

/-- The user cannot access the kernel's part of the image with two pages. -/
theorem twoPages_space : GroupSpace smallKernel twoPages 0x110 := by
  refine ⟨twoPages_own, ⟨by decide, by decide⟩, fun pn _ above w mapped => ?_⟩
  rcases twoPages_mapped mapped with ⟨rfl, _⟩ | ⟨rfl, _⟩
  · exact absurd above (by decide)
  · exact absurd above (by decide)

/-- The first process with a size of its own. -/
def firstSized (sz : Nat) : System :=
  (System.userinit 0x110).setProc 0 { (System.userinit 0x110).proc 0 with sz }

/-- Its groups. -/
theorem firstSized_grouped (sz : Nat) : Grouped (firstSized sz) := by
  have sorted : Sorted (System.userinit 0x110) (firstSized sz) := .setProc ⟨rfl, rfl, rfl, .inl rfl⟩ rfl
  exact (Grouped.userinit 0x110).congr sorted.groups

/-- The process is its own master and has the directory and the size. -/
theorem firstSized_first : ((firstSized 8192).proc 0).state.started = true ∧
    ((firstSized 8192).proc 0).master = some 0 ∧ ((firstSized 8192).proc 0).pgdir = some 0x110 ∧
    ((firstSized 8192).takeBase 0).1 = 8192 := by decide +kernel

/-- The call returns a value, and some page is mapped in a way afterwards. -/
def returnsWith (value : Int) (pn : Nat) (entry : Option Nat) :
    Except MemStop (ThreadResult × Memory) → Bool
  | .ok (result, m') => decide (result.value = value ∧ m'.mapping 0x110 pn = entry)
  | .error _ => false

/-- A run for which this holds returned. -/
theorem returnsWith_ok {value : Int} {pn : Nat} {entry : Option Nat} {ran : Except MemStop (ThreadResult × Memory)}
    (known : returnsWith value pn entry ran = true) :
    ∃ result m', ran = .ok (result, m') ∧ result.value = value ∧ m'.mapping 0x110 pn = entry := by
  cases ran with
  | error reason => contradiction
  | ok passed => exact ⟨passed.1, passed.2, rfl, of_decide_eq_true known⟩

/-- The pages stay as they were when the base of the stack is aligned. -/
theorem threadCreate_leaves_aligned : ∃ result m',
    Program.run (Memory.handler smallKernel) (Vm.threadCreate (firstSized 8192) 0 2 7) twoPages = .ok (result, m') ∧
      LeavesPages twoPages 0x110 result m' := by
  have returns : returnsWith 0 2 (some (pteWord (0x121 * PGSIZE) PTE_W))
      (Program.run (Memory.handler smallKernel) (Vm.threadCreate (firstSized 8192) 0 2 7) twoPages) = true := by
    decide +kernel
  obtain ⟨result, m', ran, _⟩ := returnsWith_ok returns
  obtain ⟨started, leader, pgdir, base⟩ := firstSized_first
  have narrow : ((firstSized 8192).takeBase 0).1 < 2 ^ 32 := by
    rw [base]
    decide
  have leaves := threadCreate_leaves_iff twoPages_space (firstSized_grouped 8192) started leader pgdir narrow ran
  rw [base] at leaves
  refine ⟨result, m', ran, leaves.mpr (.inr ⟨fun pn member => ?_, .inl (by decide)⟩)⟩
  rw [mem_stackPages] at member
  unfold PGSIZE at member
  rw [twoPages_mapping, if_neg (by omega), if_neg (by omega)]

/-- With 5000 bytes the second page, which was mapped for the user, is not any more. -/
theorem threadCreate_hides_page : twoPages.mapping 0x110 1 = some (pteWord (0x113 * PGSIZE) (PTE_W + PTE_U)) ∧
    ∃ result m', Program.run (Memory.handler smallKernel) (Vm.threadCreate (firstSized 5000) 0 2 7) twoPages =
        .ok (result, m') ∧ result.value = 0 ∧ m'.mapping 0x110 1 = some (pteWord (0x113 * PGSIZE) PTE_W) ∧
      ¬LeavesPages twoPages 0x110 result m' := by
  have returns : returnsWith 0 1 (some (pteWord (0x113 * PGSIZE) PTE_W))
      (Program.run (Memory.handler smallKernel) (Vm.threadCreate (firstSized 5000) 0 2 7) twoPages) = true := by
    decide +kernel
  have before : twoPages.mapping 0x110 1 = some (pteWord (0x113 * PGSIZE) (PTE_W + PTE_U)) := by decide
  obtain ⟨result, m', ran, value, after⟩ := returnsWith_ok returns
  refine ⟨before, result, m', ran, value, after, fun leaves => ?_⟩
  have kept := leaves.kept 1 (by decide) _ before
  rw [after] at kept
  exact absurd kept (by decide)

/-! ## Calls that fail -/

section Failures

variable {k : KernelImage} {m m' : Memory} {s : System} {p master : Lwp} {d base tid arg : Nat}

/-- What a stack that is not mapped leaves of a loose page. -/
theorem threadStack_fails (space : GroupSpace k m d) (narrow : base < 2 ^ 32) {g : Nat} (loose : Loose k m d g) :
    Yields k (Vm.threadStack d base arg) m fun r m' => r.1 ≠ .mapped →
      g ∉ m'.free ∧ ∀ i < NPDENTRIES, frameOf (m'.word d i) ≠ some g := by
  by_cases high : KERNBASE ≤ base + 2 * PGSIZE
  · by_cases wraps : 2 ^ 32 ≤ base + 2 * PGSIZE
    · refine (threadStack_wraps space narrow wraps).mono fun r m' left _ => ?_
      obtain ⟨_, free, dir, _⟩ := left
      rw [free, dir]
      exact ⟨loose.missing, loose.table⟩
    · have above : KERNBASE ≤ uint (base + 2 * PGSIZE) := by
        unfold uint
        unfold KERNBASE PGSIZE at *
        omega
      refine (threadStack_refused above).yields.mono fun r m' left _ => ?_
      rw [left.2]
      exact ⟨loose.missing, loose.table⟩
  · have inside : base + 2 * PGSIZE < KERNBASE := Nat.lt_of_not_le high
    by_cases vacant : ∀ pn ∈ stackPages base, m.mapping d pn = none
    · refine (threadStack_vacant space.own space.stock inside vacant).mono fun r m' left other => ?_
      rcases left with ⟨_, ended, _⟩ | ⟨_, _, _, kept⟩
      · exact absurd (congrArg Prod.fst ended) other
      · exact ⟨(kept g loose).missing, (kept g loose).table⟩
    · rw [not_forall] at vacant
      obtain ⟨pn, vacant⟩ := vacant
      rw [not_forall] at vacant
      obtain ⟨member, there⟩ := vacant
      refine (threadStack_taken space.own space.stock inside ⟨pn, member, there⟩).mono fun r m' left _ => ?_
      obtain ⟨_, kept, _⟩ := left
      exact ⟨(kept g loose).missing, (kept g loose).table⟩

/-- Nothing is left of a call that failed, except for page tables in the group's directory. -/
structure NoTrace (s : System) (m : Memory) (master : Lwp) (d : Nat) (s' : System) (m' : Memory) : Prop where
  /-- The free pages, with those that are page tables of the directory. -/
  free : ∃ left, (∀ t ∈ left, ∃ i < NPDENTRIES, frameOf (m'.word d i) = some t) ∧ (m'.free ++ left).Perm m.free
  sz : (s'.proc master).sz = (s.proc master).sz
  /-- The recycled stacks. -/
  stack : (s'.proc master).stack = (s.proc master).stack
  /-- The user mappings. -/
  mapping : ∀ pn < USERPAGES, m'.mapping d pn = m.mapping d pn
  /-- The slots that are not used. -/
  unused : (List.finRange NPROC).countP (fun q => (s'.proc q).state = .unused) =
    (List.finRange NPROC).countP fun q => (s.proc q).state = .unused
  mTable : s'.mTable = s.mTable

/-- `thread_create` never returns -1 without a trace: the page of the kernel stack is neither free again
nor a page table. -/
theorem threadCreate_leaves_trace (space : GroupSpace k m d) (grouped : Grouped s) (started : (s.proc p).state.started = true)
    (leader : (s.proc p).master = some master) (pgdir : (s.proc master).pgdir = some d)
    (narrow : (s.takeBase master).1 < 2 ^ 32) :
    ¬∃ result m', Program.run (Memory.handler k) (Vm.threadCreate s p tid arg) m = .ok (result, m') ∧
      result.value = -1 ∧ NoTrace s m master d result.system m' := by
  rintro ⟨result, m', ran, failed, traceless⟩
  obtain ⟨kstack, rest, outcome, head, stacked, value, _⟩ := threadCreate_ran grouped started leader pgdir ran
  obtain ⟨space', loose⟩ := space.take head
  have other : outcome ≠ .mapped := by
    rintro rfl
    rw [failed] at value
    exact absurd value (by decide)
  obtain ⟨missing, untabled⟩ := (threadStack_fails space' narrow loose).ok stacked other
  obtain ⟨left, tables, same⟩ := traceless.free
  have there : kstack ∈ m'.free ++ left := by
    rw [same.mem_iff, head]
    exact List.mem_cons_self
  rcases List.mem_append.mp there with free | table
  · exact missing free
  · obtain ⟨i, index, named⟩ := tables kstack table
    exact untabled i index named

end Failures

/-- The image with two pages and one free page. -/
def shortPages : Memory := { twoPages with free := [0x120] }

/-- It is the memory of a group. -/
theorem shortPages_space : GroupSpace smallKernel shortPages 0x110 := by
  have free : ∀ g, g ∈ shortPages.free → g ∈ twoPages.free := by
    intro g member
    rw [show g = 0x120 from List.mem_singleton.mp member]
    decide
  exact ⟨twoPages_own.congr free ⟨rfl, fun _ _ _ _ => rfl⟩, ⟨by decide, by decide⟩, twoPages_space.kernel⟩

/-- The call leaves a trace there. -/
theorem threadCreate_leaves_trace_short : ¬∃ result m', Program.run (Memory.handler smallKernel)
      (Vm.threadCreate (firstSized 8192) 0 2 7) shortPages = .ok (result, m') ∧ result.value = -1 ∧
    NoTrace (firstSized 8192) shortPages 0 0x110 result.system m' := by
  obtain ⟨started, leader, pgdir, base⟩ := firstSized_first
  have narrow : ((firstSized 8192).takeBase 0).1 < 2 ^ 32 := by
    rw [base]
    decide
  exact threadCreate_leaves_trace shortPages_space (firstSized_grouped 8192) started leader pgdir narrow

/-- One free page is enough for the kernel stack only: the call returns -1, the page is lost, and the size
has grown. -/
theorem threadCreate_loses_page : ∃ result m', Program.run (Memory.handler smallKernel)
      (Vm.threadCreate (firstSized 8192) 0 2 7) shortPages = .ok (result, m') ∧
    result.value = -1 ∧ m'.free = [] ∧ (result.system.proc 0).sz = 16384 ∧
      ¬NoTrace (firstSized 8192) shortPages 0 0x110 result.system m' := by
  have returns : (match Program.run (Memory.handler smallKernel) (Vm.threadCreate (firstSized 8192) 0 2 7)
      shortPages with
    | .ok (result, m') => decide (result.value = -1 ∧ m'.free = [] ∧ (result.system.proc 0).sz = 16384)
    | .error _ => false) = true := by decide +kernel
  generalize ran : Program.run (Memory.handler smallKernel) (Vm.threadCreate (firstSized 8192) 0 2 7)
    shortPages = outcome at returns
  cases outcome with
  | error reason => contradiction
  | ok passed =>
    obtain ⟨value, free, sz⟩ := of_decide_eq_true returns
    refine ⟨passed.1, passed.2, rfl, value, free, sz, fun traceless => ?_⟩
    have same := traceless.sz
    rw [sz] at same
    exact absurd same (by decide +kernel)

end Xv6
