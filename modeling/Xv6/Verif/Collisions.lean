import Mathlib.Data.Fintype.Card
import Xv6.Verif.Sharing

/-!
# Stacks and heap

Stacks of LWPs are cut from the end of memory and given back to a list of recycled bases, while
`sbrk` and `exec` move the end of memory with no regard to them. The stacks stay apart from each
other and from the rest of memory as long as the end never moves up through one of them.
-/

namespace Xv6

/-- The stacks that start at two bases share no page. -/
def Apart (base other : Nat) : Prop :=
  ∀ page, InRange base (base + 2 * PGSIZE) page → ¬InRange other (other + 2 * PGSIZE) page

/-- Apart in the other order. -/
theorem Apart.symm {base other : Nat} (apart : Apart base other) : Apart other base :=
  fun page inside overlap => apart page overlap inside

/-- The stack that starts at a base has no page in a range. -/
def aside (low high base : Nat) : Bool :=
  (pageRange base (base + 2 * PGSIZE)).all fun page => !decide (InRange low high page)

/-- Where the image ends that `exec` builds of segments with these ends. -/
def imageEnd (ends : List Nat) : Nat := PGROUNDUP (ends.foldl max 0) + 2 * PGSIZE

/-- The pages of a stack that is aside. -/
theorem aside_pages {low high base : Nat} (below : base + 2 * PGSIZE < KERNBASE) (clear : aside low high base = true)
    (page : Nat) (inside : InRange base (base + 2 * PGSIZE) page) : ¬InRange low high page := by
  have bound : base + PGSIZE ≤ 2 ^ 32 := by
    simp only [KERNBASE, PGSIZE] at *
    omega
  have known := List.all_eq_true.mp clear page ((mem_pageRange bound).mpr inside)
  rw [Bool.not_eq_true', decide_eq_false_iff_not] at known
  exact known

/-- The size that the loop over the segments returns. -/
theorem loadSegments_size {ends : List Nat} {sz sz' : Nat} {pages rest : PageMap}
    (loaded : Space.loadSegments ends sz pages = some (sz', rest)) (positive : sz' ≠ 0) : sz' = ends.foldl max sz := by
  induction ends generalizing sz pages with
  | nil =>
    cases loaded
    rfl
  | cons last ends ih =>
    unfold Space.loadSegments at loaded
    split at loaded
    · cases loaded
    · rename_i next pages' allocated
      split at loaded
      · cases loaded
        exact absurd rfl positive
      · rename_i nonzero
        have size : next = max sz last := by
          cases allocuvm_allocates allocated with
          | refused _ => exact absurd rfl nonzero
          | kept smaller _ => omega
          | mapped _ larger _ _ _ => omega
          | exhausted _ _ _ _ _ => exact absurd rfl nonzero
        rw [size] at loaded
        exact ih loaded

/-- The size of the image that `exec` builds. -/
theorem loadImage_size {ends : List Nat} {sz : Nat} {pages : PageMap}
    (loaded : Space.loadImage ends = some (sz, pages)) (positive : sz ≠ 0) : sz = imageEnd ends := by
  unfold Space.loadImage at loaded
  unfold imageEnd
  split at loaded
  · cases loaded
  · rename_i last pages' segments
    split at loaded
    · cases loaded
      exact absurd rfl positive
    · rename_i image
      have last' : last = ends.foldl max 0 := by
        by_cases zero : last = 0
        · have empty : ends = [] := by
            by_contra some
            exact image ⟨zero, some⟩
          rw [zero, empty]
          rfl
        · exact loadSegments_size segments zero
      rw [← last']
      split at loaded
      · cases loaded
      · cases loaded
        exact absurd rfl positive
      · rename_i size pages'' _ allocated
        cases loaded
        exact ((stack_allocated allocated).resolve_left positive).1

namespace GroupMemory

/-- No stack, of an LWP or recycled, has a page in the range. -/
def clearRange (g : GroupMemory) (low high : Nat) : Bool :=
  g.free.all (aside low high) && (List.finRange NPROC).all fun q =>
    match g.threads q with
    | some stack => aside low high stack.base
    | none => true

/-- The end of memory does not move up through a stack, and an image is replaced only by a master
that is alone, by one below the recycled stacks. -/
def keepsApart (g : GroupMemory) : MemoryAction → Bool
  | .rest => true
  | .collect _ => true
  | .create _ =>
    match g.free with
    | [] => decide (KERNBASE ≤ g.sz + 2 * PGSIZE) || g.clearRange g.sz (g.sz + 2 * PGSIZE)
    | _ :: _ => true
  | .sbrk n _ =>
    let newsz := uint (g.sz + n)
    decide (n ≤ 0 ∨ newsz ≤ g.sz ∨ KERNBASE ≤ newsz) || g.clearRange g.sz newsz
  | .exec ends => ((List.finRange NPROC).all fun q => (g.threads q).isNone) && g.clearRange 0 (imageEnd ends)

/-- The LWPs that have a stack. -/
def occupied (threads : Lwp → Option ThreadStack) : Finset Lwp := Finset.univ.filter fun q => (threads q).isSome

/-- What holds of the stacks of a group. -/
structure Separate (g : GroupMemory) : Prop where
  /-- Stacks are below the kernel. -/
  low : ∀ q stack, g.threads q = some stack → stack.base + 2 * PGSIZE < KERNBASE
  /-- So are recycled ones. -/
  freeLow : ∀ base ∈ g.free, base + 2 * PGSIZE < KERNBASE
  /-- The size of an LWP is the end of its stack. -/
  ends : ∀ q stack, g.threads q = some stack → stack.sz = stack.base + 2 * PGSIZE
  /-- Stacks of two LWPs are apart. -/
  threads : ∀ q r stack stack', q ≠ r → g.threads q = some stack → g.threads r = some stack' →
    Apart stack.base stack'.base
  recycled : g.free.Pairwise Apart
  /-- A stack and a recycled one are apart. -/
  mixed : ∀ q stack, g.threads q = some stack → ∀ base ∈ g.free, Apart stack.base base
  /-- Recycled stacks are not mapped. -/
  absent : ∀ base ∈ g.free, ∀ page, InRange base (base + 2 * PGSIZE) page → g.pages page = none
  /-- What is mapped at or above the end of memory is a stack. -/
  bounded : ∀ page, g.sz ≤ page * PGSIZE → g.pages page ≠ none →
    ∃ q stack, g.threads q = some stack ∧ InRange stack.base (stack.base + 2 * PGSIZE) page
  /-- There are no more stacks than slots. -/
  count : (occupied g.threads).card + g.free.length ≤ NPROC

variable {g g' : GroupMemory} {threads : Lwp → Option ThreadStack} {low high : Nat} {q : Lwp} {room : Nat}

/-- What a clear range is clear of. -/
theorem Separate.clear (separate : Separate g) (clear : g.clearRange low high = true) :
    (∀ base ∈ g.free, ∀ page, InRange base (base + 2 * PGSIZE) page → ¬InRange low high page) ∧
      ∀ q stack, g.threads q = some stack → ∀ page, InRange stack.base (stack.base + 2 * PGSIZE) page →
        ¬InRange low high page := by
  unfold clearRange at clear
  rw [Bool.and_eq_true, List.all_eq_true, List.all_eq_true] at clear
  refine ⟨fun base member => aside_pages (separate.freeLow base member) (clear.1 base member), fun q stack held => ?_⟩
  have known := clear.2 q (List.mem_finRange q)
  rw [held] at known
  exact aside_pages (separate.low q stack held) known

/-- No page at or above the end of memory is mapped in a clear range. -/
theorem Separate.vacant (separate : Separate g) (clear : g.clearRange g.sz high = true) (page : Nat)
    (inside : InRange g.sz high page) : g.pages page = none := by
  by_contra present
  obtain ⟨q, stack, held, own⟩ := separate.bounded page inside.1 present
  exact (separate.clear clear).2 q stack held page own inside

/-- Fewer pages, or a larger size. -/
theorem Separate.shrink (separate : Separate g) {sz : Nat} {pages : PageMap}
    (fewer : ∀ page, pages page ≠ none → g.pages page ≠ none)
    (larger : ∀ page, sz ≤ page * PGSIZE → pages page ≠ none → g.sz ≤ page * PGSIZE) : Separate { g with sz, pages } where
  low := separate.low
  freeLow := separate.freeLow
  ends := separate.ends
  threads := separate.threads
  recycled := separate.recycled
  mixed := separate.mixed
  absent base member page inside := by
    by_contra present
    exact fewer page present (separate.absent base member page inside)
  bounded page above present := separate.bounded page (larger page above present) (fewer page present)
  count := separate.count

/-- Taking a recycled base away. -/
theorem Separate.forget (separate : Separate g) {base : Nat} {rest : List Nat} (held : g.free = base :: rest) :
    Separate { g with free := rest } where
  low := separate.low
  freeLow other member := separate.freeLow other (by rw [held]; exact List.mem_cons_of_mem base member)
  ends := separate.ends
  threads := separate.threads
  recycled := by
    have recycled := separate.recycled
    rw [held] at recycled
    exact (List.pairwise_cons.mp recycled).2
  mixed q stack own other member := separate.mixed q stack own other (by rw [held]; exact List.mem_cons_of_mem base member)
  absent other member := separate.absent other (by rw [held]; exact List.mem_cons_of_mem base member)
  bounded := separate.bounded
  count := by
    have count := separate.count
    rw [held, List.length_cons] at count
    exact Nat.le_of_succ_le count

/-- A vacant slot gets a stack. -/
theorem occupied_place (new : ThreadStack) (vacant : threads q = none) :
    (occupied (Function.update threads q (some new))).card = (occupied threads).card + 1 := by
  have inserted : occupied (Function.update threads q (some new)) = insert q (occupied threads) := by
    ext r
    unfold occupied
    rw [Finset.mem_insert, Finset.mem_filter, Finset.mem_filter]
    by_cases here : r = q
    · simp [here]
    · rw [Function.update_of_ne here]
      simp [here]
  have missing : q ∉ occupied threads := by
    unfold occupied
    rw [Finset.mem_filter, vacant]
    simp
  rw [inserted, Finset.card_insert_of_notMem missing]

/-- A stack is given up. -/
theorem occupied_clear {stack : ThreadStack} (held : threads q = some stack) :
    (occupied (Function.update threads q none)).card + 1 = (occupied threads).card := by
  have vacant : Function.update threads q none q = none := Function.update_self q none threads
  have again := occupied_place stack vacant
  rw [Function.update_idem, ← held, Function.update_eq_self] at again
  exact again.symm

/-- A stack that only stops being started. -/
theorem occupied_same (new : ThreadStack) {stack : ThreadStack} (held : threads q = some stack) :
    (occupied (Function.update threads q (some new))).card = (occupied threads).card := by
  have vacant : Function.update threads q none q = none := Function.update_self q none threads
  have again := occupied_place new vacant
  rw [Function.update_idem] at again
  rw [again]
  exact occupied_clear held

/-- A new LWP gets a stack that is apart from all others. -/
theorem Separate.place (separate : Separate g) {np : Lwp} {base : Nat} {pages : PageMap} (vacant : g.threads np = none)
    (bound : base + 2 * PGSIZE < KERNBASE) (lwps : ∀ q stack, g.threads q = some stack → Apart stack.base base)
    (free : ∀ other ∈ g.free, Apart base other) (count : (occupied g.threads).card + 1 + g.free.length ≤ NPROC)
    (mapped : ∀ page, pages page ≠ none → InRange base (base + 2 * PGSIZE) page ∨ g.pages page ≠ none) :
    Separate { g with threads := Function.update g.threads np (some ⟨base, base + 2 * PGSIZE, true⟩), pages } := by
  have cases : ∀ q stack, Function.update g.threads np (some ⟨base, base + 2 * PGSIZE, true⟩) q = some stack →
      q = np ∧ stack = ⟨base, base + 2 * PGSIZE, true⟩ ∨ q ≠ np ∧ g.threads q = some stack := by
    intro q stack held
    by_cases here : q = np
    · rw [here, Function.update_self] at held
      exact .inl ⟨here, (Option.some.inj held).symm⟩
    · rw [Function.update_of_ne here] at held
      exact .inr ⟨here, held⟩
  refine ⟨fun q stack held => ?_, separate.freeLow, fun q stack held => ?_, fun q r stack stack' other held held' => ?_,
    separate.recycled, fun q stack held other member => ?_, fun other member page inside => ?_, fun page above present => ?_, ?_⟩
  · rcases cases q stack held with ⟨_, rfl⟩ | ⟨_, old⟩
    · exact bound
    · exact separate.low q stack old
  · rcases cases q stack held with ⟨_, rfl⟩ | ⟨_, old⟩
    · rfl
    · exact separate.ends q stack old
  · rcases cases q stack held with ⟨here, rfl⟩ | ⟨_, old⟩
    · rcases cases r stack' held' with ⟨there, rfl⟩ | ⟨_, old'⟩
      · exact absurd (here.trans there.symm) other
      · exact (lwps r stack' old').symm
    · rcases cases r stack' held' with ⟨_, rfl⟩ | ⟨_, old'⟩
      · exact lwps q stack old
      · exact separate.threads q r stack stack' other old old'
  · rcases cases q stack held with ⟨_, rfl⟩ | ⟨_, old⟩
    · exact free other member
    · exact separate.mixed q stack old other member
  · by_contra present
    rcases mapped page present with new | old
    · exact free other member page new inside
    · exact old (separate.absent other member page inside)
  · rcases mapped page present with new | old
    · exact ⟨np, _, Function.update_self _ _ _, new⟩
    · obtain ⟨q, stack, held, own⟩ := separate.bounded page above old
      have other : q ≠ np := by
        rintro rfl
        rw [vacant] at held
        contradiction
      exact ⟨q, stack, (Function.update_of_ne other _ _).trans held, own⟩
  · show (occupied (Function.update g.threads np _)).card + g.free.length ≤ NPROC
    rw [occupied_place _ vacant]
    exact count

/-- `thread_create`. -/
theorem Separate.create (separate : Separate g) {np : Lwp} {pages : PageMap} (met : g.keepsApart (.create room) = true)
    (vacant : g.threads np = none)
    (allocated : allocuvm g.pages g.nextBase (g.nextBase + 2 * PGSIZE) room = some (g.nextBase + 2 * PGSIZE, pages)) :
    Separate { g.takeBase with
      threads := Function.update g.threads np (some ⟨g.nextBase, g.nextBase + 2 * PGSIZE, true⟩)
      pages := clearpteu pages g.nextBase } := by
  obtain ⟨_, enough, _, added⟩ := allocuvm_grown allocated (by simp only [PGSIZE]; omega)
  have bound := fits_low enough
  have mapped : ∀ page, clearpteu pages g.nextBase page ≠ none →
      InRange g.nextBase (g.nextBase + 2 * PGSIZE) page ∨ g.pages page ≠ none := by
    intro page present
    have kept := (clearpteu_none pages g.nextBase page).not.mp present
    rw [added page] at kept
    split at kept
    · rename_i inside
      exact .inl inside
    · exact .inr kept
  cases held : g.free with
  | nil =>
    obtain ⟨base, based⟩ := next_fresh held
    rw [base] at bound mapped ⊢
    rw [based]
    unfold keepsApart at met
    simp only [held, Bool.or_eq_true, decide_eq_true_eq] at met
    have clear := met.resolve_left (Nat.not_le.mpr bound)
    have grown : Separate { g with sz := g.sz + 2 * PGSIZE } :=
      separate.shrink (fun _ present => present) fun page above _ => Nat.le_trans (Nat.le_add_right _ _) above
    refine grown.place vacant bound ((separate.clear clear).2) (fun other member => ?_) ?_ mapped
    · rw [held] at member
      exact absurd member List.not_mem_nil
    · have spare : (occupied g.threads).card + 1 ≤ NPROC := by
        rw [← occupied_place ⟨0, 0, true⟩ vacant]
        exact Finset.card_le_univ _ |>.trans_eq (Fintype.card_fin NPROC)
      rw [held]
      exact spare
  | cons base rest =>
    obtain ⟨next, based⟩ := next_recycled held
    rw [next] at bound mapped ⊢
    rw [based]
    have first : base ∈ g.free := by
      rw [held]
      exact List.mem_cons_self
    have recycled := separate.recycled
    rw [held] at recycled
    refine (separate.forget held).place vacant bound (fun q stack own => separate.mixed q stack own base first)
      (List.pairwise_cons.mp recycled).1 ?_ mapped
    have count := separate.count
    rw [held, List.length_cons] at count
    show (occupied g.threads).card + 1 + rest.length ≤ NPROC
    omega

/-- `thread_create` without memory for the stack. -/
theorem Separate.refuse (separate : Separate g) {pages : PageMap}
    (allocated : allocuvm g.pages g.nextBase (g.nextBase + 2 * PGSIZE) room = some (0, pages)) :
    Separate { g.takeBase with pages } := by
  obtain ⟨_, result⟩ := allocuvm_failed allocated (by simp only [PGSIZE]; omega)
  have fewer : ∀ page, pages page ≠ none → g.pages page ≠ none := by
    intro page present
    rcases result with ⟨_, rfl⟩ | ⟨_, removed⟩
    · exact present
    · rw [removed page] at present
      split at present
      · exact absurd rfl present
      · exact present
  cases held : g.free with
  | nil =>
    rw [(next_fresh held).2]
    exact separate.shrink fewer fun page above _ => Nat.le_trans (Nat.le_add_right _ _) above
  | cons base rest =>
    rw [(next_recycled held).2]
    exact (separate.forget held).shrink fewer fun page above _ => above

/-- An LWP exits. -/
theorem Separate.exit (separate : Separate g) {stack : ThreadStack} (held : g.threads q = some stack) :
    Separate { g with threads := Function.update g.threads q (some { stack with started := false }) } := by
  have same : ∀ r other, Function.update g.threads q (some { stack with started := false }) r = some other →
      ∃ old, g.threads r = some old ∧ old.base = other.base ∧ old.sz = other.sz := by
    intro r other found
    by_cases here : r = q
    · rw [here, Function.update_self] at found
      cases found
      exact ⟨stack, here ▸ held, rfl, rfl⟩
    · rw [Function.update_of_ne here] at found
      exact ⟨other, found, rfl, rfl⟩
  refine ⟨fun r other found => ?_, separate.freeLow, fun r other found => ?_, fun r r' other other' apart found found' => ?_,
    separate.recycled, fun r other found => ?_, separate.absent, fun page above present => ?_, ?_⟩
  · obtain ⟨old, was, base, _⟩ := same r other found
    rw [← base]
    exact separate.low r old was
  · obtain ⟨old, was, base, size⟩ := same r other found
    rw [← base, ← size]
    exact separate.ends r old was
  · obtain ⟨old, was, base, _⟩ := same r other found
    obtain ⟨old', was', base', _⟩ := same r' other' found'
    rw [← base, ← base']
    exact separate.threads r r' old old' apart was was'
  · obtain ⟨old, was, base, _⟩ := same r other found
    rw [← base]
    exact separate.mixed r old was
  · obtain ⟨r, old, was, own⟩ := separate.bounded page above present
    by_cases here : r = q
    · rw [here, held] at was
      cases was
      exact ⟨q, _, Function.update_self _ _ _, own⟩
    · exact ⟨r, old, (Function.update_of_ne here _ _).trans was, own⟩
  · show (occupied (Function.update g.threads q _)).card + g.free.length ≤ NPROC
    rw [occupied_same _ held]
    exact separate.count

/-- `thread_join` of an LWP. -/
theorem Separate.collect (separate : Separate g) {stack : ThreadStack} {sz : Nat} {pages : PageMap}
    (held : g.threads q = some stack) (freed : deallocuvm g.pages stack.sz stack.base = some (sz, pages)) :
    Separate { g with free := stack.base :: g.free, threads := Function.update g.threads q none, pages } := by
  have removed := deallocuvm_pages freed
  rw [separate.ends q stack held] at removed
  have old : ∀ r other, Function.update g.threads q none r = some other → r ≠ q ∧ g.threads r = some other := by
    intro r other found
    by_cases here : r = q
    · rw [here, Function.update_self] at found
      contradiction
    · rw [Function.update_of_ne here] at found
      exact ⟨here, found⟩
  have fewer : ∀ page, pages page ≠ none → ¬InRange stack.base (stack.base + 2 * PGSIZE) page ∧ g.pages page ≠ none := by
    intro page present
    rw [removed page] at present
    split at present
    · exact absurd rfl present
    · rename_i outside
      exact ⟨outside, present⟩
  refine ⟨fun r other found => separate.low r other (old r other found).2, fun base member => ?_,
    fun r other found => separate.ends r other (old r other found).2,
    fun r r' other other' apart found found' =>
      separate.threads r r' other other' apart (old r other found).2 (old r' other' found').2,
    List.pairwise_cons.mpr ⟨separate.mixed q stack held, separate.recycled⟩, fun r other found base member => ?_,
    fun base member page inside => ?_, fun page above present => ?_, ?_⟩
  · rcases List.mem_cons.mp member with rfl | before
    · exact separate.low q stack held
    · exact separate.freeLow base before
  · obtain ⟨apart, was⟩ := old r other found
    rcases List.mem_cons.mp member with rfl | before
    · exact separate.threads r q other stack apart was held
    · exact separate.mixed r other was base before
  · by_contra present
    obtain ⟨outside, was⟩ := fewer page present
    rcases List.mem_cons.mp member with rfl | before
    · exact outside inside
    · exact was (separate.absent base before page inside)
  · obtain ⟨outside, was⟩ := fewer page present
    obtain ⟨r, other, found, own⟩ := separate.bounded page above was
    have apart : r ≠ q := by
      rintro rfl
      rw [held] at found
      cases found
      exact outside own
    exact ⟨r, other, (Function.update_of_ne apart _ _).trans found, own⟩
  · show (occupied (Function.update g.threads q none)).card + (g.free.length + 1) ≤ NPROC
    have given := occupied_clear held
    have count := separate.count
    omega

/-- More memory in a clear range. -/
theorem Separate.extend (separate : Separate g) {newsz : Nat} {pages : PageMap} (larger : g.sz ≤ newsz)
    (clear : newsz ≤ g.sz ∨ g.clearRange g.sz newsz = true)
    (added : ∀ page, pages page = if InRange g.sz newsz page then some true else g.pages page) :
    Separate { g with sz := newsz, pages } := by
  refine ⟨separate.low, separate.freeLow, separate.ends, separate.threads, separate.recycled, separate.mixed,
    fun base member page inside => ?_, fun page above present => ?_, separate.count⟩
  · have outside : ¬InRange g.sz newsz page := by
      rcases clear with small | clear
      · intro range
        exact Nat.not_lt.mpr (Nat.le_trans small range.1) range.2
      · exact (separate.clear clear).1 base member page inside
    show pages page = none
    rw [added page, if_neg outside]
    exact separate.absent base member page inside
  · change pages page ≠ none at present
    rw [added page, if_neg (fun range => Nat.not_lt.mpr above range.2)] at present
    exact separate.bounded page (Nat.le_trans larger above) present

/-- `sbrk`, whatever it returns. -/
theorem Separate.grow (separate : Separate g) {n : Int} {sz : Nat} {pages : PageMap}
    (met : g.keepsApart (.sbrk n room) = true) (grown : g.growth n room = some (sz, pages)) :
    (n ≠ 0 ∧ sz = 0 → Separate { g with pages }) ∧ (¬(n ≠ 0 ∧ sz = 0) → Separate { g with sz, pages }) := by
  unfold growth at grown
  unfold keepsApart at met
  simp only [Bool.or_eq_true, decide_eq_true_eq] at met
  by_cases positive : 0 < n
  · rw [if_pos positive] at grown
    cases allocuvm_allocates grown with
    | refused _ => exact ⟨fun _ => separate, fun stored => absurd ⟨by omega, rfl⟩ stored⟩
    | kept _ _ => exact ⟨fun _ => separate, fun _ => separate⟩
    | mapped _ larger enough _ added =>
      have clear : uint (g.sz + n) ≤ g.sz ∨ g.clearRange g.sz (uint (g.sz + n)) = true := by
        rcases met with (nonpositive | small | high) | clear
        · omega
        · exact .inl small
        · exact absurd high (Nat.not_le.mpr (fits_low enough))
        · exact .inr clear
      have extended := separate.extend larger clear added
      refine ⟨fun failed => ?_, fun _ => extended⟩
      -- A size of 0 was 0 before.
      have same : g.sz = uint (g.sz + n) := by omega
      rw [← same] at extended
      exact extended
    | exhausted _ larger low short removed =>
      refine ⟨fun _ => separate.shrink (fun page present => ?_) fun page above _ => above,
        fun stored => absurd ⟨by omega, rfl⟩ stored⟩
      rw [removed page] at present
      split at present
      · exact absurd rfl present
      · exact present
  · rw [if_neg positive] at grown
    by_cases negative : n < 0
    · rw [if_pos negative] at grown
      have size := deallocuvm_size grown
      have removed := deallocuvm_pages grown
      have fewer : ∀ page, pages page ≠ none → ¬InRange (uint (g.sz + n)) g.sz page ∧ g.pages page ≠ none := by
        intro page present
        rw [removed page] at present
        split at present
        · exact absurd rfl present
        · rename_i outside
          exact ⟨outside, present⟩
      refine ⟨fun _ => separate.shrink (fun page present => (fewer page present).2) fun page above _ => above,
        fun _ => separate.shrink (fun page present => (fewer page present).2) fun page above present => ?_⟩
      by_contra below
      refine (fewer page present).1 ⟨?_, Nat.lt_of_not_le below⟩
      omega
    · rw [if_neg negative] at grown
      cases grown
      exact ⟨fun _ => separate, fun _ => separate⟩

/-- `exec` by a master that is alone. -/
theorem Separate.replace (separate : Separate g) {ends : List Nat} {sz : Nat} {pages : PageMap}
    (met : g.keepsApart (.exec ends) = true) (positive : sz ≠ 0) (image : Space.loadImage ends = some (sz, pages)) :
    Separate { g with sz, pages } := by
  unfold keepsApart at met
  rw [Bool.and_eq_true, ← loadImage_size image positive] at met
  have bounded : Bounded pages sz := by
    obtain ⟨sz', pages', loaded, known⟩ := loadImage_bounded ends
    rw [image] at loaded
    cases loaded
    exact (known positive).1
  refine ⟨separate.low, separate.freeLow, separate.ends, separate.threads, separate.recycled, separate.mixed,
    fun base member page inside => bounded page ?_, fun page above present => absurd (bounded page above) present,
    separate.count⟩
  have outside := (separate.clear met.2).1 base member page inside
  by_contra below
  exact outside ⟨Nat.zero_le _, Nat.lt_of_not_le below⟩

/-- Every change that meets the condition keeps the stacks apart. -/
theorem Separate.changes (separate : Separate g) {action : MemoryAction} (met : g.keepsApart action = true)
    (changes : g.Changes action g') : Separate g' := by
  cases changes with
  | rested => exact separate
  | exited q stack held => exact separate.exit held
  | created room np pages vacant allocated => exact separate.create met vacant allocated
  | uncreated room pages allocated => exact separate.refuse allocated
  | collected q stack sz pages held freed => exact separate.collect held freed
  | grown n room sz pages grown stored => exact (separate.grow met grown).2 stored
  | ungrown n room pages grown nonzero => exact (separate.grow met grown).1 ⟨nonzero, rfl⟩
  | replaced ends sz pages positive image => exact separate.replace met positive image
  | unloaded ends => exact separate

/-- What the step maps is not mapped. -/
theorem Separate.fresh (separate : Separate g) (met : g.keepsApart (.create room) = true) :
    allocuvm g.pages g.nextBase (g.nextBase + 2 * PGSIZE) room ≠ none := by
  cases held : g.free with
  | nil =>
    rw [(next_fresh held).1]
    unfold keepsApart at met
    simp only [held, Bool.or_eq_true, decide_eq_true_eq] at met
    rcases met with high | clear
    · unfold allocuvm
      rw [if_pos high]
      exact Option.some_ne_none _
    · exact allocuvm_returns room (separate.vacant clear)
  | cons base rest =>
    rw [(next_recycled held).1]
    refine allocuvm_returns room (separate.absent base ?_)
    rw [held]
    exact List.mem_cons_self

/-- What `sbrk` maps is not mapped. -/
theorem Separate.growable (separate : Separate g) {n : Int} (met : g.keepsApart (.sbrk n room) = true) (positive : 0 < n) :
    allocuvm g.pages g.sz (uint (g.sz + n)) room ≠ none := by
  unfold keepsApart at met
  simp only [Bool.or_eq_true, decide_eq_true_eq] at met
  rcases met with (nonpositive | small | high) | clear
  · omega
  · refine allocuvm_returns room fun page inside => ?_
    exact absurd (Nat.lt_of_le_of_lt inside.1 inside.2) (Nat.not_lt.mpr small)
  · unfold allocuvm
    rw [if_pos high]
    exact Option.some_ne_none _
  · exact allocuvm_returns room (separate.vacant clear)

end GroupMemory

/-! ## Runs -/

/-- The step maps a page that is present: the panic "remap". -/
def Space.Remaps (x : Space) (m : Lwp) : SpaceEvent → Prop
  | .create _ room => allocuvm (x.directory m) (x.sys.nextBase m) (x.sys.nextBase m + 2 * PGSIZE) room = none
  | .sbrk _ n room => 0 < n ∧ allocuvm (x.directory m) (x.sys.proc m).sz (uint ((x.sys.proc m).sz + n)) room = none
  | .exec _ _ ends => Space.loadImage ends = none
  | _ => False

/-- An LWP of the group of `m` other than `m`, until it is collected. -/
def Space.IsThread (x : Space) (m q : Lwp) : Prop :=
  q ≠ m ∧ (x.sys.proc q).state ≠ .unused ∧ (x.sys.proc q).master = some m

/-- In every run of a group in which the end of memory does not move up through a stack, and an
image is replaced by a master alone, by one below the recycled stacks: the stacks of LWPs and the
recycled stacks share no page, no page of a recycled stack is present, there are no more recycled
stacks than `NPROC`, and the next such step does not panic. -/
theorem stacks_never_collide {x y : Space} {m : Lwp} {events : List SpaceEvent} (single : SingleLwp x.sys m)
    (image : Bounded (x.directory m) (x.sys.proc m).sz) (fresh : (x.sys.proc m).stack = [])
    (run : Run (GroupStep m GroupMemory.keepsApart) x events y) :
    (∀ q r, q ≠ r → y.IsThread m q → y.IsThread m r → Apart (y.sys.proc q).base (y.sys.proc r).base) ∧
    (y.sys.proc m).stack.Pairwise Apart ∧
    (∀ q, y.IsThread m q → ∀ base ∈ (y.sys.proc m).stack, Apart (y.sys.proc q).base base) ∧
    (∀ base ∈ (y.sys.proc m).stack, ∀ page, InRange base (base + 2 * PGSIZE) page → y.directory m page = none) ∧
    (y.sys.proc m).stack.length ≤ NPROC ∧
    ∀ event, GroupMemory.keepsApart (y.memory m) (y.action event) = true → ¬y.Remaps m event := by
  have start : (x.memory m).Separate := by
    have free : (x.memory m).free = [] := fresh
    have none : ∀ base ∈ (x.memory m).free, False := by
      intro base member
      rw [free] at member
      exact List.not_mem_nil member
    refine ⟨fun q stack held => ?_, fun base member => (none base member).elim, fun q stack held => ?_,
      fun q r stack _ _ held => ?_, ?_, fun q stack held => ?_, fun base member => (none base member).elim,
      fun page above present => absurd (image page above) present, ?_⟩
    · rw [single.threads q] at held
      cases held
    · rw [single.threads q] at held
      cases held
    · rw [single.threads q] at held
      cases held
    · rw [free]
      exact .nil
    · rw [single.threads q] at held
      cases held
    · rw [free, List.length_nil, Nat.add_zero]
      exact Finset.card_le_univ _ |>.trans_eq (Fintype.card_fin NPROC)
  have alone : ∀ (g : GroupMemory) ends, g.keepsApart (.exec ends) = true → ∀ q, g.threads q = none := by
    intro g ends met q
    unfold GroupMemory.keepsApart at met
    rw [Bool.and_eq_true, List.all_eq_true] at met
    exact Option.isNone_iff_eq_none.mp (met.1 q (List.mem_finRange q))
  obtain ⟨_, _, separate⟩ := GroupOf.run GroupMemory.Separate alone
    (fun g action g' separate met changes => separate.changes met changes) single start run
  have thread : ∀ q, y.IsThread m q → (y.memory m).threads q =
      some ⟨(y.sys.proc q).base, (y.sys.proc q).sz, (y.sys.proc q).state.started⟩ := by
    rintro q ⟨other, taken, points⟩
    rw [y.memory_other other]
    exact Proc.threadStack_member taken points
  refine ⟨fun q r other first second => separate.threads q r _ _ other (thread q first) (thread r second),
    separate.recycled, fun q lwp => separate.mixed q _ (thread q lwp), separate.absent, ?_, fun event met => ?_⟩
  · exact Nat.le_trans (Nat.le_add_left _ _) separate.count
  · cases event with
    | create p room => exact separate.fresh met
    | sbrk p n room => exact fun panics => separate.growable met panics.1 panics.2
    | exec p pgdir ends =>
      obtain ⟨sz, pages, loaded, _⟩ := loadImage_bounded ends
      intro panics
      rw [Space.Remaps, loaded] at panics
      cases panics
    | _ => exact id

/-- The first process creates an LWP that exits and is collected, and then another one: the stack
is recycled, and `sbrk` does not panic. -/
theorem stacks_never_collide_first :
    ∃ y, Run (GroupStep 0 GroupMemory.keepsApart) firstSpace
        [.run 0, .choose 0, .create 0 2, .run 1, .threadExit 1 0, .join 0 2, .choose 0, .create 0 2] y ∧
      (y.sys.proc 1).base = PGSIZE ∧ (y.sys.proc 0).stack.length ≤ NPROC ∧ ¬y.Remaps 0 (.sbrk 0 PGSIZE 1) := by
  have outcome : ((Run.exec (Space.groupStep 0 GroupMemory.keepsApart)
      [.run 0, .choose 0, .create 0 2, .run 1, .threadExit 1 0, .join 0 2, .choose 0, .create 0 2] firstSpace).map fun y =>
        ((y.sys.proc 1).base, GroupMemory.keepsApart (y.memory 0) (y.action (.sbrk 0 PGSIZE 1)))) = some (PGSIZE, true) := by
    decide +kernel
  obtain ⟨y, executed, summary⟩ := Option.map_eq_some_iff.mp outcome
  simp only [Prod.mk.injEq] at summary
  have size : (firstSpace.sys.proc 0).sz = PGSIZE := by decide +kernel
  have image : Bounded (firstSpace.directory 0) (firstSpace.sys.proc 0).sz := by
    intro page above
    rw [size] at above
    have positive : ¬page = 0 := by
      rintro rfl
      simp only [PGSIZE] at above
      omega
    have home : (firstSpace.sys.proc 0).pgdir = some 0 := by decide +kernel
    rw [Space.directory_of home]
    exact if_neg fun first => positive first.2
  have fresh : (firstSpace.sys.proc 0).stack = [] := by decide +kernel
  have run : Run (GroupStep 0 GroupMemory.keepsApart) firstSpace
      [.run 0, .choose 0, .create 0 2, .run 1, .threadExit 1 0, .join 0 2, .choose 0, .create 0 2] y := Run.of_exec executed
  obtain ⟨_, _, _, _, count, next⟩ := stacks_never_collide firstSpace_single image fresh run
  exact ⟨y, run, summary.1, count, next _ summary.2⟩

/-- The first process creates an LWP that exits and is collected, and shrinks and grows its memory
by two pages: the heap is mapped over the recycled stack, and the next `thread_create` panics. -/
theorem heap_grows_over_recycled_stack :
    ∃ y, Run (GroupStep 0 fun _ _ => true) firstSpace
        [.run 0, .choose 0, .create 0 2, .run 1, .threadExit 1 0, .join 0 2, .sbrk 0 (-8192) 0, .sbrk 0 8192 2, .choose 0] y ∧
      (y.sys.proc 0).stack = [PGSIZE] ∧ y.directory 0 1 = some true ∧ y.Remaps 0 (.create 0 2) := by
  have outcome : ((Run.exec (Space.groupStep 0 fun _ _ => true) [.run 0, .choose 0, .create 0 2, .run 1, .threadExit 1 0,
      .join 0 2, .sbrk 0 (-8192) 0, .sbrk 0 8192 2, .choose 0] firstSpace).map fun y =>
        ((y.sys.proc 0).stack, y.directory 0 1,
          (allocuvm (y.directory 0) (y.sys.nextBase 0) (y.sys.nextBase 0 + 2 * PGSIZE) 2).isSome)) =
      some ([PGSIZE], some true, false) := by
    decide +kernel
  obtain ⟨y, executed, summary⟩ := Option.map_eq_some_iff.mp outcome
  simp only [Prod.mk.injEq] at summary
  exact ⟨y, Run.of_exec executed, summary.1, summary.2.1,
    Option.not_isSome_iff_eq_none.mp (Bool.eq_false_iff.mp summary.2.2)⟩

end Xv6
