import Xv6.Space

/-!
# Pages

What `deallocuvm`, `allocuvm`, `copyuvm` and the copy of `thread_create` to its new stack do to
the pages of a directory, page by page. The address of a page tells whether it is in a range.
-/

namespace Xv6

/-- The page is in the range of addresses. -/
def InRange (low high page : Nat) : Prop := low ≤ page * PGSIZE ∧ page * PGSIZE < high

instance (low high page : Nat) : Decidable (InRange low high page) := inferInstanceAs (Decidable (_ ∧ _))

section Pages

variable {pages rest copy : PageMap} {oldsz newsz sz room low high page : Nat}

/-- `pageRange` lists the pages of a range. -/
theorem mem_pageRange (bound : low + PGSIZE ≤ 2 ^ 32) : page ∈ pageRange low high ↔ InRange low high page := by
  unfold pageRange InRange PGROUNDUP
  rw [List.mem_range'_1]
  simp only [PGSIZE] at *
  omega

/-- `pageRange` lists no page twice. -/
theorem pageRange_nodup (low high : Nat) : (pageRange low high).Nodup := List.nodup_range'

/-- Removing pages one by one. -/
theorem removePages (list : List Nat) (pages : PageMap) (page : Nat) :
    list.foldl (fun pages page => Function.update pages page none) pages page =
      if page ∈ list then none else pages page := by
  induction list generalizing pages with
  | nil => simp
  | cons first list ih =>
    rw [List.foldl_cons, ih]
    by_cases here : page = first
    · rw [here]
      simp
    · rw [Function.update_of_ne here]
      simp [here]

/-! ## `deallocuvm` -/

/-- `deallocuvm` removes the pages of its range. -/
theorem deallocuvm_pages (freed : deallocuvm pages oldsz newsz = some (sz, rest)) (page : Nat) :
    rest page = if InRange newsz oldsz page then none else pages page := by
  unfold deallocuvm at freed
  split at freed
  · rename_i empty
    cases freed
    rw [if_neg]
    rintro ⟨above, below⟩
    omega
  · split at freed
    · contradiction
    · rename_i nonempty bounded
      cases freed
      rw [removePages]
      have bound : newsz + PGSIZE ≤ 2 ^ 32 := by
        simp only [KERNBASE, PGSIZE] at *
        omega
      simp only [mem_pageRange bound]

/-- The size that `deallocuvm` returns. -/
theorem deallocuvm_size (freed : deallocuvm pages oldsz newsz = some (sz, rest)) : sz = min oldsz newsz := by
  unfold deallocuvm at freed
  split at freed
  · cases freed
    omega
  · split at freed
    · contradiction
    · cases freed
      omega

/-- Below `KERNBASE` `deallocuvm` returns. -/
theorem deallocuvm_returns (pages : PageMap) (newsz : Nat) (bound : oldsz ≤ KERNBASE) :
    ∃ sz rest, deallocuvm pages oldsz newsz = some (sz, rest) := by
  unfold deallocuvm
  by_cases empty : oldsz ≤ newsz
  · rw [if_pos empty]
    exact ⟨_, _, rfl⟩
  · rw [if_neg empty, if_neg (by omega)]
    exact ⟨_, _, rfl⟩

/-! ## `allocuvm` -/

/-- The loop of `allocuvm` with memory enough maps every page. -/
theorem allocPages_true {list : List Nat} (distinct : list.Nodup) (mapped : allocPages list room pages = some (true, rest)) :
    (∀ page ∈ list, pages page = none) ∧ ∀ page, rest page = if page ∈ list then some true else pages page := by
  induction list generalizing pages room with
  | nil =>
    cases mapped
    simp
  | cons first list ih =>
    obtain ⟨missing, distinct⟩ := List.nodup_cons.mp distinct
    cases room with
    | zero => cases mapped
    | succ room =>
      unfold allocPages at mapped
      split at mapped
      · contradiction
      · rename_i absent
        obtain ⟨fresh, result⟩ := ih distinct mapped
        refine ⟨fun page member => ?_, fun page => ?_⟩
        · rcases List.mem_cons.mp member with rfl | member
          · exact absent
          · have other : page ≠ first := fun here => missing (by rwa [here] at member)
            have before := fresh page member
            rwa [Function.update_of_ne other] at before
        · rw [result page]
          by_cases here : page = first
          · rw [here]
            simp [missing]
          · rw [Function.update_of_ne here]
            simp [here]

/-- The loop of `allocuvm` changes listed pages only. -/
theorem allocPages_other {list : List Nat} {enough : Bool} (mapped : allocPages list room pages = some (enough, rest))
    (other : page ∉ list) : rest page = pages page := by
  induction list generalizing pages room with
  | nil =>
    cases mapped
    rfl
  | cons first list ih =>
    rw [List.mem_cons, not_or] at other
    cases room with
    | zero =>
      cases mapped
      rfl
    | succ room =>
      unfold allocPages at mapped
      split at mapped
      · contradiction
      · rw [ih mapped other.2, Function.update_of_ne other.1]

/-- The loop of `allocuvm` runs out of memory when there is less of it than pages. -/
theorem allocPages_false {list : List Nat} (mapped : allocPages list room pages = some (false, rest)) :
    room < list.length := by
  induction list generalizing pages room with
  | nil => cases mapped
  | cons first list ih =>
    cases room with
    | zero => exact Nat.succ_pos _
    | succ room =>
      unfold allocPages at mapped
      split at mapped
      · contradiction
      · exact Nat.succ_lt_succ (ih mapped)

/-- The loop of `allocuvm` maps no more pages than there is memory for. -/
theorem allocPages_room {list : List Nat} (mapped : allocPages list room pages = some (true, rest)) :
    list.length ≤ room := by
  induction list generalizing pages room with
  | nil => exact Nat.zero_le room
  | cons first list ih =>
    cases room with
    | zero => cases mapped
    | succ room =>
      unfold allocPages at mapped
      split at mapped
      · contradiction
      · exact Nat.succ_le_succ (ih mapped)

/-- The loop of `allocuvm` returns when no listed page is present. -/
theorem allocPages_returns {list : List Nat} (room : Nat) (distinct : list.Nodup) (absent : ∀ page ∈ list, pages page = none) :
    ∃ enough rest, allocPages list room pages = some (enough, rest) := by
  induction list generalizing pages room with
  | nil => exact ⟨_, _, rfl⟩
  | cons first list ih =>
    obtain ⟨missing, distinct⟩ := List.nodup_cons.mp distinct
    cases room with
    | zero => exact ⟨_, _, rfl⟩
    | succ room =>
      unfold allocPages
      rw [absent first List.mem_cons_self]
      refine ih room distinct fun page member => ?_
      have other : page ≠ first := fun here => missing (by rwa [here] at member)
      rw [Function.update_of_ne other]
      exact absent page (List.mem_cons_of_mem first member)

/-- There is memory for the pages of a range of user addresses. -/
def fits (low high room : Nat) : Bool := decide (high < KERNBASE ∧ (pageRange low high).length ≤ room)

/-- A range that fits is below `KERNBASE`. -/
theorem fits_low (enough : fits low high room = true) : high < KERNBASE := (of_decide_eq_true enough).1

/-- How `allocuvm` ends. -/
inductive Allocates (pages : PageMap) (oldsz newsz room : Nat) : Nat → PageMap → Prop where
  /-- The new size reaches the kernel. -/
  | refused : KERNBASE ≤ newsz → Allocates pages oldsz newsz room 0 pages
  /-- The new size is the smaller one. -/
  | kept : newsz < oldsz → newsz < KERNBASE → Allocates pages oldsz newsz room oldsz pages
  /-- The pages are mapped; none of them was. -/
  | mapped (rest : PageMap) : oldsz ≤ newsz → fits oldsz newsz room = true →
      (∀ page, InRange oldsz newsz page → pages page = none) →
      (∀ page, rest page = if InRange oldsz newsz page then some true else pages page) →
      Allocates pages oldsz newsz room newsz rest
  /-- There is no memory for them. -/
  | exhausted (rest : PageMap) : oldsz ≤ newsz → newsz < KERNBASE → fits oldsz newsz room = false →
      (∀ page, rest page = if InRange oldsz newsz page then none else pages page) →
      Allocates pages oldsz newsz room 0 rest

/-- What `allocuvm` does. -/
theorem allocuvm_allocates (allocated : allocuvm pages oldsz newsz room = some (sz, rest)) :
    Allocates pages oldsz newsz room sz rest := by
  unfold allocuvm at allocated
  split at allocated
  · rename_i high
    cases allocated
    exact .refused high
  · split at allocated
    · rename_i low smaller
      cases allocated
      exact .kept smaller (Nat.lt_of_not_le low)
    · rename_i low larger
      have bound : oldsz + PGSIZE ≤ 2 ^ 32 := by
        simp only [KERNBASE, PGSIZE] at *
        omega
      split at allocated
      · contradiction
      · rename_i mapped
        cases allocated
        obtain ⟨absent, result⟩ := allocPages_true (pageRange_nodup oldsz newsz) mapped
        simp only [mem_pageRange bound] at absent result
        have enough : fits oldsz newsz room = true := decide_eq_true ⟨Nat.lt_of_not_le low, allocPages_room mapped⟩
        exact .mapped rest (Nat.le_of_not_lt larger) enough absent result
      · rename_i some pages' mapped
        obtain ⟨⟨_, rest'⟩, freed, same⟩ := Option.map_eq_some_iff.mp allocated
        cases same
        have short : fits oldsz newsz room = false :=
          decide_eq_false fun enough => Nat.not_le.mpr (allocPages_false mapped) enough.2
        refine .exhausted rest (Nat.le_of_not_lt larger) (Nat.lt_of_not_le low) short fun page => ?_
        rw [deallocuvm_pages freed page]
        by_cases inside : InRange oldsz newsz page
        · rw [if_pos inside, if_pos inside]
        · rw [if_neg inside, if_neg inside]
          exact allocPages_other mapped ((mem_pageRange bound).not.mpr inside)

/-- `allocuvm` that returns more than the old size has mapped the pages between. -/
theorem allocuvm_grown (allocated : allocuvm pages oldsz newsz room = some (sz, rest)) (grown : oldsz < sz) :
    sz = newsz ∧ fits oldsz newsz room = true ∧ (∀ page, InRange oldsz newsz page → pages page = none) ∧
      ∀ page, rest page = if InRange oldsz newsz page then some true else pages page := by
  cases allocuvm_allocates allocated with
  | refused _ => contradiction
  | kept _ _ => exact absurd grown (Nat.lt_irrefl _)
  | mapped _ _ enough absent result => exact ⟨rfl, enough, absent, result⟩
  | exhausted _ _ _ _ _ => contradiction

/-- `allocuvm` that fails has unmapped the pages of its range, or done nothing above `KERNBASE`. -/
theorem allocuvm_failed (allocated : allocuvm pages oldsz newsz room = some (0, rest)) (positive : 0 < newsz) :
    fits oldsz newsz room = false ∧ (KERNBASE ≤ newsz ∧ rest = pages ∨
      newsz < KERNBASE ∧ ∀ page, rest page = if InRange oldsz newsz page then none else pages page) := by
  generalize zero : 0 = sz at allocated
  cases allocuvm_allocates allocated with
  | refused high =>
    exact ⟨decide_eq_false fun enough => Nat.not_lt.mpr high enough.1, .inl ⟨high, rfl⟩⟩
  | kept smaller _ => omega
  | mapped _ _ _ _ _ => omega
  | exhausted _ _ low short result => exact ⟨short, .inr ⟨low, result⟩⟩

/-- `allocuvm` does not panic when no page of the range is present. -/
theorem allocuvm_returns (room : Nat) (absent : ∀ page, InRange oldsz newsz page → pages page = none) :
    allocuvm pages oldsz newsz room ≠ none := by
  unfold allocuvm
  by_cases high : KERNBASE ≤ newsz
  · rw [if_pos high]
    exact Option.some_ne_none _
  · rw [if_neg high]
    by_cases smaller : newsz < oldsz
    · rw [if_pos smaller]
      exact Option.some_ne_none _
    · rw [if_neg smaller]
      have bound : oldsz + PGSIZE ≤ 2 ^ 32 := by
        simp only [KERNBASE, PGSIZE] at *
        omega
      obtain ⟨enough, rest, mapped⟩ := allocPages_returns room (pageRange_nodup oldsz newsz)
        fun page member => absent page ((mem_pageRange bound).mp member)
      rw [mapped]
      cases enough with
      | true => exact Option.some_ne_none _
      | false =>
        obtain ⟨_, _, freed⟩ := deallocuvm_returns rest oldsz (Nat.le_of_lt (Nat.lt_of_not_le high))
        simp only [freed]
        exact Option.some_ne_none _

/-! ## New stacks -/

/-- `clearpteu` keeps which pages are present. -/
theorem clearpteu_none (pages : PageMap) (uva page : Nat) : clearpteu pages uva page = none ↔ pages page = none := by
  unfold clearpteu
  cases present : pages (uva / PGSIZE) with
  | none => exact Iff.rfl
  | some user =>
    by_cases here : page = uva / PGSIZE
    · rw [here, present]
      simp
    · simp only [Function.update_of_ne here]

/-- `clearpteu` changes one page. -/
theorem clearpteu_other (pages : PageMap) {uva : Nat} (other : page ≠ uva / PGSIZE) :
    clearpteu pages uva page = pages page := by
  unfold clearpteu
  cases pages (uva / PGSIZE) with
  | none => rfl
  | some user => exact Function.update_of_ne other _ _

/-- `copyout` to the top of a new stack finds its page. -/
theorem stack_written {base : Nat} (mapped : ∀ page, InRange base (base + 2 * PGSIZE) page → rest page = some true) :
    copyout (clearpteu rest base) (base + 2 * PGSIZE - 8) 8 = true := by
  unfold copyout
  rw [List.all_eq_true]
  intro page member
  rw [List.mem_range'_1] at member
  have inside : InRange base (base + 2 * PGSIZE) page := by
    unfold InRange
    simp only [PGSIZE] at *
    omega
  have other : page ≠ base / PGSIZE := by
    simp only [PGSIZE] at *
    omega
  rw [clearpteu_other rest other, mapped page inside]
  rfl

/-- `allocuvm` for a new stack fails or maps its pages. -/
theorem stack_allocated {base : Nat} (allocated : allocuvm pages base (base + 2 * PGSIZE) room = some (sz, rest)) :
    sz = 0 ∨ sz = base + 2 * PGSIZE ∧ ∀ page, InRange base (base + 2 * PGSIZE) page → rest page = some true := by
  cases allocuvm_allocates allocated with
  | refused _ => exact .inl rfl
  | kept smaller _ => omega
  | mapped _ _ _ _ result => exact .inr ⟨rfl, fun page inside => (result page).trans (if_pos inside)⟩
  | exhausted _ _ _ _ _ => exact .inl rfl

/-! ## `copyuvm` -/

/-- Every page below the size is present. -/
def Mapped (pages : PageMap) (sz : Nat) : Prop := ∀ page, page * PGSIZE < sz → pages page ≠ none

/-- No page at or above the size is present. -/
def Bounded (pages : PageMap) (sz : Nat) : Prop := ∀ page, sz ≤ page * PGSIZE → pages page = none

/-- The loop of `copyuvm` copies every listed page. -/
theorem copyPages_some {list : List Nat} {start : PageMap} (copied : copyPages list room pages start = some (some copy))
    (page : Nat) : copy page = if page ∈ list then pages page else start page := by
  induction list generalizing room start with
  | nil =>
    cases copied
    simp
  | cons first list ih =>
    unfold copyPages at copied
    split at copied
    · contradiction
    · cases copied
    · rename_i user room present
      rw [ih copied]
      by_cases here : page = first
      · rw [here, Function.update_self, present]
        simp
      · rw [Function.update_of_ne here]
        simp [here]

/-- The loop of `copyuvm` does not panic when every listed page is present. -/
theorem copyPages_returns {list : List Nat} (room : Nat) (start : PageMap) (present : ∀ page ∈ list, pages page ≠ none) :
    copyPages list room pages start ≠ none := by
  induction list generalizing room start with
  | nil => exact Option.some_ne_none _
  | cons first list ih =>
    unfold copyPages
    split
    · rename_i absent
      exact absurd absent (present first List.mem_cons_self)
    · exact Option.some_ne_none _
    · exact ih _ _ fun page member => present page (List.mem_cons_of_mem first member)

/-- `copyuvm` copies the pages below the size. -/
theorem copyuvm_pages (copied : copyuvm pages sz room = some (some copy)) (page : Nat) :
    copy page = if page * PGSIZE < sz then pages page else none := by
  have same := copyPages_some copied page
  simp only [mem_pageRange (show 0 + PGSIZE ≤ 2 ^ 32 by decide), InRange, Nat.zero_le, true_and] at same
  exact same

/-- `copyuvm` does not panic on a directory without holes. -/
theorem copyuvm_returns (room : Nat) (mapped : Mapped pages sz) : copyuvm pages sz room ≠ none := by
  refine copyPages_returns room _ fun page member => mapped page ?_
  exact ((mem_pageRange (show 0 + PGSIZE ≤ 2 ^ 32 by decide)).mp member).2

/-- The next `sbrk` of a child whose size is the one copied does not panic. -/
theorem copyuvm_grows (copied : copyuvm pages sz room = some (some copy)) (newsz room' : Nat) :
    allocuvm copy sz newsz room' ≠ none := by
  refine allocuvm_returns room' fun page inside => ?_
  rw [copyuvm_pages copied, if_neg (Nat.not_lt.mpr inside.1)]

/-! ## Address checks -/

section Checks

variable {addr : Nat}

/-- An address below the size is in a page below it. -/
theorem Mapped.address (mapped : Mapped pages sz) (below : addr < sz) : pages (addr / PGSIZE) ≠ none :=
  mapped _ (Nat.lt_of_le_of_lt (Nat.div_mul_le_self addr PGSIZE) below)

/-- What `fetchint` accepts is below the size. -/
theorem fetchint_below (bound : sz ≤ KERNBASE) (accepted : fetchint sz addr = true) : addr + 4 ≤ sz := by
  unfold fetchint uint at accepted
  simp only [decide_eq_true_eq, KERNBASE] at *
  omega

/-- What `argptr` accepts is below the size; its argument `size` is a signed integer. -/
theorem argptr_below {size : Int} (bound : sz ≤ KERNBASE) (signed : size < 2 ^ 31)
    (accepted : argptr sz addr size = true) : addr + size ≤ sz := by
  unfold argptr uint at accepted
  simp only [decide_eq_true_eq, KERNBASE] at *
  omega

/-- What `fetchstr` accepts is below the size. -/
theorem fetchstr_below {memory : Nat → Nat} {length : Nat} (accepted : fetchstr sz addr memory = some length) :
    addr + length < sz := by
  unfold fetchstr at accepted
  split at accepted
  · have inside := List.mem_range.mp (List.mem_of_find?_eq_some accepted)
    omega
  · contradiction

end Checks

/-! ## The image of a program -/

/-- Nothing that `allocuvm` maps is at or above the size it returns. -/
theorem Allocates.bounded (allocates : Allocates pages oldsz newsz room sz rest) (bounded : Bounded pages oldsz)
    (positive : sz ≠ 0) : Bounded rest sz ∧ sz < KERNBASE ∨ newsz < oldsz ∧ sz = oldsz ∧ rest = pages := by
  cases allocates with
  | refused _ => exact absurd rfl positive
  | kept smaller _ => exact .inr ⟨smaller, rfl, rfl⟩
  | mapped rest larger enough _ result =>
    refine .inl ⟨fun page above => ?_, fits_low enough⟩
    rw [result page, if_neg (fun inside => Nat.not_lt.mpr above inside.2)]
    exact bounded page (Nat.le_trans larger above)
  | exhausted _ _ _ _ _ => exact absurd rfl positive

/-- `allocuvm` maps above a bounded directory without panic. -/
theorem Bounded.allocuvm (bounded : Bounded pages oldsz) (newsz room : Nat) :
    ∃ sz rest, allocuvm pages oldsz newsz room = some (sz, rest) := by
  have returns : Xv6.allocuvm pages oldsz newsz room ≠ none :=
    allocuvm_returns room fun page inside => bounded page inside.1
  obtain ⟨⟨sz, rest⟩, allocated⟩ := Option.ne_none_iff_exists'.mp returns
  exact ⟨sz, rest, allocated⟩

/-- The loop over the segments does not panic, and maps below the size it returns. -/
theorem loadSegments_bounded (ends : List Nat) (bounded : Bounded pages sz) (low : sz < KERNBASE) :
    ∃ sz' rest, Space.loadSegments ends sz pages = some (sz', rest) ∧
      (sz' = 0 ∧ ends ≠ [] ∨ Bounded rest sz' ∧ sz' < KERNBASE) := by
  induction ends generalizing sz pages with
  | nil => exact ⟨sz, pages, rfl, .inr ⟨bounded, low⟩⟩
  | cons last ends ih =>
    obtain ⟨sz', rest, allocated⟩ := bounded.allocuvm last (KERNBASE / PGSIZE)
    unfold Space.loadSegments
    rw [allocated]
    by_cases failed : sz' = 0
    · simp only [if_pos failed]
      exact ⟨0, rest, rfl, .inl ⟨rfl, List.cons_ne_nil _ _⟩⟩
    · simp only [if_neg failed]
      have next : Bounded rest sz' ∧ sz' < KERNBASE := by
        rcases (allocuvm_allocates allocated).bounded bounded failed with known | ⟨_, rfl, rfl⟩
        · exact known
        · exact ⟨bounded, low⟩
      obtain ⟨sz'', rest', loaded, result⟩ := ih next.1 next.2
      refine ⟨sz'', rest', loaded, ?_⟩
      rcases result with ⟨zero, _⟩ | known
      · exact .inl ⟨zero, List.cons_ne_nil _ _⟩
      · exact .inr known

/-- Loading a program does not panic, and maps below the size of the image. -/
theorem loadImage_bounded (ends : List Nat) :
    ∃ sz rest, Space.loadImage ends = some (sz, rest) ∧ (sz ≠ 0 → Bounded rest sz ∧ sz < KERNBASE) := by
  have empty : Bounded (fun _ => none) 0 := fun _ _ => rfl
  obtain ⟨sz, rest, loaded, result⟩ := loadSegments_bounded ends empty (by decide)
  unfold Space.loadImage
  rw [loaded]
  by_cases failed : sz = 0 ∧ ends ≠ []
  · simp only [if_pos failed]
    exact ⟨0, rest, rfl, fun positive => absurd rfl positive⟩
  · simp only [if_neg failed]
    have known : Bounded rest sz ∧ sz < KERNBASE := result.resolve_left failed
    have higher : sz ≤ PGROUNDUP sz := by
      have low := known.2
      unfold PGROUNDUP
      simp only [KERNBASE, PGSIZE] at *
      omega
    have above : Bounded rest (PGROUNDUP sz) := fun page inside => known.1 page (Nat.le_trans higher inside)
    obtain ⟨sz', rest', allocated⟩ := above.allocuvm (PGROUNDUP sz + 2 * PGSIZE) (KERNBASE / PGSIZE)
    rw [allocated]
    have final := (allocuvm_allocates allocated).bounded above
    cases sz' with
    | zero => exact ⟨0, rest', rfl, fun positive => absurd rfl positive⟩
    | succ sz' =>
      refine ⟨_, _, rfl, fun positive => ?_⟩
      rcases final positive with ⟨bounded, low⟩ | ⟨smaller, _⟩
      · exact ⟨fun page inside => (clearpteu_none _ _ _).mpr (bounded page inside), low⟩
      · omega

end Pages

end Xv6
