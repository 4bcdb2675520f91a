import Xv6.Verif.Images
import Xv6.Verif.OwnPages

/-!
# `deallocuvm` page by page

`deallocuvm` skips the addresses of page tables that are missing by assigning to the address of its
loop. It leaves the memory that unmapping every page of its range, one after the other, would leave.
-/

namespace Xv6

/-- The numbers of the pages from one address, rounded up, to another one. -/
def pagesBetween (low high : Nat) : List Nat :=
  List.range' ((low + PGSIZE - 1) / PGSIZE) ((high + PGSIZE - 1) / PGSIZE - (low + PGSIZE - 1) / PGSIZE)

/-- The frames in which pages are mapped. -/
def framesOf (m : Memory) (d : Nat) (pages : List Nat) : List Nat :=
  pages.filterMap fun pn => (m.mapping d pn).map (· / PGSIZE)

section Folds

variable {k : KernelImage} {m : Memory} {d pn : Nat} {pages : List Nat}

/-- Unmapping pages that are not mapped. -/
theorem foldl_unmapPage_absent (absent : ∀ pn ∈ pages, m.mapping d pn = none) :
    pages.foldl (Memory.unmapPage d) m = m := by
  induction pages with
  | nil => rfl
  | cons pn rest ih =>
    rw [List.foldl_cons, Memory.unmapPage_absent (absent pn List.mem_cons_self)]
    exact ih fun q member => absent q (List.mem_cons_of_mem _ member)

/-- The mappings after one page is unmapped. -/
theorem OwnPages.mapping_unmapPage (own : OwnPages k m d) (user : pn < USERPAGES) {q : Nat} (inside : q < TABLEPAGES) :
    (m.unmapPage d pn).mapping d q = if q = pn then none else m.mapping d q := by
  cases mapped : m.mapping d pn with
  | none =>
    rw [Memory.unmapPage_absent mapped]
    split
    · rename_i here
      rw [here, mapped]
    · rfl
  | some w => exact (own.unmapPage user mapped).mapping inside

/-- What unmapping distinct pages one after the other leaves. -/
theorem OwnPages.unmapPages (own : OwnPages k m d) (user : ∀ pn ∈ pages, pn < USERPAGES) (distinct : pages.Nodup) :
    OwnPages k (pages.foldl (Memory.unmapPage d) m) d ∧
      (pages.foldl (Memory.unmapPage d) m).free = (framesOf m d pages).reverse ++ m.free ∧
      (pages.foldl (Memory.unmapPage d) m).word d = m.word d ∧
      ∀ q < TABLEPAGES, (pages.foldl (Memory.unmapPage d) m).entry d q =
        if q ∈ pages ∧ (m.mapping d q).isSome then some 0 else m.entry d q := by
  induction pages generalizing m with
  | nil => exact ⟨own, rfl, rfl, fun q _ => by simp⟩
  | cons pn rest ih =>
    have first := user pn List.mem_cons_self
    obtain ⟨fresh, distinct⟩ := List.nodup_cons.mp distinct
    obtain ⟨own', free, dir, entries⟩ := ih (own.unmap first)
      (fun q member => user q (List.mem_cons_of_mem _ member)) distinct
    have same : framesOf (m.unmapPage d pn) d rest = framesOf m d rest := by
      unfold framesOf
      apply List.filterMap_congr
      intro q member
      have other : q ≠ pn := fun equal => fresh (equal ▸ member)
      rw [own.mapping_unmapPage first (user_inside (user q (List.mem_cons_of_mem _ member))), if_neg other]
    rw [List.foldl_cons]
    refine ⟨own', ?_, ?_, ?_⟩
    · rw [free, same]
      cases mapped : m.mapping d pn with
      | none =>
        rw [Memory.unmapPage_absent mapped, framesOf, framesOf, List.filterMap_cons, mapped]
        rfl
      | some w =>
        rw [(own.unmapPage first mapped).free, framesOf, framesOf, List.filterMap_cons, mapped]
        simp
    · rw [dir]
      cases mapped : m.mapping d pn with
      | none => rw [Memory.unmapPage_absent mapped]
      | some w => exact (own.unmapPage first mapped).dir
    · intro q inside
      rw [entries q inside, own.mapping_unmapPage first inside]
      cases mapped : m.mapping d pn with
      | none =>
        rw [Memory.unmapPage_absent mapped]
        by_cases here : q = pn
        · simp [here, mapped]
        · simp [here]
      | some w =>
        rw [(own.unmapPage first mapped).entry q inside]
        by_cases here : q = pn
        · simp [here, mapped]
        · simp [here]

/-- The mappings after distinct pages are unmapped. -/
theorem OwnPages.unmapPages_mapping (own : OwnPages k m d) (user : ∀ pn ∈ pages, pn < USERPAGES) (distinct : pages.Nodup)
    {q : Nat} (inside : q < TABLEPAGES) :
    (pages.foldl (Memory.unmapPage d) m).mapping d q = if q ∈ pages then none else m.mapping d q := by
  rw [Memory.mapping_eq_entry, (own.unmapPages user distinct).2.2.2 q inside]
  by_cases here : q ∈ pages
  · rw [if_pos here]
    cases mapped : m.mapping d q with
    | none => simp [mapped, ← Memory.mapping_eq_entry]
    | some w => simp [here, present]
  · rw [if_neg here, if_neg fun both => here both.1, Memory.mapping_eq_entry]

/-- Unmapping pages keeps the pages that are neither unmapped nor page tables. -/
theorem OwnPages.unmapPages_kept (own : OwnPages k m d) (user : ∀ pn ∈ pages, pn < USERPAGES) {g : Nat}
    (other : ∀ pn ∈ pages, ∀ w, m.mapping d pn = some w → w / PGSIZE ≠ g)
    (outside : ∀ i < NPDENTRIES, frameOf (m.word d i) ≠ some g) :
    (pages.foldl (Memory.unmapPage d) m).word g = m.word g := by
  induction pages generalizing m with
  | nil => rfl
  | cons pn rest ih =>
    have first := user pn List.mem_cons_self
    have later : ∀ q ∈ rest, q < USERPAGES := fun q member => user q (List.mem_cons_of_mem _ member)
    rw [List.foldl_cons]
    cases mapped : m.mapping d pn with
    | none =>
      rw [Memory.unmapPage_absent mapped]
      exact ih own later (fun q member => other q (List.mem_cons_of_mem _ member)) outside
    | some w =>
      have unmapped := own.unmapPage first mapped
      have apart := other pn List.mem_cons_self w mapped
      rw [ih (own.unmap first) later]
      · exact unmapped.kept g (Ne.symm apart) outside
      · intro q member w' mapped'
        rw [unmapped.mapping (user_inside (later q member))] at mapped'
        split at mapped'
        · contradiction
        · exact other q (List.mem_cons_of_mem _ member) w' mapped'
      · rw [unmapped.dir]
        exact outside

/-- The frames of distinct user pages are distinct. -/
theorem OwnPages.framesOf_nodup (own : OwnPages k m d) (user : ∀ pn ∈ pages, pn < USERPAGES) (distinct : pages.Nodup) :
    (framesOf m d pages).Nodup := by
  induction pages with
  | nil => exact List.nodup_nil
  | cons pn rest ih =>
    obtain ⟨fresh, distinct⟩ := List.nodup_cons.mp distinct
    have later := ih (fun q member => user q (List.mem_cons_of_mem _ member)) distinct
    cases mapped : m.mapping d pn with
    | none =>
      rw [framesOf, List.filterMap_cons, mapped]
      exact later
    | some w =>
      rw [framesOf, List.filterMap_cons, mapped]
      refine List.nodup_cons.mpr ⟨fun member => ?_, later⟩
      obtain ⟨q, there, frame⟩ := List.mem_filterMap.mp member
      obtain ⟨w', mapped', same⟩ := Option.map_eq_some_iff.mp frame
      have equal := own.pages q (user q (List.mem_cons_of_mem _ there)) pn (user pn List.mem_cons_self) w' w
        mapped' mapped same
      exact fresh (equal ▸ there)

/-- The frames of user pages are not free. -/
theorem OwnPages.framesOf_used (own : OwnPages k m d) (user : ∀ pn ∈ pages, pn < USERPAGES) :
    ∀ f ∈ framesOf m d pages, f ∉ m.free := by
  intro f member
  obtain ⟨q, there, frame⟩ := List.mem_filterMap.mp member
  obtain ⟨w, mapped, rfl⟩ := Option.map_eq_some_iff.mp frame
  exact (own.page q (user q there) w mapped).2.1

end Folds

/-! ## The loop -/

/-- The loop of `deallocuvm` with the address it ends at, over `fuel` rounds at most. -/
def Vm.deallocEnd (pgdir oldsz : Nat) : Nat → Nat → Vm Nat
  | 0, a => pure a
  | fuel + 1, a =>
    if a < oldsz then do
      match ← walkpgdir pgdir a false with
      | none => deallocEnd pgdir oldsz fuel (uint ((PDX a + 1) * (NPDENTRIES * PGSIZE)))
      | some (pgtab, i) =>
        let pte ← load pgtab i
        if present pte then
          if pte / PGSIZE = 0 then panic "kfree"
          else do
            kfree (pte / PGSIZE)
            store pgtab i 0
            deallocEnd pgdir oldsz fuel (uint (a + PGSIZE))
        else deallocEnd pgdir oldsz fuel (uint (a + PGSIZE))
    else pure a

/-- The rest of a range of numbers after its first one. -/
theorem range'_first {q last : Nat} (below : q < last) :
    List.range' q (last - q) = q :: List.range' (q + 1) (last - (q + 1)) := by
  have count : last - q = last - (q + 1) + 1 := by omega
  rw [count]
  exact List.range'_succ ..

/-- A range of numbers in two parts. -/
theorem range'_parts {q middle last : Nat} (first : q ≤ middle) (second : middle ≤ last) :
    List.range' q (last - q) = List.range' q (middle - q) ++ List.range' middle (last - middle) := by
  have joined := List.range'_append_1 (s := q) (m := middle - q) (n := last - middle)
  have start : q + (middle - q) = middle := by omega
  have count : middle - q + (last - middle) = last - q := by omega
  rw [start, count] at joined
  exact joined.symm

section Loop

variable {k : KernelImage} {m : Memory} {d oldsz newsz last q : Nat}

/-- `walkpgdir` that allocates no page table reads the directory. -/
theorem walkpgdir_reads (missing : d ∉ m.free) (va : Nat) :
    Returns k (Vm.walkpgdir d va false) m fun r m' => r = (frameOf (m.word d (PDX va))).map (·, PTX va) ∧ m' = m := by
  unfold Vm.walkpgdir
  refine .bind (Vm.load_returns missing (PDX va)) fun w m₁ known => ?_
  obtain ⟨rfl, rfl⟩ := known
  cases frameOf (m₁.word d (PDX va)) with
  | none => exact Returns.pure ⟨rfl, rfl⟩
  | some t => exact Returns.pure ⟨rfl, rfl⟩

/-- The directory index of a page's address. -/
theorem PDX_page (q : Nat) : PDX (q * PGSIZE) = q / NPDENTRIES := by
  rw [PDX_eq, Nat.mul_div_cancel q (by decide)]

/-- The table index of a page's address. -/
theorem PTX_page (q : Nat) : PTX (q * PGSIZE) = q % NPDENTRIES := by
  rw [PTX, Nat.mul_div_cancel q (by decide)]

/-- The address after a user page does not wrap around. -/
theorem next_page (user : q < USERPAGES) : uint ((q * PGSIZE : Nat) + PGSIZE) = (q + 1) * PGSIZE := by
  unfold USERPAGES KERNBASE PGSIZE at user
  unfold uint PGSIZE
  omega

/-- The address after a page table of user pages does not wrap around. -/
theorem next_table (user : q < USERPAGES) :
    uint ((PDX (q * PGSIZE) + 1) * (NPDENTRIES * PGSIZE)) = (q / NPDENTRIES + 1) * NPDENTRIES * PGSIZE := by
  rw [PDX_page]
  unfold USERPAGES KERNBASE PGSIZE at user
  unfold uint NPDENTRIES PGSIZE
  omega

/-- Pages whose page table is missing are not mapped. -/
theorem mapping_missing (missing : frameOf (m.word d (q / NPDENTRIES)) = none) {pn : Nat} (above : q ≤ pn)
    (below : pn < (q / NPDENTRIES + 1) * NPDENTRIES) : m.mapping d pn = none := by
  have same : pn / NPDENTRIES = q / NPDENTRIES := by
    unfold NPDENTRIES at *
    omega
  rw [Memory.mapping, same, missing]

/-- Unmapping a range may start after a page table that is missing. -/
theorem foldl_unmapPage_skip (missing : frameOf (m.word d (q / NPDENTRIES)) = none) :
    (List.range' q (last - q)).foldl (Memory.unmapPage d) m =
      (List.range' ((q / NPDENTRIES + 1) * NPDENTRIES) (last - (q / NPDENTRIES + 1) * NPDENTRIES)).foldl
        (Memory.unmapPage d) m := by
  have far : q < (q / NPDENTRIES + 1) * NPDENTRIES := by
    unfold NPDENTRIES
    omega
  have absent : ∀ pn, q ≤ pn → pn < (q / NPDENTRIES + 1) * NPDENTRIES → m.mapping d pn = none :=
    fun pn above below => mapping_missing missing above below
  generalize (q / NPDENTRIES + 1) * NPDENTRIES = middle at far absent
  have skipped : ∀ count, q + count ≤ middle → (List.range' q count).foldl (Memory.unmapPage d) m = m := by
    intro count inside
    refine foldl_unmapPage_absent fun pn member => ?_
    rw [List.mem_range'_1] at member
    exact absent pn member.1 (by omega)
  by_cases ended : last ≤ middle
  · rw [Nat.sub_eq_zero_of_le ended, skipped _ (by omega)]
    rfl
  · rw [range'_parts (Nat.le_of_lt far) (Nat.le_of_not_le ended), List.foldl_append, skipped _ (by omega)]

/-- A user page that is mapped has not got frame 0. -/
theorem frame_nonzero {f : Nat} (usable : Memory.usable k f = true) : f ≠ 0 := by
  rintro rfl
  have low := k.data_low
  have finish := k.data_inside
  unfold Memory.usable at usable
  rw [decide_eq_true_eq] at usable
  unfold KERNLINK KERNBASE EXTMEM at low
  unfold KERNBASE at finish
  omega

/-- The loop of `deallocuvm` ends at or after `oldsz` and unmaps the pages of its range one by one. -/
theorem deallocEnd_unmaps (own : OwnPages k m d) (below : ∀ q, q * PGSIZE < oldsz ↔ q < last) (user : last ≤ USERPAGES)
    {fuel : Nat} (enough : last ≤ q + fuel) :
    Returns k (Vm.deallocEnd d oldsz fuel (q * PGSIZE)) m fun a m' =>
      oldsz ≤ a ∧ m' = (List.range' q (last - q)).foldl (Memory.unmapPage d) m := by
  induction fuel generalizing m q with
  | zero =>
    have ended : ¬q < last := Nat.not_lt.mpr enough
    rw [Nat.sub_eq_zero_of_le (Nat.le_of_not_lt ended)]
    exact Returns.pure ⟨Nat.le_of_not_lt fun inside => ended ((below q).mp inside), rfl⟩
  | succ fuel ih =>
    unfold Vm.deallocEnd
    by_cases here : q < last
    · have first : q < USERPAGES := Nat.lt_of_lt_of_le here user
      rw [if_pos ((below q).mpr here)]
      refine .bind (walkpgdir_reads own.dir _) fun r m₁ known => ?_
      obtain ⟨rfl, rfl⟩ := known
      rw [next_table first, PDX_page, PTX_page]
      cases named : frameOf (m₁.word d (q / NPDENTRIES)) with
      | none =>
        rw [foldl_unmapPage_skip named]
        refine ih own ?_
        unfold NPDENTRIES
        omega
      | some t =>
        have table := own.table _ (user_index first) t named
        rw [range'_first here, List.foldl_cons]
        dsimp only [Option.map_some]
        refine .bind (Vm.load_returns table.1 _) fun w m₂ known => ?_
        obtain ⟨rfl, rfl⟩ := known
        rw [next_page first]
        by_cases shown : present (m₂.word t (q % NPDENTRIES)) = true
        · have mapped : m₂.mapping d q = some (m₂.word t (q % NPDENTRIES)) := by
            rw [Memory.mapping, named]
            exact if_pos shown
          obtain ⟨usable, missing, apart, untabled⟩ := own.page q first _ mapped
          rw [if_pos shown, if_neg (frame_nonzero usable)]
          refine .bind (Vm.kfree_returns usable missing) fun _ m₃ known => ?_
          subst known
          have other : t ≠ m₂.word t (q % NPDENTRIES) / PGSIZE :=
            fun same => untabled _ (user_index first) (same ▸ named)
          have kept : t ∉ (m₂.release (m₂.word t (q % NPDENTRIES) / PGSIZE)).free := by
            rw [Memory.release_free, List.mem_cons]
            exact fun member => member.elim other table.1
          refine .bind (Vm.store_returns kept _ _) fun _ m₃ known => ?_
          subst known
          rw [← Memory.unmapPage_present named shown]
          exact ih (own.unmap first) (by omega)
        · have absent : m₂.mapping d q = none := by
            rw [Memory.mapping, named]
            exact if_neg shown
          rw [if_neg shown, Memory.unmapPage_absent absent]
          exact ih own (by omega)
    · rw [if_neg fun inside => here ((below q).mp inside), Nat.sub_eq_zero_of_le (Nat.le_of_not_lt here)]
      exact Returns.pure ⟨Nat.le_of_not_lt fun inside => here ((below q).mp inside), rfl⟩

/-- The loop of `deallocuvm` is the one that keeps its address. -/
theorem deallocLoop_end (d oldsz fuel a : Nat) :
    Vm.deallocLoop d oldsz fuel a = Vm.deallocEnd d oldsz fuel a >>= fun _ => pure () := by
  induction fuel generalizing a with
  | zero => rfl
  | succ fuel ih =>
    unfold Vm.deallocLoop Vm.deallocEnd
    by_cases below : a < oldsz
    · rw [if_pos below, if_pos below, Program.bind_assoc]
      congr 1
      funext found
      cases found with
      | none => exact ih _
      | some entry =>
        dsimp only
        rw [Program.bind_assoc]
        congr 1
        funext pte
        by_cases shown : present pte = true
        · rw [if_pos shown, if_pos shown]
          by_cases zero : pte / PGSIZE = 0
          · rw [if_pos zero, if_pos zero]
            rfl
          · rw [if_neg zero, if_neg zero, Program.bind_assoc]
            congr 1
            funext _
            rw [Program.bind_assoc]
            congr 1
            funext _
            exact ih _
        · rw [if_neg shown, if_neg shown]
          exact ih _
    · rw [if_neg below, if_neg below]
      rfl

/-- A page is in the range when its address is. -/
theorem mem_pagesBetween (low high pn : Nat) :
    pn ∈ pagesBetween low high ↔ low ≤ pn * PGSIZE ∧ pn * PGSIZE < high := by
  unfold pagesBetween
  rw [List.mem_range'_1]
  unfold PGSIZE
  omega

/-- The pages of a range below `KERNBASE` are user pages. -/
theorem pagesBetween_user (user : oldsz ≤ KERNBASE) : ∀ pn ∈ pagesBetween newsz oldsz, pn < USERPAGES := by
  intro pn member
  have inside := ((mem_pagesBetween newsz oldsz pn).mp member).2
  unfold USERPAGES
  unfold KERNBASE PGSIZE at *
  omega

/-- The loop of `deallocuvm` from the address it starts at. -/
theorem deallocEnd_range (own : OwnPages k m d) (user : oldsz ≤ KERNBASE) (smaller : newsz < oldsz) :
    Returns k (Vm.deallocEnd d oldsz (2 ^ 20) (PGROUNDUP newsz)) m fun a m' =>
      oldsz ≤ a ∧ m' = (pagesBetween newsz oldsz).foldl (Memory.unmapPage d) m := by
  have start : PGROUNDUP newsz = (newsz + PGSIZE - 1) / PGSIZE * PGSIZE := by
    unfold PGROUNDUP
    unfold KERNBASE PGSIZE at *
    omega
  rw [start]
  apply deallocEnd_unmaps own
  · intro q
    unfold PGSIZE
    omega
  · unfold USERPAGES
    unfold KERNBASE PGSIZE at *
    omega
  · unfold KERNBASE PGSIZE at *
    omega

/-- `deallocuvm` leaves what unmapping the pages of its range one by one leaves. -/
theorem deallocuvm_folds (own : OwnPages k m d) (user : oldsz ≤ KERNBASE) :
    Returns k (Vm.deallocuvm d oldsz newsz) m fun r m' =>
      r = (if newsz < oldsz then newsz else oldsz) ∧ m' = (pagesBetween newsz oldsz).foldl (Memory.unmapPage d) m := by
  unfold Vm.deallocuvm
  by_cases smaller : newsz < oldsz
  · rw [if_neg (Nat.not_le.mpr smaller), if_pos smaller, deallocLoop_end, Program.bind_assoc]
    exact (deallocEnd_range own user smaller).bind fun _ _ known => Returns.pure ⟨rfl, known.2⟩
  · have empty : pagesBetween newsz oldsz = [] := by
      refine List.eq_nil_iff_forall_not_mem.mpr fun pn member => ?_
      obtain ⟨above, below⟩ := (mem_pagesBetween newsz oldsz pn).mp member
      exact smaller (Nat.lt_of_le_of_lt above below)
    rw [if_pos (Nat.le_of_not_lt smaller), if_neg smaller, empty]
    exact Returns.pure ⟨rfl, rfl⟩

/-- `deallocuvm` terminates, unmaps and frees the present pages of its range, each once, and leaves
every other entry, as unmapping them one by one does. -/
theorem deallocuvm_agrees (own : OwnPages k m d) (user : oldsz ≤ KERNBASE) :
    ∃ m', m' = (pagesBetween newsz oldsz).foldl (Memory.unmapPage d) m ∧
      Program.run (Memory.handler k) (Vm.deallocuvm d oldsz newsz) m =
        .ok (if newsz < oldsz then newsz else oldsz, m') ∧
      (newsz < oldsz → ∃ a, oldsz ≤ a ∧
        Program.run (Memory.handler k) (Vm.deallocEnd d oldsz (2 ^ 20) (PGROUNDUP newsz)) m = .ok (a, m')) ∧
      m'.free = (framesOf m d (pagesBetween newsz oldsz)).reverse ++ m.free ∧
      (framesOf m d (pagesBetween newsz oldsz)).Nodup ∧ (∀ f ∈ framesOf m d (pagesBetween newsz oldsz), f ∉ m.free) ∧
      m'.word d = m.word d ∧
      ∀ q < TABLEPAGES, m'.entry d q =
        if q ∈ pagesBetween newsz oldsz ∧ (m.mapping d q).isSome then some 0 else m.entry d q := by
  have inside : ∀ pn ∈ pagesBetween newsz oldsz, pn < USERPAGES := pagesBetween_user user
  obtain ⟨free, dir, entries⟩ := (own.unmapPages inside List.nodup_range').2
  have folds : Returns k (Vm.deallocuvm d oldsz newsz) m _ := deallocuvm_folds own user
  obtain ⟨value, m', returned, rfl, rfl⟩ := folds.ok
  refine ⟨_, rfl, returned, fun smaller => ?_, free, own.framesOf_nodup inside List.nodup_range',
    own.framesOf_used inside, dir, entries⟩
  obtain ⟨a, m', returned, beyond, rfl⟩ := (deallocEnd_range own user smaller).ok
  exact ⟨a, beyond, returned⟩

/-- The loop of `freevm` writes the page tables only. -/
theorem freeTables_kept (count : Nat) : ∀ {i : Nat} {m : Memory}, i + count ≤ NPDENTRIES → d ∉ m.free →
    (∀ j < NPDENTRIES, frameOf (m.word d j) ≠ some d) →
    Yields k (Vm.freeTables d count i) m fun _ m' =>
      ∀ g, (∀ j < NPDENTRIES, frameOf (m.word d j) ≠ some g) → m'.word g = m.word g := by
  induction count with
  | zero => exact fun _ _ _ => Yields.pure fun _ _ => rfl
  | succ count ih =>
    intro i m inside missing apart
    have low : i < NPDENTRIES := by omega
    unfold Vm.freeTables
    refine (Vm.load_returns missing i).yields.bind fun w m₁ known => ?_
    obtain ⟨rfl, rfl⟩ := known
    unfold Vm.freeTable
    cases named : frameOf (m₁.word d i) with
    | none =>
      have idle : Yields k (pure () : Vm Unit) m₁ fun _ m' => m' = m₁ := Yields.pure rfl
      refine idle.bind fun _ m₂ known => ?_
      subst known
      exact ih (by omega) missing apart
    | some t =>
      have other : d ≠ t := fun same => apart i low (same ▸ named)
      refine (Vm.kfree_yields t).bind fun _ m₂ known => ?_
      subst known
      have dir : (m₁.release t).word d = m₁.word d := Memory.release_other other
      have used : d ∉ (m₁.release t).free := by
        rw [Memory.release_free, List.mem_cons]
        exact fun member => member.elim other missing
      refine (ih (by omega) used (by rw [dir]; exact apart)).mono fun _ m₃ kept g outside => ?_
      rw [kept g (by rw [dir]; exact outside)]
      refine Memory.release_other ?_
      rintro rfl
      exact outside i low named

/-- `freevm` writes the pages of the directory only. -/
theorem freevm_kept (own : OwnPages k m d) : Yields k (Vm.freevm d) m fun _ m' =>
    ∀ g, g ≠ d → (∀ i < NPDENTRIES, frameOf (m.word d i) ≠ some g) →
      (∀ pn < USERPAGES, ∀ w, m.mapping d pn = some w → w / PGSIZE ≠ g) → m'.word g = m.word g := by
  have inside : ∀ pn ∈ pagesBetween 0 KERNBASE, pn < USERPAGES := pagesBetween_user (Nat.le_refl KERNBASE)
  have distinct : (pagesBetween 0 KERNBASE).Nodup := List.nodup_range'
  unfold Vm.freevm
  by_cases zero : d = 0
  · rw [if_pos zero]
    exact Yields.panic _
  rw [if_neg zero]
  refine (deallocuvm_folds own (Nat.le_refl KERNBASE)).yields.bind fun _ m₁ known => ?_
  have same := known.2
  generalize pagesBetween 0 KERNBASE = pages at inside distinct same
  subst same
  obtain ⟨own₁, _, dir, _⟩ := own.unmapPages inside distinct
  have apart : ∀ i < NPDENTRIES, frameOf ((pages.foldl (Memory.unmapPage d) m).word d i) ≠ some d :=
    fun i index named => (own₁.table i index d named).2 rfl
  refine (freeTables_kept NPDENTRIES (Nat.le_of_eq (Nat.zero_add _)) own₁.dir apart).bind fun _ m₂ kept => ?_
  refine (Vm.kfree_yields d).mono fun _ m₃ known g other untabled unmapped => ?_
  subst known
  rw [Memory.release_other other, kept g (by rw [dir]; exact untabled)]
  exact own.unmapPages_kept inside (fun pn member w mapped => unmapped pn (inside pn member) w mapped) untabled

end Loop

/-! ## A small image -/

/-- A small kernel. -/
def smallKernel : KernelImage where
  data := 0x80102000
  last := 0x110000
  data_low := by decide
  data_aligned := by decide
  data_inside := by decide
  last_low := by decide

/-- A directory with one page table and two user pages. -/
def twoPages : Memory where
  word f i :=
    if f = 0x110 ∧ i = 0 then pteWord (0x111 * PGSIZE) (PTE_W + PTE_U)
    else if f = 0x111 ∧ i = 0 then pteWord (0x112 * PGSIZE) (PTE_W + PTE_U)
    else if f = 0x111 ∧ i = 1 then pteWord (0x113 * PGSIZE) (PTE_W + PTE_U)
    else 0
  free := [0x120, 0x121, 0x122]

/-- Its directory. -/
theorem twoPages_dir (i : Nat) : frameOf (twoPages.word 0x110 i) = if i = 0 then some 0x111 else none := by
  by_cases first : i = 0
  · subst first
    decide
  · rw [if_neg first]
    simp [twoPages, first, frameOf, present]

/-- Its user pages. -/
theorem twoPages_mapping (pn : Nat) : twoPages.mapping 0x110 pn =
    if pn = 0 then some (pteWord (0x112 * PGSIZE) (PTE_W + PTE_U))
    else if pn = 1 then some (pteWord (0x113 * PGSIZE) (PTE_W + PTE_U)) else none := by
  have block : pn / NPDENTRIES = 0 ↔ pn < NPDENTRIES := by
    unfold NPDENTRIES
    omega
  unfold Memory.mapping
  rw [twoPages_dir]
  by_cases inside : pn < NPDENTRIES
  · rw [if_pos (block.mpr inside), Nat.mod_eq_of_lt inside]
    by_cases first : pn = 0
    · subst first
      rfl
    · by_cases second : pn = 1
      · subst second
        rfl
      · simp [twoPages, first, second, present]
  · have later : pn ≠ 0 ∧ pn ≠ 1 := by
      unfold NPDENTRIES at inside
      omega
    rw [if_neg fun zero => inside (block.mp zero), if_neg later.1, if_neg later.2]

/-- Its user pages and their frames. -/
theorem twoPages_mapped {pn w : Nat} (mapped : twoPages.mapping 0x110 pn = some w) :
    pn = 0 ∧ w / PGSIZE = 0x112 ∨ pn = 1 ∧ w / PGSIZE = 0x113 := by
  rw [twoPages_mapping] at mapped
  split at mapped
  · rename_i first
    cases mapped
    exact .inl ⟨first, by decide⟩
  · split at mapped
    · rename_i second
      cases mapped
      exact .inr ⟨second, by decide⟩
    · contradiction

/-- Its pages are its own. -/
theorem twoPages_own : OwnPages smallKernel twoPages 0x110 := by
  have table : ∀ i t, frameOf (twoPages.word 0x110 i) = some t → i = 0 ∧ t = 0x111 := by
    intro i t named
    rw [twoPages_dir] at named
    split at named
    · rename_i first
      exact ⟨first, (Option.some.inj named).symm⟩
    · contradiction
  constructor
  · decide
  · intro i _ t named
    obtain ⟨_, rfl⟩ := table i t named
    decide
  · intro i _ j _ t named other
    exact (table i t named).1.trans (table j t other).1.symm
  · intro pn _ w mapped
    rcases twoPages_mapped mapped with ⟨_, frame⟩ | ⟨_, frame⟩
    · rw [frame]
      refine ⟨by decide, by decide, by decide, fun i _ named => ?_⟩
      exact absurd (table i _ named).2 (by decide)
    · rw [frame]
      refine ⟨by decide, by decide, by decide, fun i _ named => ?_⟩
      exact absurd (table i _ named).2 (by decide)
  · intro pn _ pn' _ w w' mapped mapped' same
    rcases twoPages_mapped mapped with ⟨rfl, frame⟩ | ⟨rfl, frame⟩ <;>
      rcases twoPages_mapped mapped' with ⟨rfl, frame'⟩ | ⟨rfl, frame'⟩
    · rfl
    · exact absurd (frame.symm.trans (same.trans frame')) (by decide)
    · exact absurd (frame.symm.trans (same.trans frame')) (by decide)
    · rfl

/-- The second page is unmapped. -/
theorem deallocuvm_agrees_second : Program.run (Memory.handler smallKernel) (Vm.deallocuvm 0x110 8000 PGSIZE) twoPages =
    .ok (PGSIZE, [1].foldl (Memory.unmapPage 0x110) twoPages) := by
  have user : 8000 ≤ KERNBASE := by decide
  obtain ⟨m', rfl, returned, _⟩ := @deallocuvm_agrees _ _ _ 8000 PGSIZE twoPages_own user
  exact returned

end Xv6
