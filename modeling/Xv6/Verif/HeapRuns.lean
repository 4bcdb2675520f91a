import Xv6.Verif.Allocation

/-!
# Runs of the allocator

What `malloc` and `free` keep over any history of calls, and when: a request must be one whose
rounding stays within a word, and more memory must be asked for with an argument that `sbrk` takes
for a size.
-/

namespace Xv6

namespace Malloc

variable {img : Image} {h h' : Heap} {blocks held : List Extent} {kernel : Kernel}
  {nunits nbytes : Nat} {s s' : State}

/-! ## What is to hold -/

/-- The free list: a circuit through `base` and the free blocks in the order of their addresses, no
two of them adjacent. -/
structure FreeList (img : Image) (h : Heap) (blocks : List Extent) : Prop where
  circuit : Circuit.Closed h.ptr img.base (blocks.map Extent.start)
  /-- `freep` points into it. -/
  freep : h.freep ∈ img.base :: blocks.map Extent.start
  /-- The blocks, within what `sbrk` gave. -/
  free : ∀ r ∈ blocks, IsBlock img h r
  /-- Their order. -/
  spaced : Extent.Spaced blocks

/-- The bytes of a block that is in use, with its header. -/
def Block.bytes (b : Block) : Extent := ⟨b.p - sizeofHeader, b.p + b.nbytes⟩

/-- The blocks in use can be used, and the free list is in order. -/
structure Usable (img : Image) (s : State) : Prop where
  /-- The bytes of a block and its header are within what `sbrk` gave. -/
  inside : ∀ b ∈ s.live, img.lo + sizeofHeader ≤ b.p ∧ b.p + b.nbytes ≤ s.heap.brk
  /-- The blocks have no bytes in common with each other and their headers. -/
  disjoint : s.live.Pairwise fun a b => Extent.Apart a.bytes b.bytes
  /-- After the first call there is a free list, whose blocks have no bytes in common with those in
  use. -/
  list : s.heap.freep = 0 ∨ ∃ blocks, FreeList img s.heap blocks ∧
    ∀ b ∈ s.live, ∀ r ∈ blocks, Extent.Apart b.bytes r

/-- Some block of the free list is large enough. -/
def Fits (h : Heap) (nunits : Nat) : Prop :=
  h.freep ≠ 0 ∧ ∃ k, nunits ≤ h.size (h.ptr^[k] h.freep)

/-- The calls that are answered rightly: the rounded size is a word, and some free block is large
enough or the bytes to be asked for are an `int`; or there is nothing to be had at all. -/
def Met (h : Heap) (nbytes : Nat) (kernel : Kernel) : Prop :=
  (nbytes + (sizeofHeader - 1) < 2 ^ 32 ∧
      (nunitsOf nbytes < 2 ^ 28 ∨ Fits h (nunitsOf nbytes))) ∨
    (¬ Fits h (nunitsOf nbytes) ∧ Refuses kernel h (nunitsOf nbytes))

/-! ## The invariant of a run -/

/-- The extent of a block in use. -/
def Block.extent (b : Block) : Extent :=
  ⟨b.p - sizeofHeader, b.p - sizeofHeader + sizeofHeader * nunitsOf b.nbytes⟩

/-- What every state of a run keeps: nothing has been allocated yet, or the heap is tidy. -/
def Kept (img : Image) (s : State) : Prop :=
  (s.heap.freep = 0 ∧ s.heap.brk = img.lo ∧ s.live = []) ∨
    ((∀ b ∈ s.live, b.nbytes + (sizeofHeader - 1) < 2 ^ 32) ∧
      ∃ blocks, Tidy img s.heap blocks (s.live.map Block.extent))

/-- A block has room for the bytes that were asked for. -/
theorem room (word : nbytes + (sizeofHeader - 1) < 2 ^ 32) :
    nbytes + sizeofHeader ≤ sizeofHeader * nunitsOf nbytes := by
  simp only [nunitsOf, add32, sizeofHeader] at word ⊢
  rw [Nat.mod_eq_of_lt word]
  omega

/-- The bytes of a block are within its extent. -/
theorem Block.bytes_le {b : Block} (word : b.nbytes + (sizeofHeader - 1) < 2 ^ 32)
    (header : sizeofHeader ≤ b.p) : b.bytes.stop ≤ b.extent.stop := by
  have fits := room word
  simp only [Block.bytes, Block.extent]
  omega

/-- A block in use does not begin at zero. -/
theorem Tidy.header_le {live : List Block} (tidy : Tidy img h blocks (live.map Block.extent))
    {b : Block} (member : b ∈ live) : img.lo + sizeofHeader ≤ b.p := by
  have above : img.lo ≤ b.p - sizeofHeader := (tidy.used _ (List.mem_map_of_mem member)).above
  have below := img.base_below
  have positive := img.base_pos
  omega

/-- The header of a block in use is before what `malloc` returned. -/
theorem Tidy.extent_start {live : List Block} (tidy : Tidy img h blocks (live.map Block.extent))
    {b : Block} (member : b ∈ live) : b.extent.start + sizeofHeader = b.p := by
  have header := tidy.header_le member
  simp only [Block.extent]
  omega

/-- What is kept makes the blocks usable. -/
theorem Kept.usable (kept : Kept img s) : Usable img s := by
  rcases kept with ⟨fresh, _, empty⟩ | ⟨words, blocks, tidy⟩
  · refine ⟨?_, ?_, Or.inl fresh⟩
    · rw [empty]
      exact fun b member => absurd member List.not_mem_nil
    · rw [empty]
      exact List.Pairwise.nil
  · have stop : ∀ b ∈ s.live, b.bytes.stop ≤ b.extent.stop := fun b member =>
      Block.bytes_le (words b member) (Nat.le_trans (Nat.le_add_left _ _) (tidy.header_le member))
    refine ⟨fun b member => ⟨tidy.header_le member, ?_⟩, ?_, Or.inr ⟨blocks, ?_, ?_⟩⟩
    · exact Nat.le_trans (stop b member) (tidy.used _ (List.mem_map_of_mem member)).below
    · refine (List.pairwise_map.mp tidy.disjoint).imp_of_mem fun memberA memberB apart => ?_
      have partB := apart.part (b := Block.bytes _) (Nat.le_refl _) (stop _ memberB)
      exact (partB.symm.part (b := Block.bytes _) (Nat.le_refl _) (stop _ memberA)).symm
    · exact ⟨tidy.circuit, tidy.freep, tidy.free, tidy.spaced⟩
    · intro b member r inBlocks
      have apart := tidy.apart _ (List.mem_map_of_mem member) r inBlocks
      exact (apart.symm.part (b := b.bytes) (Nat.le_refl _) (stop b member)).symm

/-- On a tidy heap a block of the free list is large enough if a free block is. -/
theorem Tidy.fits_iff (tidy : Tidy img h blocks held) (positive : 1 ≤ nunits) :
    Fits h nunits ↔ ∃ r ∈ blocks, nunits ≤ h.size r.start := by
  constructor
  · rintro ⟨_, k, large⟩
    obtain ⟨r, member, same⟩ :=
      tidy.block_of_large positive (tidy.circuit.iterate_mem tidy.freep k) large
    exact ⟨r, member, same ▸ large⟩
  · rintro ⟨r, member, large⟩
    obtain ⟨k, reached⟩ := tidy.circuit.reaches tidy.freep
      (List.mem_cons_of_mem _ (List.mem_map_of_mem member))
    exact ⟨tidy.freep_ne_zero, k, reached ▸ large⟩

/-! ## `malloc` -/

/-- What a call of `malloc` that is answered rightly returns. -/
theorem Tidy.malloc_loop (tidy : Tidy img h blocks held)
    (met : (nbytes + (sizeofHeader - 1) < 2 ^ 32 ∧
        (nunitsOf nbytes < 2 ^ 28 ∨ ∃ r ∈ blocks, nunitsOf nbytes ≤ h.size r.start)) ∨
      ((¬ ∃ r ∈ blocks, nunitsOf nbytes ≤ h.size r.start) ∧
        Refuses kernel h (nunitsOf nbytes))) :
    ∃ count result,
      (∀ fuel, mallocLoop kernel (nunitsOf nbytes) (fuel + count) h h.freep (h.ptr h.freep) =
        some result) ∧
      (result = (0, h) ∨
        nbytes + (sizeofHeader - 1) < 2 ^ 32 ∧ Taken img held (nunitsOf nbytes) result) := by
  have positive : 1 ≤ nunitsOf nbytes := Nat.le_add_left 1 _
  by_cases fits : ∃ r ∈ blocks, nunitsOf nbytes ≤ h.size r.start
  · obtain ⟨count, result, taken, returned⟩ := tidy.scan_fits kernel positive fits
    have word := met.elim (fun given => given.1) fun given => absurd fits given.1
    exact ⟨count, result, returned, Or.inr ⟨word, taken⟩⟩
  · have small : ∀ r ∈ blocks, h.size r.start < nunitsOf nbytes := fun r member =>
      Nat.lt_of_not_le fun large => fits ⟨r, member, large⟩
    by_cases refuses : Refuses kernel h (nunitsOf nbytes)
    · obtain ⟨count, returned⟩ := tidy.alloc_refused positive small refuses
      exact ⟨count, (0, h), returned, Or.inl rfl⟩
    · obtain ⟨word, bound⟩ := met.resolve_right fun given => refuses given.2
      obtain ⟨count, result, taken, returned⟩ :=
        tidy.alloc_granted positive small (bound.resolve_right fits) refuses
      exact ⟨count, result, returned, Or.inr ⟨word, taken⟩⟩

/-- The list that holds nothing but `base` is tidy. -/
theorem startList_tidy (brk : h.brk = img.lo) : Tidy img (startList img.base h) [] [] := by
  have baseLt : img.base < 2 ^ 32 := by
    have below := img.base_below
    have lo := img.lo_lt
    omega
  have ptr : (startList img.base h).ptr img.base = img.base :=
    (Heap.ptr_setSize _ img.base 0).trans (Heap.ptr_setPtr h img.base baseLt)
  refine ⟨⟨ptr, trivial⟩, List.mem_singleton.mpr rfl, ?_, by simp, List.Pairwise.nil, by simp,
    by simp, List.Pairwise.nil, ?_, ?_⟩
  · exact Heap.size_setSize _ img.base (by decide)
  · exact Nat.le_of_eq brk.symm
  · exact brk ▸ img.lo_lt

/-- What the kernel refuses depends on the break only. -/
theorem Refuses.congr (refuses : Refuses kernel h nunits) (brk : h'.brk = h.brk) :
    Refuses kernel h' nunits := by
  rw [Refuses, sbrk] at refuses ⊢
  rw [brk]
  by_cases agreed : kernel h.brk (sbrkArg (asked nunits)) = true ∧
      0 ≤ (h.brk : Int) + sbrkArg (asked nunits) ∧
      (h.brk : Int) + sbrkArg (asked nunits) < 2 ^ 32
  · rw [if_pos agreed] at refuses ⊢
    have isFailed := congrArg Prod.fst refuses
    have stays := congrArg (fun result => result.2.brk) refuses
    simp only at isFailed stays
    rw [stays, isFailed, ← isFailed, ← brk]
  · rw [if_neg agreed]

/-- The result of a call of `malloc`, and what is kept. -/
theorem Kept.malloc (kept : Kept img s) (met : Met s.heap nbytes kernel) :
    ∃ count result, (∀ fuel, Malloc.malloc img.base kernel (fuel + count) s.heap nbytes = some result) ∧
      Kept img ⟨result.2, if result.1 = 0 then s.live else ⟨result.1, nbytes⟩ :: s.live⟩ := by
  have positive : 1 ≤ nunitsOf nbytes := Nat.le_add_left 1 _
  -- the heap with a free list, and the condition on it
  obtain ⟨h, blocks, same, words, tidy, met'⟩ : ∃ h blocks,
      (if s.heap.freep = 0 then startList img.base s.heap else s.heap) = h ∧
      (∀ b ∈ s.live, b.nbytes + (sizeofHeader - 1) < 2 ^ 32) ∧
      Tidy img h blocks (s.live.map Block.extent) ∧
      ((nbytes + (sizeofHeader - 1) < 2 ^ 32 ∧
          (nunitsOf nbytes < 2 ^ 28 ∨ ∃ r ∈ blocks, nunitsOf nbytes ≤ h.size r.start)) ∨
        ((¬ ∃ r ∈ blocks, nunitsOf nbytes ≤ h.size r.start) ∧
          Refuses kernel h (nunitsOf nbytes))) := by
    rcases kept with ⟨fresh, brk, empty⟩ | ⟨words, blocks, tidy⟩
    · refine ⟨_, [], if_pos fresh, by simp [empty], ?_, ?_⟩
      · rw [empty]
        exact startList_tidy brk
      · rcases met with ⟨word, bound⟩ | ⟨_, refuses⟩
        · exact Or.inl ⟨word, Or.inl (bound.resolve_right fun fits => fits.1 fresh)⟩
        · exact Or.inr ⟨by simp, refuses.congr rfl⟩
    · refine ⟨_, blocks, if_neg tidy.freep_ne_zero, words, tidy, ?_⟩
      rw [← tidy.fits_iff positive]
      exact met
  obtain ⟨count, result, returned, outcome⟩ := tidy.malloc_loop met'
  refine ⟨count, result, fun fuel => ?_, ?_⟩
  · rw [Malloc.malloc, same]
    exact returned fuel
  · rcases outcome with rfl | ⟨word, b, blocks', isBlock, stop, tidy'⟩
    · exact Or.inr ⟨words, blocks, tidy⟩
    · have notZero : result.1 ≠ 0 := by
        rw [isBlock, sizeofHeader]
        omega
      have extent : Block.extent ⟨result.1, nbytes⟩ = b := by
        simp only [Block.extent, isBlock, Nat.add_sub_cancel, ← stop]
      show Kept img ⟨result.2, if result.1 = 0 then s.live else ⟨result.1, nbytes⟩ :: s.live⟩
      rw [if_neg notZero]
      refine Or.inr ⟨fun c member => ?_, blocks', ?_⟩
      · rcases List.mem_cons.mp member with rfl | old
        · exact word
        · exact words c old
      · show Tidy img result.2 blocks' (Block.extent ⟨result.1, nbytes⟩ :: s.live.map Block.extent)
        rw [extent]
        exact tidy'

/-- More rounds do not change what `malloc` does. -/
theorem malloc_more {base fuel : Nat} {result : Nat × Heap}
    (returned : Malloc.malloc base kernel fuel h nbytes = some result) (more : Nat) :
    Malloc.malloc base kernel (fuel + more) h nbytes = some result :=
  mallocLoop_more returned more

/-! ## `free` -/

/-- The result of a call of `free` for a block in use, and what is kept. -/
theorem Kept.free (kept : Kept img s) {b : Block} (member : b ∈ s.live) :
    ∃ count heap, (∀ fuel, Malloc.free (count + fuel) s.heap b.p = some heap) ∧
      Kept img ⟨heap, s.live.erase b⟩ := by
  rcases kept with ⟨_, _, empty⟩ | ⟨words, blocks, tidy⟩
  · rw [empty] at member
    exact absurd member List.not_mem_nil
  · have perm : (s.live.map Block.extent).Perm (b.extent :: (s.live.erase b).map Block.extent) :=
      (List.perm_cons_erase member).map Block.extent
    obtain ⟨heap, blocks', freed, tidy', _⟩ :=
      (tidy.perm perm).free_spec (Nat.lt_succ_self blocks.length)
    rw [tidy.extent_start member] at freed
    refine ⟨blocks.length + 1, heap, fun fuel => free_more freed fuel, Or.inr ⟨?_, blocks', tidy'⟩⟩
    exact fun c inErased => words c (List.mem_of_mem_erase inErased)

/-! ## Writes -/

/-- A header outside the program's memory is kept by its writes. -/
theorem sameHeader_of_outside {live : List Block} {mem : Bytes} {x : Nat}
    (same : ∀ a, ¬ img.Owns live a → mem a = h.mem a)
    (outside : ∀ a, x ≤ a → a < x + sizeofHeader → ¬ img.Owns live a) :
    SameHeader h { h with mem := mem } x := by
  simp only [sizeofHeader] at outside
  refine ⟨load32_congr fun a above below => same a (outside a above (by omega)), ?_⟩
  exact load32_congr fun a above below => same a (outside a (by omega) (by omega))

/-- What the program writes into its memory changes nothing of what is kept. -/
theorem Kept.write (kept : Kept img s) {mem : Bytes}
    (same : ∀ a, ¬ img.Owns s.live a → mem a = s.heap.mem a) :
    Kept img ⟨{ s.heap with mem := mem }, s.live⟩ := by
  rcases kept with fresh | ⟨words, blocks, tidy⟩
  · exact Or.inl fresh
  · have stop : ∀ b ∈ s.live, b.p + b.nbytes ≤ b.extent.stop := fun b member =>
      Block.bytes_le (words b member) (Nat.le_trans (Nat.le_add_left _ _) (tidy.header_le member))
    have below := img.base_below
    -- a header of a block has no byte in common with the bytes of a block that is apart from it
    have outside : ∀ r, IsBlock img s.heap r →
        (∀ b ∈ s.live, b.extent ≠ r → Extent.Apart b.extent r) →
        ∀ a, r.start ≤ a → a < r.start + sizeofHeader → ¬ img.Owns s.live a := by
      intro r block apart a above under owns
      have header := block.header
      have overLo := block.above
      rcases owns with ⟨b, member, first, last⟩ | ⟨underLo, _⟩
      · have start := tidy.extent_start member
        have bytes := stop b member
        by_cases own : b.extent = r
        · rw [own] at start
          omega
        · have apartB := apart b member own
          simp only [Extent.Apart] at apartB
          omega
      · omega
    refine Or.inr ⟨words, blocks, tidy.congr rfl rfl ?_ fun r member => ?_⟩
    · refine sameHeader_of_outside same fun a above under owns => ?_
      rcases owns with ⟨b, member, first, _⟩ | ⟨_, notBase⟩
      · have header := tidy.header_le member
        omega
      · exact notBase ⟨above, under⟩
    · refine sameHeader_of_outside same ?_
      rcases List.mem_append.mp member with inBlocks | inHeld
      · exact outside r (tidy.free r inBlocks) fun b inLive _ =>
          tidy.apart _ (List.mem_map_of_mem inLive) r inBlocks
      · refine outside r (tidy.used r inHeld) fun b inLive other => ?_
        exact tidy.disjoint.forall (List.mem_map_of_mem inLive) inHeld other

/-! ## Runs -/

/-- One step keeps what is kept. -/
theorem Kept.step (kept : Kept img s) (step : Step Met img s s') : Kept img s' := by
  cases step with
  | @malloc nbytes fuel p kernel heap _ meets returned =>
    obtain ⟨count, result, always, kept'⟩ := kept.malloc meets
    have same := (malloc_more returned count).symm.trans (always fuel)
    rw [← Option.some.inj same] at kept'
    exact kept'
  | @free b fuel heap member returned =>
    obtain ⟨count, result, always, kept'⟩ := kept.free member
    have more := free_more returned count
    rw [Nat.add_comm] at more
    rw [Option.some.inj (more.symm.trans (always fuel))]
    exact kept'
  | write same => exact kept.write same

/-- Every state of a run keeps it. -/
theorem Run.kept (run : Run Met img s) : Kept img s := by
  induction run with
  | start mem => exact Or.inl ⟨rfl, rfl, rfl⟩
  | step _ step ih => exact ih.step step

/-- In a run whose requests can be answered rightly the blocks in use can be used and the free list
is in order, and every further call comes to an end. -/
theorem malloc_blocks_usable (run : Run Met img s) :
    Usable img s ∧
      (∀ nbytes kernel, nbytes < 2 ^ 32 → Met s.heap nbytes kernel →
        ∃ fuel, (Malloc.malloc img.base kernel fuel s.heap nbytes).isSome) ∧
      ∀ b ∈ s.live, ∃ fuel, (Malloc.free fuel s.heap b.p).isSome := by
  refine ⟨run.kept.usable, fun nbytes kernel _ met => ?_, fun b member => ?_⟩
  · obtain ⟨count, result, always, _⟩ := run.kept.malloc met
    exact ⟨0 + count, by rw [always 0]; rfl⟩
  · obtain ⟨count, heap, always, _⟩ := run.kept.free member
    exact ⟨count + 0, by rw [always 0]; rfl⟩

/-- A process with its `base` at 100 and its break at the end of its first page. -/
def firstPage : Image := ⟨100, 4096, by decide, by decide, by decide⟩

/-- A kernel that always has memory. -/
def generous : Kernel := fun _ _ => true

/-- Two requests in a new process, of which the first block is freed. -/
theorem malloc_blocks_usable_freed :
    ∃ s, Run Met firstPage s ∧ s.live = [⟨36552, 200⟩] ∧ Usable firstPage s := by
  have value : ((Malloc.malloc 100 generous 3 ⟨fun _ => 0, 0, 4096⟩ 100).bind fun first =>
      (Malloc.malloc 100 generous 3 first.2 200).bind fun second =>
        (Malloc.free 3 second.2 first.1).map fun _ => (first.1, second.1)) = some (36760, 36552) := by decide +kernel
  obtain ⟨⟨p, heap⟩, returned, rest⟩ := Option.bind_eq_some_iff.mp value
  obtain ⟨⟨q, heap'⟩, returned', rest⟩ := Option.bind_eq_some_iff.mp rest
  obtain ⟨heap'', freed, same⟩ := Option.map_eq_some_iff.mp rest
  cases same
  have met : ∀ {h : Heap} {nbytes : Nat}, nbytes < 1000 → Met h nbytes generous := fun small =>
    .inl ⟨by unfold sizeofHeader; omega, .inl (by unfold nunitsOf add32 sizeofHeader; omega)⟩
  have run : Run Met firstPage _ := .step (.step (.step (.start _) (.malloc (by decide) (met (by decide)) returned))
    (.malloc (by decide) (met (by decide)) returned')) (.free (b := ⟨36760, 100⟩) (.tail _ (.head _)) freed)
  exact ⟨_, run, rfl, (malloc_blocks_usable run).1⟩

/-! ## The largest request -/

/-- The rounded size of the largest request is a single unit, and the block at the end of the new
memory has no bytes at all. -/
theorem malloc_blocks_not_usable :
    ¬ ∀ (img : Image) (s : State), Run (fun _ _ _ => True) img s → Usable img s := by
  intro usable
  have value : (Malloc.malloc 100 generous 3 ⟨fun _ => 0, 0, 4096⟩ (2 ^ 32 - 1)).map
      (fun result => (result.1, result.2.brk)) = some (36864, 36864) := by decide +kernel
  obtain ⟨result, returned, same⟩ := Option.map_eq_some_iff.mp value
  obtain ⟨p, heap⟩ := result
  obtain ⟨rfl, atBreak⟩ := Prod.mk.inj same
  have inside := (usable firstPage _ (.step (.start _)
    (.malloc (by decide) trivial returned))).inside ⟨36864, 2 ^ 32 - 1⟩ (List.mem_cons_self ..)
  have bound : 36864 + (2 ^ 32 - 1) ≤ heap.brk := inside.2
  rw [show heap.brk = 36864 from atBreak] at bound
  omega

end Malloc

end Xv6
