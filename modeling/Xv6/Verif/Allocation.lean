import Xv6.Verif.HeapList

/-!
# Allocation from the free list

`malloc` goes once around the free list. It takes a block that is large enough, or the tail of one;
where there is none it gets more memory and takes from that.
-/

namespace Xv6

namespace Malloc

variable {img : Image} {h h' : Heap} {blocks held : List Extent} {kernel : Kernel} {nunits : Nat}

/-! ## Taking a block -/

/-- What a successful allocation leaves: one more block is in use, of so many units. -/
def Taken (img : Image) (held : List Extent) (nunits : Nat) (result : Nat × Heap) : Prop :=
  ∃ b blocks, result.1 = b.start + sizeofHeader ∧ b.stop = b.start + sizeofHeader * nunits ∧
    Tidy img result.2 blocks (b :: held)

/-- The starts of the extents of the free list are distinct. -/
theorem Tidy.nodup (tidy : Tidy img h blocks held) :
    (img.base :: blocks.map Extent.start).Nodup :=
  tidy.sorted.imp Nat.ne_of_lt

/-- The header before a free block is that of the extent before it in the list. -/
theorem Tidy.prev_eq {front back : List Extent} {r : Extent}
    (tidy : Tidy img h (front ++ r :: back) held) {prev : Nat}
    (member : prev ∈ img.base :: (front ++ r :: back).map Extent.start)
    (link : h.ptr prev = r.start) :
    ∃ front' q, img.root :: front = front' ++ [q] ∧ q.start = prev := by
  obtain ⟨front', q, isLast⟩ : ∃ front' q, img.root :: front = front' ++ [q] :=
    ⟨_, _, (List.dropLast_append_getLast (List.cons_ne_nil img.root front)).symm⟩
  refine ⟨front', q, isLast, ?_⟩
  have split : img.root :: (front ++ r :: back) = front' ++ q :: (r :: back) := by
    rw [← List.cons_append, isLast, List.append_assoc]
    rfl
  have follow : Circuit.Follow h.ptr
      ((img.root :: (front ++ r :: back)).map Extent.start) img.base := tidy.circuit
  have memQ : q.start ∈ (img.root :: (front ++ r :: back)).map Extent.start := by
    apply List.mem_map_of_mem
    rw [split]
    exact List.mem_append_right _ (List.mem_cons_self ..)
  rw [split, List.map_append, List.map_cons] at follow
  have linkQ : h.ptr q.start = r.start := follow.next_eq
  exact tidy.circuit.injective tidy.nodup memQ member (linkQ.trans link.symm)

/-- A block of just the right size is unlinked. -/
theorem Tidy.take_whole {front back : List Extent} {r : Extent}
    (tidy : Tidy img h (front ++ r :: back) held) {prev : Nat}
    (member : prev ∈ img.base :: (front ++ r :: back).map Extent.start)
    (link : h.ptr prev = r.start) :
    Tidy img { h.setPtr prev (h.ptr r.start) with freep := prev } (front ++ back) (r :: held) := by
  obtain ⟨front', q, isLast, isPrev⟩ := tidy.prev_eq member link
  have split : img.root :: (front ++ r :: back) = front' ++ q :: (r :: back) := by
    rw [← List.cons_append, isLast, List.append_assoc]
    rfl
  have split' : img.root :: (front ++ back) = front' ++ q :: back := by
    rw [← List.cons_append, isLast, List.append_assoc]
    rfl
  have sublist : (front ++ back).Sublist (front ++ r :: back) :=
    (List.Sublist.refl front).append (List.sublist_cons_self r back)
  have blockR := tidy.free r (List.mem_append_right _ (List.mem_cons_self ..))
  have spaced := tidy.spacedRoot
  rw [split] at spaced
  have memQ : q ∈ img.root :: (front ++ r :: back) := by
    rw [split]
    exact List.mem_append_right _ (List.mem_cons_self ..)
  have clearOther : ∀ x ∈ front' ++ (r :: back), Clear prev x.start := by
    intro x inOther
    have inNodes : x ∈ img.root :: (front ++ r :: back) := by
      rw [split]
      rcases List.mem_append.mp inOther with inFront | inBack
      · exact List.mem_append_left _ inFront
      · exact List.mem_append_right _ (List.mem_cons_of_mem q inBack)
    rw [← isPrev]
    rcases List.mem_append.mp inOther with inFront | inBack
    · exact Or.inr (tidy.clear_of_lt inNodes memQ (spaced.front_lt inFront))
    · have after := (List.pairwise_cons.mp (List.pairwise_append.mp spaced).2.1).1 x inBack
      exact Or.inl (tidy.clear_of_lt memQ inNodes after)
  have next : h.ptr r.start = (back.map Extent.start).headD img.base := by
    have follow : Circuit.Follow h.ptr
        ((img.root :: (front ++ r :: back)).map Extent.start) img.base := tidy.circuit
    rw [← List.cons_append, List.map_append, List.map_cons] at follow
    exact follow.next_eq
  have nextLt : (back.map Extent.start).headD img.base < 2 ^ 32 := tidy.headD_lt fun x inBack =>
    List.mem_cons_of_mem _ (List.mem_append_right _ (List.mem_cons_of_mem r inBack))
  have sameOther : ∀ x ∈ front' ++ (r :: back),
      SameHeader h (h.setPtr prev (h.ptr r.start)) x.start := fun x inOther =>
    h.setPtr_same _ (clearOther x inOther)
  have sameSize : ∀ x ∈ img.root :: (front ++ r :: back),
      (h.setPtr prev (h.ptr r.start)).size x.start = h.size x.start := by
    intro x inNodes
    rw [split] at inNodes
    rcases List.mem_append.mp inNodes with inFront | inRest
    · exact (sameOther x (List.mem_append_left _ inFront)).size
    · rcases List.mem_cons.mp inRest with rfl | inBack
      · rw [isPrev]
        exact Heap.size_setPtr ..
      · exact (sameOther x (List.mem_append_right _ inBack)).size
  refine ⟨?_, ?_, ?_, ?_, tidy.spaced.sublist sublist, ?_, ?_, ?_, tidy.grown, tidy.brk⟩
  · have before : Circuit.Follow h.ptr (front'.map Extent.start ++
        (q.start :: [r.start] ++ back.map Extent.start)) img.base := by
      have whole : Circuit.Follow h.ptr ((img.root :: (front ++ r :: back)).map Extent.start)
          img.base := tidy.circuit
      rw [split] at whole
      simpa using whole
    have new : Circuit.Follow (h.setPtr prev (h.ptr r.start)).ptr [q.start]
        ((back.map Extent.start).headD img.base) := by
      refine ⟨?_, trivial⟩
      rw [isPrev, next]
      exact Heap.ptr_setPtr h prev nextLt
    have after := before.exchange (fun y inOld => ?_) new
    · show Circuit.Follow (h.setPtr prev (h.ptr r.start)).ptr
        ((img.root :: (front ++ back)).map Extent.start) img.base
      rw [split']
      simpa using after
    · rw [← List.map_append] at inOld
      obtain ⟨x, inList, rfl⟩ := List.mem_map.mp inOld
      refine (sameOther x ?_).ptr
      rcases List.mem_append.mp inList with inFront | inBack
      · exact List.mem_append_left _ inFront
      · exact List.mem_append_right _ (List.mem_cons_of_mem r inBack)
  · show prev ∈ (img.root :: (front ++ back)).map Extent.start
    rw [split', ← isPrev]
    exact List.mem_map_of_mem (List.mem_append_right _ (List.mem_cons_self ..))
  · exact (sameSize img.root (List.mem_cons_self ..)).trans tidy.base
  · intro x inBlocks
    have inOld := sublist.subset inBlocks
    exact (tidy.free x inOld).congr (sameSize x (List.mem_cons_of_mem _ inOld)) (Nat.le_refl _)
  · intro x inHeld
    rcases List.mem_cons.mp inHeld with rfl | inOld
    · exact blockR.congr (sameSize x (List.mem_cons_of_mem _
        (List.mem_append_right _ (List.mem_cons_self ..)))) (Nat.le_refl _)
    · have used := tidy.used x inOld
      refine used.congr (h.setPtr_same _ ?_).size (Nat.le_refl _)
      rw [← isPrev]
      exact (tidy.clear_node used (tidy.apart x inOld) memQ).symm
  · intro a inHeld x inBlocks
    rcases List.mem_cons.mp inHeld with rfl | inOld
    · exact tidy.spaced.apart inBlocks
    · exact tidy.apart a inOld x (sublist.subset inBlocks)
  · refine List.pairwise_cons.mpr ⟨fun a inHeld => ?_, tidy.disjoint⟩
    exact (tidy.apart a inHeld r (List.mem_append_right _ (List.mem_cons_self ..))).symm

/-- `freep` may point anywhere into the free list. -/
theorem Tidy.moveFreep (tidy : Tidy img h blocks held) {p : Nat}
    (member : p ∈ img.base :: blocks.map Extent.start) :
    Tidy img { h with freep := p } blocks held where
  circuit := tidy.circuit
  freep := member
  base := tidy.base
  free r inBlocks := (tidy.free r inBlocks).congr rfl (Nat.le_refl _)
  spaced := tidy.spaced
  used r inHeld := (tidy.used r inHeld).congr rfl (Nat.le_refl _)
  apart := tidy.apart
  disjoint := tidy.disjoint
  grown := tidy.grown
  brk := tidy.brk

/-- The tail of a larger block is cut off. -/
theorem Tidy.take_tail {front back : List Extent} {r : Extent}
    (tidy : Tidy img h (front ++ r :: back) held) (positive : 1 ≤ nunits) {left q : Nat}
    (someLeft : 1 ≤ left) (size : h.size r.start = left + nunits)
    (quot : r.start + sizeofHeader * left = q) :
    Tidy img ((h.setSize r.start left).setSize q nunits) (front ++ ⟨r.start, q⟩ :: back)
      (⟨q, r.stop⟩ :: held) := by
  have memR : r ∈ front ++ r :: back := List.mem_append_right _ (List.mem_cons_self ..)
  have blockR := tidy.free r memR
  have sizedR := blockR.sized
  have stopLt := Nat.lt_of_le_of_lt blockR.below tidy.brk
  simp only [sizeofHeader, size] at sizedR
  have leftLt : left < 2 ^ 32 := by omega
  have nunitsLt : nunits < 2 ^ 32 := by omega
  simp only [sizeofHeader] at quot
  have clearQR : Clear q r.start := Or.inr (by simp only [sizeofHeader]; omega)
  generalize new : (h.setSize r.start left).setSize q nunits = h₂
  have sizeR : h₂.size r.start = left := by
    rw [← new, (Heap.setSize_same _ nunits clearQR).size, Heap.size_setSize _ _ leftLt]
  have sizeQ : h₂.size q = nunits := by
    rw [← new, Heap.size_setSize _ _ nunitsLt]
  have ptrR : h₂.ptr r.start = h.ptr r.start := by
    rw [← new, (Heap.setSize_same _ nunits clearQR).ptr, Heap.ptr_setSize]
  have brk : h₂.brk = h.brk := by rw [← new]; rfl
  have same : ∀ x, Clear r.start x → Clear q x → SameHeader h h₂ x := by
    intro x ofR ofQ
    rw [← new]
    exact (Heap.setSize_same h left ofR).trans (Heap.setSize_same _ nunits ofQ)
  have sameBlock : ∀ x, IsBlock img h x → Extent.Apart r x → SameHeader h h₂ x.start := by
    intro x block apart
    refine same _ (blockR.clear block apart) ?_
    have header := block.header
    simp only [Extent.Apart, Clear, sizeofHeader] at apart header ⊢
    omega
  have sameBase : SameHeader h h₂ img.base := by
    refine same _ blockR.clear_base.symm (Or.inr ?_)
    have clear := Nat.le_trans img.base_below blockR.above
    omega
  have starts : (front ++ ⟨r.start, q⟩ :: back).map Extent.start =
      (front ++ r :: back).map Extent.start := by simp
  have blockOld : ∀ x ∈ front ++ back, SameHeader h h₂ x.start ∧ IsBlock img h₂ x := by
    intro x inOld
    have inBlocks : x ∈ front ++ r :: back := by
      rcases List.mem_append.mp inOld with inFront | inBack
      · exact List.mem_append_left _ inFront
      · exact List.mem_append_right _ (List.mem_cons_of_mem r inBack)
    have block := tidy.free x inBlocks
    have kept := sameBlock x block (tidy.spaced.apart inOld)
    exact ⟨kept, block.congr kept.size (Nat.le_of_eq brk.symm)⟩
  have cases : ∀ x ∈ front ++ ⟨r.start, q⟩ :: back, x ∈ front ++ back ∨ x = ⟨r.start, q⟩ := by
    intro x inBlocks
    rcases List.mem_append.mp inBlocks with inFront | inRest
    · exact Or.inl (List.mem_append_left _ inFront)
    · exact (List.mem_cons.mp inRest).symm.imp_left fun inBack => List.mem_append_right _ inBack
  have above := blockR.above
  refine ⟨?_, ?_, ?_, ?_, ?_, ?_, ?_, ?_, ?_, ?_⟩
  · rw [starts]
    refine Circuit.Follow.congr tidy.circuit fun x inNodes => ?_
    rcases List.mem_cons.mp inNodes with rfl | inStarts
    · exact sameBase.ptr
    · obtain ⟨y, inBlocks, rfl⟩ := List.mem_map.mp inStarts
      by_cases isR : y = r
      · rw [isR]
        exact ptrR
      · refine (blockOld y ?_).1.ptr
        rcases List.mem_append.mp inBlocks with inFront | inRest
        · exact List.mem_append_left _ inFront
        · exact List.mem_append_right _ ((List.mem_cons.mp inRest).resolve_left isR)
  · rw [starts, ← new]
    exact tidy.freep
  · exact sameBase.size.trans tidy.base
  · intro x inBlocks
    rcases cases x inBlocks with inOld | rfl
    · exact (blockOld x inOld).2
    · refine ⟨?_, ?_, above, ?_⟩
      · show r.start + sizeofHeader * h₂.size r.start = q
        rw [sizeR]
        exact quot
      · show r.start < q
        omega
      · show q ≤ h₂.brk
        have below := blockR.below
        omega
  · refine tidy.spaced.shrink rfl ?_
    show q ≤ r.stop
    omega
  · intro x inHeld
    rcases List.mem_cons.mp inHeld with rfl | inOld
    · refine ⟨?_, ?_, ?_, brk ▸ blockR.below⟩
      · show q + sizeofHeader * h₂.size q = r.stop
        rw [sizeQ]
        simp only [sizeofHeader]
        omega
      · show q < r.stop
        omega
      · show img.lo ≤ q
        omega
    · have used := tidy.used x inOld
      exact used.congr (sameBlock x used (tidy.apart x inOld r memR).symm).size
        (Nat.le_of_eq brk.symm)
  · intro a inHeld x inBlocks
    rcases List.mem_cons.mp inHeld with rfl | inOld
    · rcases cases x inBlocks with inOld | rfl
      · have apart := (tidy.spaced.apart inOld).symm
        exact (apart.part (b := ⟨q, r.stop⟩) (by show r.start ≤ q; omega) (Nat.le_refl _)).symm
      · exact Or.inr (Nat.le_refl q)
    · rcases cases x inBlocks with inFree | rfl
      · refine tidy.apart a inOld x ?_
        rcases List.mem_append.mp inFree with inFront | inBack
        · exact List.mem_append_left _ inFront
        · exact List.mem_append_right _ (List.mem_cons_of_mem r inBack)
      · exact (tidy.apart a inOld r memR).part (Nat.le_refl _) (by show q ≤ r.stop; omega)
  · refine List.pairwise_cons.mpr ⟨fun a inHeld => ?_, tidy.disjoint⟩
    exact ((tidy.apart a inHeld r memR).part (b := ⟨q, r.stop⟩) (by show r.start ≤ q; omega)
      (Nat.le_refl _)).symm
  · exact brk ▸ tidy.grown
  · exact brk ▸ tidy.brk

/-- A block that is large enough is taken, or its tail. -/
theorem Tidy.take_spec (tidy : Tidy img h blocks held) {r : Extent} (free : r ∈ blocks) {prev : Nat}
    (member : prev ∈ img.base :: blocks.map Extent.start) (link : h.ptr prev = r.start)
    (positive : 1 ≤ nunits) (large : nunits ≤ h.size r.start) :
    Taken img held nunits (take h prev r.start nunits) := by
  obtain ⟨front, back, rfl⟩ := List.append_of_mem free
  have block := tidy.free r free
  have sized := block.sized
  have stopLt := Nat.lt_of_le_of_lt block.below tidy.brk
  simp only [sizeofHeader] at sized
  rw [take]
  by_cases whole : h.size r.start = nunits
  · rw [if_pos whole]
    refine ⟨r, front ++ back, ?_, ?_, tidy.take_whole member link⟩
    · exact plus_eq (by simp only [sizeofHeader]) (by simp only [sizeofHeader]; omega)
    · simp only [sizeofHeader]
      omega
  · rw [if_neg whole]
    generalize rest : h.size r.start - nunits = left
    have stop : r.start + sizeofHeader * left < 2 ^ 32 := by
      simp only [sizeofHeader]
      omega
    generalize quot : r.start + sizeofHeader * left = q at stop
    have tail := tidy.take_tail positive (by omega) (by omega) quot
    have starts : (front ++ ⟨r.start, q⟩ :: back).map Extent.start =
        (front ++ r :: back).map Extent.start := by simp
    simp only [sizeofHeader] at quot
    dsimp only
    rw [Heap.size_setSize h r.start (by omega), plus_eq quot stop]
    refine ⟨⟨q, r.stop⟩, _, ?_, ?_, tail.moveFreep (starts ▸ member)⟩
    · exact plus_eq (by simp only [sizeofHeader]) (by simp only [sizeofHeader]; omega)
    · show r.stop = q + sizeofHeader * nunits
      simp only [sizeofHeader]
      omega

/-! ## Scanning the list -/

/-- Headers of blocks that are too small are passed. -/
theorem mallocLoop_skip (kernel : Kernel) (nunits : Nat) {xs : List Nat} {t prev : Nat} (follow : Circuit.Follow h.ptr xs t)
    (small : ∀ x ∈ xs, h.size x < nunits ∧ x ≠ h.freep) (link : h.ptr prev = xs.headD t) :
    ∃ prev' ∈ prev :: xs, h.ptr prev' = t ∧ ∀ fuel,
      mallocLoop kernel nunits (fuel + xs.length) h prev (xs.headD t) =
        mallocLoop kernel nunits fuel h prev' t := by
  induction xs generalizing prev with
  | nil => exact ⟨prev, List.mem_cons_self .., link, fun _ => rfl⟩
  | cons x xs ih =>
    obtain ⟨tooSmall, notLast⟩ := small x (List.mem_cons_self ..)
    obtain ⟨prev', member, link', passed⟩ :=
      ih follow.2 (fun y later => small y (List.mem_cons_of_mem x later)) follow.1
    refine ⟨prev', List.mem_cons_of_mem prev member, link', fun fuel => ?_⟩
    rw [← passed fuel, ← follow.1]
    show mallocLoop kernel nunits (fuel + xs.length + 1) h prev x = _
    rw [mallocLoop, if_neg (Nat.not_le.mpr tooSmall), if_neg notLast]

/-- The list from the header after `freep` on. -/
theorem Tidy.scanned (tidy : Tidy img h blocks held) :
    ∃ xs, Circuit.Follow h.ptr xs h.freep ∧ h.ptr h.freep = xs.headD h.freep ∧
      (h.freep :: xs).Perm (img.base :: blocks.map Extent.start) ∧ h.freep ∉ xs := by
  obtain ⟨xs, closed, perm⟩ := tidy.circuit.from_ tidy.freep
  have nodup := perm.nodup_iff.mpr tidy.nodup
  exact ⟨xs, closed.2, closed.1, perm, (List.nodup_cons.mp nodup).1⟩

/-- A header of the free list whose block is large enough is that of a free block. -/
theorem Tidy.block_of_large (tidy : Tidy img h blocks held) (positive : 1 ≤ nunits) {x : Nat}
    (member : x ∈ img.base :: blocks.map Extent.start) (large : nunits ≤ h.size x) :
    ∃ r ∈ blocks, r.start = x := by
  rcases List.mem_cons.mp member with rfl | inStarts
  · have empty := tidy.base
    omega
  · exact List.mem_map.mp inStarts

/-- Where some free block is large enough, `malloc` takes one. -/
theorem Tidy.scan_fits (tidy : Tidy img h blocks held) (kernel : Kernel) (positive : 1 ≤ nunits)
    (fits : ∃ r ∈ blocks, nunits ≤ h.size r.start) :
    ∃ count result, Taken img held nunits result ∧ ∀ fuel,
      mallocLoop kernel nunits (fuel + count) h h.freep (h.ptr h.freep) = some result := by
  obtain ⟨xs, follow, first, perm, notIn⟩ := tidy.scanned
  -- the first that is large enough, `freep` being the last that is looked at
  have whole : Circuit.Follow h.ptr (xs ++ [h.freep]) (xs.headD h.freep) :=
    Circuit.follow_append.mpr ⟨follow, first, trivial⟩
  have someFits : ∃ x ∈ xs ++ [h.freep], decide (nunits ≤ h.size x) = true := by
    obtain ⟨r, member, large⟩ := fits
    have inList : r.start ∈ h.freep :: xs :=
      perm.mem_iff.mpr (List.mem_cons_of_mem _ (List.mem_map_of_mem member))
    exact ⟨r.start, (List.perm_append_singleton h.freep xs).mem_iff.mpr inList,
      decide_eq_true large⟩
  obtain ⟨x, found⟩ := Option.isSome_iff_exists.mp (List.find?_isSome.mpr someFits)
  obtain ⟨large, front, back, split, small⟩ := List.find?_eq_some_iff_append.mp found
  rw [decide_eq_true_eq] at large
  have before : ∀ y ∈ front, y ∈ xs := by
    have shorter := congrArg List.dropLast split
    rw [List.dropLast_append_cons, List.dropLast_append_cons, List.dropLast_singleton,
      List.append_nil] at shorter
    intro y inFront
    rw [shorter]
    exact List.mem_append_left _ inFront
  have inNodes : ∀ y ∈ h.freep :: xs, y ∈ img.base :: blocks.map Extent.start :=
    fun y inList => perm.mem_iff.mp inList
  have memX : x ∈ h.freep :: xs := by
    apply (List.perm_append_singleton h.freep xs).mem_iff.mp
    rw [split]
    exact List.mem_append_right _ (List.mem_cons_self ..)
  obtain ⟨r, member, rfl⟩ := tidy.block_of_large positive (inNodes x memX) large
  have link : h.ptr h.freep = front.headD r.start := by
    have head := congrArg (fun l => List.headD l 0) split
    simp only [Circuit.headD_append, List.headD_cons] at head
    exact first.trans head
  rw [split] at whole
  obtain ⟨prev, memPrev, toR, passed⟩ := mallocLoop_skip kernel nunits
    (Circuit.follow_append.mp whole).1 (fun y inFront => ⟨by simpa using small y inFront,
      fun isFreep => notIn (isFreep ▸ before y inFront)⟩) link
  have prevNode : prev ∈ img.base :: blocks.map Extent.start := by
    apply inNodes
    rcases List.mem_cons.mp memPrev with isFreep | inFront
    · exact isFreep ▸ List.mem_cons_self ..
    · exact List.mem_cons_of_mem _ (before prev inFront)
  refine ⟨front.length + 1, _, tidy.take_spec member prevNode toR positive large, fun fuel => ?_⟩
  have arrived := passed (fuel + 1)
  rw [show fuel + (front.length + 1) = fuel + 1 + front.length by omega, link]
  refine arrived.trans ?_
  show mallocLoop kernel nunits (fuel + 1) h prev r.start = _
  rw [mallocLoop, if_pos large]

/-- Where no free block is large enough, `malloc` asks for more memory. -/
theorem Tidy.scan_none (tidy : Tidy img h blocks held) (kernel : Kernel) (positive : 1 ≤ nunits)
    (small : ∀ r ∈ blocks, h.size r.start < nunits) :
    ∃ count, ∀ fuel, mallocLoop kernel nunits (fuel + count) h h.freep (h.ptr h.freep) = (do
      let more ← morecore kernel fuel h nunits
      if more.1 = 0 then some (0, more.2)
      else mallocLoop kernel nunits fuel more.2 more.1 (more.2.ptr more.1)) := by
  obtain ⟨xs, follow, first, perm, notIn⟩ := tidy.scanned
  have tooSmall : ∀ y ∈ h.freep :: xs, h.size y < nunits := by
    intro y inList
    by_contra large
    obtain ⟨r, member, rfl⟩ :=
      tidy.block_of_large positive (perm.mem_iff.mp inList) (Nat.le_of_not_lt large)
    exact large (small r member)
  obtain ⟨prev, _, _, passed⟩ := mallocLoop_skip kernel nunits follow
    (fun y inList => ⟨tooSmall y (List.mem_cons_of_mem _ inList),
      fun isFreep => notIn (isFreep ▸ inList)⟩) first
  refine ⟨xs.length + 1, fun fuel => ?_⟩
  rw [show fuel + (xs.length + 1) = fuel + 1 + xs.length by omega, first, passed (fuel + 1),
    mallocLoop, if_neg (Nat.not_le.mpr (tooSmall _ (List.mem_cons_self ..))), if_pos rfl]

/-! ## More memory -/

/-- The units that `morecore` asks for. -/
def asked (nunits : Nat) : Nat := if nunits < leastUnits then leastUnits else nunits

/-- At least the units that are needed are asked for, and at least the least number. -/
theorem le_asked (nunits : Nat) : nunits ≤ asked nunits ∧ leastUnits ≤ asked nunits := by
  rw [asked]
  split <;> omega

/-- The kernel refuses the memory that `morecore` asks for. -/
def Refuses (kernel : Kernel) (h : Heap) (nunits : Nat) : Prop :=
  sbrk kernel h (sbrkArg (asked nunits)) = (failed, h)

/-- `morecore` in terms of what it asks for and what it gets. -/
theorem morecore_eq (kernel : Kernel) (fuel : Nat) (h : Heap) (nunits : Nat) :
    morecore kernel fuel h nunits =
      if (sbrk kernel h (sbrkArg (asked nunits))).1 = failed then
        some (0, (sbrk kernel h (sbrkArg (asked nunits))).2)
      else
        (Malloc.free fuel ((sbrk kernel h (sbrkArg (asked nunits))).2.setSize
            (sbrk kernel h (sbrkArg (asked nunits))).1 (asked nunits))
          (plus (sbrk kernel h (sbrkArg (asked nunits))).1 1)).bind fun h => some (h.freep, h) :=
  rfl

/-- Where the kernel refuses, `morecore` returns zero. -/
theorem morecore_refused (refuses : Refuses kernel h nunits) (fuel : Nat) :
    morecore kernel fuel h nunits = some (0, h) := by
  have returned : sbrk kernel h (sbrkArg (asked nunits)) = (failed, h) := refuses
  rw [morecore_eq, returned]
  exact if_pos rfl

/-- More rounds do not change what `morecore` does. -/
theorem morecore_more {fuel : Nat} {result : Nat × Heap}
    (returned : morecore kernel fuel h nunits = some result) (more : Nat) :
    morecore kernel (fuel + more) h nunits = some result := by
  rw [morecore_eq] at returned ⊢
  by_cases fails : (sbrk kernel h (sbrkArg (asked nunits))).1 = failed
  · rw [if_pos fails] at returned ⊢
    exact returned
  · rw [if_neg fails] at returned ⊢
    obtain ⟨h', freed, same⟩ := Option.bind_eq_some_iff.mp returned
    rw [free_more freed more]
    exact same

/-- The argument of `sbrk` is the number of bytes, unless it is too large for an `int`. -/
theorem sbrkArg_eq (small : nunits < 2 ^ 28) :
    sbrkArg (asked nunits) = ((sizeofHeader * asked nunits : Nat) : Int) := by
  have bound : asked nunits < 2 ^ 28 := by
    rw [asked]
    split
    · decide
    · exact small
  rw [sbrkArg, signed32, Nat.mod_eq_of_lt (by simp only [sizeofHeader]; omega),
    if_pos (by simp only [sizeofHeader]; omega), Nat.mul_comm]

/-- Where the kernel does not refuse, the break moves by the bytes that are asked for. -/
theorem sbrk_granted (small : nunits < 2 ^ 28) (grants : ¬ Refuses kernel h nunits) :
    h.brk + sizeofHeader * asked nunits < 2 ^ 32 ∧
      sbrk kernel h (sbrkArg (asked nunits)) =
        (h.brk, { h with brk := h.brk + sizeofHeader * asked nunits }) := by
  rw [Refuses, sbrkArg_eq small, sbrk] at grants
  rw [sbrkArg_eq small, sbrk]
  by_cases agreed : kernel h.brk ((sizeofHeader * asked nunits : Nat) : Int) = true ∧
      0 ≤ (h.brk : Int) + ((sizeofHeader * asked nunits : Nat) : Int) ∧
      (h.brk : Int) + ((sizeofHeader * asked nunits : Nat) : Int) < 2 ^ 32
  · rw [if_pos agreed]
    refine ⟨by omega, ?_⟩
    have moved : ((h.brk : Int) + ((sizeofHeader * asked nunits : Nat) : Int)).toNat =
        h.brk + sizeofHeader * asked nunits := by omega
    rw [moved]
  · rw [if_neg agreed] at grants
    exact absurd rfl grants

/-- New memory above the break is a block, once its size is written. -/
theorem Tidy.grow (tidy : Tidy img h blocks held) {nu : Nat} (positive : 1 ≤ nu)
    (fits : h.brk + sizeofHeader * nu < 2 ^ 32) :
    Tidy img (Heap.setSize { h with brk := h.brk + sizeofHeader * nu } h.brk nu) blocks
      (⟨h.brk, h.brk + sizeofHeader * nu⟩ :: held) := by
  simp only [sizeofHeader] at fits
  generalize grown : Heap.setSize { h with brk := h.brk + sizeofHeader * nu } h.brk nu = h₂
  have brk : h₂.brk = h.brk + sizeofHeader * nu := by rw [← grown]; rfl
  have size : h₂.size h.brk = nu := by
    rw [← grown]
    exact Heap.size_setSize _ _ (by omega)
  have same : ∀ x, x + sizeofHeader ≤ h.brk → SameHeader h h₂ x := by
    intro x below
    have kept : SameHeader { h with brk := h.brk + sizeofHeader * nu } h₂ x := by
      rw [← grown]
      exact Heap.setSize_same _ nu (Or.inr below)
    exact ⟨kept.ptr, kept.size⟩
  have sameBlock : ∀ x, IsBlock img h x → SameHeader h h₂ x.start := fun x block =>
    same _ (Nat.le_trans block.header block.below)
  have sameBase : SameHeader h h₂ img.base := same _ (Nat.le_trans img.base_below tidy.grown)
  have stays : ∀ x, IsBlock img h x → IsBlock img h₂ x := fun x block =>
    block.congr (sameBlock x block).size (by rw [brk]; exact Nat.le_add_right _ _)
  refine ⟨?_, ?_, ?_, ?_, tidy.spaced, ?_, ?_, ?_, ?_, ?_⟩
  · refine Circuit.Follow.congr tidy.circuit fun x inNodes => ?_
    rcases List.mem_cons.mp inNodes with rfl | inStarts
    · exact sameBase.ptr
    · obtain ⟨y, inBlocks, rfl⟩ := List.mem_map.mp inStarts
      exact (sameBlock y (tidy.free y inBlocks)).ptr
  · rw [← grown]
    exact tidy.freep
  · exact sameBase.size.trans tidy.base
  · exact fun x inBlocks => stays x (tidy.free x inBlocks)
  · intro x inHeld
    rcases List.mem_cons.mp inHeld with rfl | inOld
    · refine ⟨?_, ?_, tidy.grown, Nat.le_of_eq brk.symm⟩
      · show h.brk + sizeofHeader * h₂.size h.brk = h.brk + sizeofHeader * nu
        rw [size]
      · show h.brk < h.brk + sizeofHeader * nu
        simp only [sizeofHeader]
        omega
    · exact stays x (tidy.used x inOld)
  · intro a inHeld x inBlocks
    rcases List.mem_cons.mp inHeld with rfl | inOld
    · exact Or.inr (tidy.free x inBlocks).below
    · exact tidy.apart a inOld x inBlocks
  · refine List.pairwise_cons.mpr ⟨fun a inHeld => ?_, tidy.disjoint⟩
    exact Or.inr (tidy.used a inHeld).below
  · rw [brk]
    exact Nat.le_trans tidy.grown (Nat.le_add_right _ _)
  · rw [brk]
    simp only [sizeofHeader]
    omega

/-- Where the kernel does not refuse, `morecore` adds a free block that is large enough. -/
theorem Tidy.morecore_granted (tidy : Tidy img h blocks held) (small : nunits < 2 ^ 28)
    (grants : ¬ Refuses kernel h nunits) {fuel : Nat} (enough : blocks.length < fuel) :
    ∃ h' blocks', morecore kernel fuel h nunits = some (h'.freep, h') ∧ h'.freep ≠ 0 ∧
      Tidy img h' blocks' held ∧ ∃ r ∈ blocks', nunits ≤ h'.size r.start := by
  obtain ⟨fits, returned⟩ := sbrk_granted small grants
  obtain ⟨least, leastAsked⟩ := le_asked nunits
  have positive : 1 ≤ asked nunits := Nat.le_trans (by decide) leastAsked
  obtain ⟨h', blocks', freed, tidy', r, member, start, stop⟩ :=
    (tidy.grow positive fits).free_spec enough
  have notFailed : h.brk ≠ failed := by
    simp only [sizeofHeader, failed, leastUnits] at fits leastAsked ⊢
    omega
  have next : plus h.brk 1 = h.brk + sizeofHeader := by
    refine plus_eq (by simp only [sizeofHeader]) ?_
    simp only [sizeofHeader] at fits ⊢
    omega
  refine ⟨h', blocks', ?_, tidy'.freep_ne_zero, tidy', r, member, ?_⟩
  · rw [morecore_eq, returned, if_neg notFailed]
    dsimp only
    rw [next, freed]
    rfl
  · have sized := (tidy'.free r member).sized
    simp only [sizeofHeader] at sized start stop
    omega

/-! ## `malloc` -/

/-- Where no free block is large enough and the kernel refuses, `malloc` returns zero. -/
theorem Tidy.alloc_refused (tidy : Tidy img h blocks held) (positive : 1 ≤ nunits)
    (small : ∀ r ∈ blocks, h.size r.start < nunits) (refuses : Refuses kernel h nunits) :
    ∃ count, ∀ fuel,
      mallocLoop kernel nunits (fuel + count) h h.freep (h.ptr h.freep) = some (0, h) := by
  obtain ⟨count, scanned⟩ := tidy.scan_none kernel positive small
  refine ⟨count, fun fuel => ?_⟩
  rw [scanned fuel, morecore_refused refuses]
  rfl

/-- Where the kernel does not refuse a request of a size for which `sbrk` has an argument, `malloc`
takes a block. -/
theorem Tidy.alloc_granted (tidy : Tidy img h blocks held) (positive : 1 ≤ nunits)
    (small : ∀ r ∈ blocks, h.size r.start < nunits) (bound : nunits < 2 ^ 28)
    (grants : ¬ Refuses kernel h nunits) :
    ∃ count result, Taken img held nunits result ∧ ∀ fuel,
      mallocLoop kernel nunits (fuel + count) h h.freep (h.ptr h.freep) = some result := by
  obtain ⟨count, scanned⟩ := tidy.scan_none kernel positive small
  obtain ⟨h', blocks', gotMore, notZero, tidy', fits⟩ :=
    tidy.morecore_granted bound grants (Nat.lt_succ_self blocks.length)
  obtain ⟨count', result, taken, found⟩ := tidy'.scan_fits kernel positive fits
  refine ⟨blocks.length + 1 + count' + count, result, taken, fun fuel => ?_⟩
  have rounds : fuel + (blocks.length + 1 + count' + count) =
      blocks.length + 1 + (count' + fuel) + count := by omega
  rw [rounds, scanned, morecore_more gotMore]
  show (if h'.freep = 0 then _ else _) = _
  rw [if_neg notZero, show blocks.length + 1 + (count' + fuel) = fuel + blocks.length + 1 + count' by
    omega]
  exact found _

/-- More rounds do not change what `malloc` does. -/
theorem mallocLoop_more {fuel prevp p : Nat} {result : Nat × Heap}
    (returned : mallocLoop kernel nunits fuel h prevp p = some result) (more : Nat) :
    mallocLoop kernel nunits (fuel + more) h prevp p = some result := by
  induction fuel generalizing h prevp p with
  | zero => exact absurd returned (by simp [mallocLoop])
  | succ fuel ih =>
    rw [mallocLoop] at returned
    rw [Nat.add_right_comm, mallocLoop]
    by_cases large : nunits ≤ h.size p
    · rw [if_pos large] at returned ⊢
      exact returned
    · rw [if_neg large] at returned ⊢
      by_cases last : p = h.freep
      · rw [if_pos last] at returned ⊢
        obtain ⟨got, gotMore, rest⟩ := Option.bind_eq_some_iff.mp returned
        rw [morecore_more gotMore more]
        by_cases zero : got.1 = 0
        · rw [if_pos zero] at rest
          exact (if_pos zero).trans rest
        · rw [if_neg zero] at rest
          exact (if_neg zero).trans (ih rest)
      · rw [if_neg last] at returned ⊢
        exact ih returned

end Malloc

end Xv6
