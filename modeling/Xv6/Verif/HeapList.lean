import Xv6.Malloc
import Xv6.Lib.Circuit
import Xv6.Lib.Extents

/-!
# The free list of the allocator

What is true of the heap between the calls: the free list is a circuit through `base` and the free
blocks in the order of their addresses, no two of them adjacent, and the blocks in use are apart from
them and from each other. `free` keeps this.
-/

namespace Xv6

namespace Malloc

variable {h h' : Heap}

/-! ## Words in memory -/

/-- A word that was written is read back. -/
theorem load32_store32 (m : Bytes) (a v : Nat) : load32 (store32 m a v) a = v % 2 ^ 32 := by
  simp only [load32, store32, Bytes.store]
  simp only [show a ≠ a + 3 by omega, show a ≠ a + 2 by omega, show a ≠ a + 1 by omega,
    show a + 1 ≠ a + 3 by omega, show a + 1 ≠ a + 2 by omega, show a + 2 ≠ a + 3 by omega, if_true,
    if_false, UInt8.toNat_ofNat']
  omega

/-- Memory that is the same at the bytes of a word gives the same word. -/
theorem load32_congr {m m' : Bytes} {a : Nat} (same : ∀ x, a ≤ x → x < a + 4 → m' x = m x) :
    load32 m' a = load32 m a := by
  simp only [load32, same a (by omega) (by omega), same (a + 1) (by omega) (by omega),
    same (a + 2) (by omega) (by omega), same (a + 3) (by omega) (by omega)]

/-- A word written leaves the bytes outside it. -/
theorem store32_outside (m : Bytes) {a x : Nat} (v : Nat) (outside : x < a ∨ a + 4 ≤ x) :
    store32 m a v x = m x := by
  simp only [store32, Bytes.store]
  rw [if_neg (by omega), if_neg (by omega), if_neg (by omega), if_neg (by omega)]

/-- A word written leaves the words outside it. -/
theorem load32_outside (m : Bytes) {a b : Nat} (v : Nat) (outside : b + 4 ≤ a ∨ a + 4 ≤ b) :
    load32 (store32 m a v) b = load32 m b :=
  load32_congr fun x above below => store32_outside m v (by omega)

/-! ## Headers -/

/-- Two headers have no byte in common. -/
def Clear (x y : Nat) : Prop := x + sizeofHeader ≤ y ∨ y + sizeofHeader ≤ x

/-- A header is the same in two heaps. -/
structure SameHeader (h h' : Heap) (x : Nat) : Prop where
  ptr : h'.ptr x = h.ptr x
  size : h'.size x = h.size x

/-- A header that is the same twice. -/
theorem SameHeader.trans {h'' : Heap} {x : Nat} (first : SameHeader h h' x)
    (second : SameHeader h' h'' x) : SameHeader h h'' x :=
  ⟨second.ptr.trans first.ptr, second.size.trans first.size⟩

/-- A pointer that was written is read back. -/
theorem Heap.ptr_setPtr (h : Heap) (p : Nat) {q : Nat} (word : q < 2 ^ 32) :
    (h.setPtr p q).ptr p = q :=
  (load32_store32 h.mem p q).trans (Nat.mod_eq_of_lt word)

/-- A size that was written is read back. -/
theorem Heap.size_setSize (h : Heap) (p : Nat) {n : Nat} (word : n < 2 ^ 32) :
    (h.setSize p n).size p = n :=
  (load32_store32 h.mem (p + 4) n).trans (Nat.mod_eq_of_lt word)

/-- Writing the pointer of a header leaves its size. -/
@[simp] theorem Heap.size_setPtr (h : Heap) (p q : Nat) : (h.setPtr p q).size p = h.size p :=
  load32_outside h.mem q (by omega)

/-- Writing the size of a header leaves its pointer. -/
@[simp] theorem Heap.ptr_setSize (h : Heap) (p n : Nat) : (h.setSize p n).ptr p = h.ptr p :=
  load32_outside h.mem n (by omega)

/-- Writing the pointer of a header leaves the headers clear of it. -/
theorem Heap.setPtr_same (h : Heap) {p x : Nat} (q : Nat) (clear : Clear p x) :
    SameHeader h (h.setPtr p q) x := by
  simp only [Clear, sizeofHeader] at clear
  exact ⟨load32_outside h.mem q (by omega), load32_outside h.mem q (by omega)⟩

/-- Writing the size of a header leaves the headers clear of it. -/
theorem Heap.setSize_same (h : Heap) {p x : Nat} (n : Nat) (clear : Clear p x) :
    SameHeader h (h.setSize p n) x := by
  simp only [Clear, sizeofHeader] at clear
  exact ⟨load32_outside h.mem n (by omega), load32_outside h.mem n (by omega)⟩

/-- Being clear of each other is symmetric. -/
theorem Clear.symm {x y : Nat} (clear : Clear x y) : Clear y x := Or.symm clear

/-! ## The invariant -/

/-- A block of the heap: its header tells its extent, and it lies within what `sbrk` gave. -/
structure IsBlock (img : Image) (h : Heap) (r : Extent) : Prop where
  /-- Its size. -/
  sized : r.start + sizeofHeader * h.size r.start = r.stop
  /-- It has at least its header. -/
  nonempty : r.start < r.stop
  /-- It begins at or above the first break. -/
  above : img.lo ≤ r.start
  /-- It ends at or below the break. -/
  below : r.stop ≤ h.brk

/-- `base` as an extent of the free list: it has no units. -/
def Image.root (img : Image) : Extent := ⟨img.base, img.base⟩

/-- The heap between two calls, with the free blocks and the blocks in use. -/
structure Tidy (img : Image) (h : Heap) (blocks held : List Extent) : Prop where
  /-- The free list is a circuit through `base` and the free blocks. -/
  circuit : Circuit.Closed h.ptr img.base (blocks.map Extent.start)
  /-- `freep` points into it. -/
  freep : h.freep ∈ img.base :: blocks.map Extent.start
  base : h.size img.base = 0
  /-- The blocks of the free list. -/
  free : ∀ r ∈ blocks, IsBlock img h r
  /-- They are in order and not adjacent. -/
  spaced : Extent.Spaced blocks
  /-- The blocks in use. -/
  used : ∀ r ∈ held, IsBlock img h r
  /-- The blocks in use are apart from the free blocks. -/
  apart : ∀ a ∈ held, ∀ r ∈ blocks, Extent.Apart a r
  /-- The blocks in use are apart from each other. -/
  disjoint : held.Pairwise Extent.Apart
  /-- The break is not below the first. -/
  grown : img.lo ≤ h.brk
  /-- The break is an address. -/
  brk : h.brk < 2 ^ 32

/-- A block has at least the bytes of its header. -/
theorem IsBlock.header {img : Image} {r : Extent} (block : IsBlock img h r) :
    r.start + sizeofHeader ≤ r.stop := by
  have sized := block.sized
  have nonempty := block.nonempty
  simp only [sizeofHeader] at sized ⊢
  omega

/-- The headers of two blocks that are apart are clear of each other. -/
theorem IsBlock.clear {img : Image} {a b : Extent} (left : IsBlock img h a)
    (right : IsBlock img h b) (apart : Extent.Apart a b) : Clear a.start b.start := by
  have first := left.header
  have second := right.header
  simp only [Extent.Apart, Clear] at apart ⊢
  omega

/-- The header of a block is clear of `base`. -/
theorem IsBlock.clear_base {img : Image} {r : Extent} (block : IsBlock img h r) :
    Clear img.base r.start :=
  Or.inl (Nat.le_trans img.base_below block.above)

/-- A block whose header and bounds stay is a block. -/
theorem IsBlock.congr {img : Image} {r : Extent} (block : IsBlock img h r)
    (same : h'.size r.start = h.size r.start) (brk : h.brk ≤ h'.brk) : IsBlock img h' r :=
  ⟨same ▸ block.sized, block.nonempty, block.above, Nat.le_trans block.below brk⟩

/-- A heap with the same headers is tidy, too. -/
theorem Tidy.congr {img : Image} {blocks held : List Extent} (tidy : Tidy img h blocks held)
    (freep : h'.freep = h.freep) (brk : h'.brk = h.brk) (base : SameHeader h h' img.base)
    (same : ∀ r ∈ blocks ++ held, SameHeader h h' r.start) : Tidy img h' blocks held where
  circuit := by
    refine Circuit.Follow.congr tidy.circuit fun x inNodes => ?_
    rcases List.mem_cons.mp inNodes with rfl | inStarts
    · exact base.ptr
    · obtain ⟨r, member, rfl⟩ := List.mem_map.mp inStarts
      exact (same r (List.mem_append_left _ member)).ptr
  freep := freep ▸ tidy.freep
  base := base.size.trans tidy.base
  free r member :=
    (tidy.free r member).congr (same r (List.mem_append_left _ member)).size (Nat.le_of_eq brk.symm)
  spaced := tidy.spaced
  used r member :=
    (tidy.used r member).congr (same r (List.mem_append_right _ member)).size
      (Nat.le_of_eq brk.symm)
  apart := tidy.apart
  disjoint := tidy.disjoint
  grown := brk ▸ tidy.grown
  brk := brk ▸ tidy.brk

/-- `base` and the free blocks are spaced. -/
theorem Tidy.spacedRoot {img : Image} {blocks held : List Extent} (tidy : Tidy img h blocks held) :
    Extent.Spaced (img.root :: blocks) := by
  refine List.pairwise_cons.mpr ⟨fun r member => ?_, tidy.spaced⟩
  have above := (tidy.free r member).above
  have below := img.base_below
  simp only [Image.root, sizeofHeader] at below ⊢
  omega

/-- Each extent of the free list ends at or after its beginning. -/
theorem Tidy.proper {img : Image} {blocks held : List Extent} (tidy : Tidy img h blocks held)
    {r : Extent} (member : r ∈ img.root :: blocks) : r.start ≤ r.stop := by
  rcases List.mem_cons.mp member with rfl | isBlock
  · exact Nat.le_refl _
  · exact Nat.le_of_lt (tidy.free r isBlock).nonempty

/-- The headers of the free list ascend. -/
theorem Tidy.sorted {img : Image} {blocks held : List Extent} (tidy : Tidy img h blocks held) :
    (img.base :: blocks.map Extent.start).Pairwise (· < ·) := by
  have spaced := tidy.spacedRoot
  have starts : ((img.root :: blocks).map Extent.start).Pairwise (· < ·) := by
    rw [List.pairwise_map]
    refine List.Pairwise.imp_of_mem ?_ spaced
    intro a b memberA _ gap
    exact Nat.lt_of_le_of_lt (tidy.proper memberA) gap
  exact starts

/-- After the first call `freep` is not zero. -/
theorem Tidy.freep_ne_zero {img : Image} {blocks held : List Extent}
    (tidy : Tidy img h blocks held) : h.freep ≠ 0 := by
  intro zero
  have inNodes := tidy.freep
  rw [zero] at inNodes
  have positive := img.base_pos
  rcases List.mem_cons.mp inNodes with isBase | inStarts
  · omega
  · obtain ⟨r, member, isZero⟩ := List.mem_map.mp inStarts
    have above := (tidy.free r member).above
    have below := img.base_below
    omega

/-! ## The place of a block -/

/-- The loop of `free` is a search along the free list. -/
theorem findPlace_eq (h : Heap) (bp fuel p : Nat) :
    findPlace h bp fuel p = Circuit.search h.ptr (stopsAt h bp) fuel p := by
  induction fuel generalizing p with
  | zero => rfl
  | succ fuel ih => rw [findPlace, Circuit.search, ih]

/-- The loop of `free` finds the last header of the free list before the block. -/
theorem Tidy.findPlace_eq {img : Image} {blocks held : List Extent}
    (tidy : Tidy img h blocks held) {bp p : Nat} (above : img.base < bp)
    (member : p ∈ img.base :: blocks.map Extent.start) (before : p < bp)
    (last : ∀ z ∈ img.base :: blocks.map Extent.start, z ≤ p ∨ bp < z) {fuel : Nat}
    (enough : blocks.length < fuel) : findPlace h bp fuel h.freep = some p := by
  rw [Malloc.findPlace_eq]
  refine tidy.circuit.search_eq tidy.freep member (fun z inList => ?_) (by
    rw [List.length_cons, List.length_map]
    exact enough)
  have next := tidy.circuit.next_mem inList
  have nextPlace := last _ next
  have place := last z inList
  simp only [stopsAt, Bool.or_eq_true, decide_eq_true_eq]
  rcases tidy.circuit.ascends tidy.sorted inList with ⟨ascends, between⟩ | ⟨returns, greatest⟩
  · have split := between p member
    omega
  · have split := greatest p member
    omega

/-! ## Headers of the free list -/

/-- An extent of the free list is `base` or a free block. -/
theorem Tidy.node {img : Image} {blocks held : List Extent} (tidy : Tidy img h blocks held)
    {r : Extent} (member : r ∈ img.root :: blocks) : r = img.root ∨ IsBlock img h r :=
  (List.mem_cons.mp member).imp_right (tidy.free r)

/-- Where an extent of the free list ends before another begins, the headers are clear. -/
theorem Tidy.clear_of_lt {img : Image} {blocks held : List Extent} (tidy : Tidy img h blocks held)
    {x y : Extent} (first : x ∈ img.root :: blocks) (second : y ∈ img.root :: blocks)
    (gap : x.stop < y.start) : x.start + sizeofHeader ≤ y.start := by
  have below := img.base_below
  rcases tidy.node second with rfl | blockY
  · rcases tidy.node first with rfl | blockX
    · exact absurd gap (Nat.lt_irrefl _)
    · have above := blockX.above
      have nonempty := blockX.nonempty
      simp only [Image.root, sizeofHeader] at gap below ⊢
      omega
  · rcases tidy.node first with rfl | blockX
    · exact Nat.le_trans below blockY.above
    · exact Nat.le_trans blockX.header (Nat.le_of_lt gap)

/-- The header of a block apart from the free blocks is clear of those of the free list. -/
theorem Tidy.clear_node {img : Image} {blocks held : List Extent} (tidy : Tidy img h blocks held)
    {b r : Extent} (block : IsBlock img h b) (apart : ∀ r ∈ blocks, Extent.Apart b r)
    (member : r ∈ img.root :: blocks) : Clear b.start r.start := by
  rcases List.mem_cons.mp member with rfl | inBlocks
  · exact block.clear_base.symm
  · exact block.clear (tidy.free r inBlocks) (apart r inBlocks)

/-- The size of an extent of the free list. -/
theorem Tidy.node_sized {img : Image} {blocks held : List Extent} (tidy : Tidy img h blocks held)
    {r : Extent} (member : r ∈ img.root :: blocks) :
    r.start + sizeofHeader * h.size r.start = r.stop := by
  rcases List.mem_cons.mp member with rfl | inBlocks
  · show img.base + sizeofHeader * h.size img.base = img.base
    rw [tidy.base]
    rfl
  · exact (tidy.free r inBlocks).sized

/-- The headers of the free list are addresses. -/
theorem Tidy.node_lt {img : Image} {blocks held : List Extent} (tidy : Tidy img h blocks held)
    {r : Extent} (member : r ∈ img.root :: blocks) : r.stop < 2 ^ 32 := by
  have brk := tidy.brk
  rcases List.mem_cons.mp member with rfl | inBlocks
  · have below := img.base_below
    have lo := img.lo_lt
    simp only [Image.root, sizeofHeader] at below ⊢
    omega
  · exact Nat.lt_of_le_of_lt (tidy.free r inBlocks).below brk

/-- The pointer to the first of some extents of the free list, or to `base`, is an address. -/
theorem Tidy.headD_lt {img : Image} {blocks held above : List Extent}
    (tidy : Tidy img h blocks held) (nodes : ∀ r ∈ above, r ∈ img.root :: blocks) :
    (above.map Extent.start).headD img.base < 2 ^ 32 := by
  cases above with
  | nil => exact tidy.node_lt (r := img.root) (List.mem_cons_self ..)
  | cons r rest =>
    have member := nodes r (List.mem_cons_self ..)
    exact Nat.lt_of_le_of_lt (tidy.proper member) (tidy.node_lt member)

/-- The end of a block in pointer arithmetic. -/
theorem plus_eq {p n stop : Nat} (sized : p + sizeofHeader * n = stop) (word : stop < 2 ^ 32) :
    plus p n = stop := by
  rw [plus, sized, Nat.mod_eq_of_lt word]

/-! ## Joining with the block above -/

/-- What `joinUpper` makes of a block `b` and the blocks above it: a block `m` in front of the blocks
that are left. -/
structure JoinedUpper (img : Image) (h h' : Heap) (b m : Extent) (gone left : List Extent) :
    Prop where
  start : m.start = b.start
  /-- It reaches as far as `b` at least. -/
  covers : b.stop ≤ m.stop
  /-- It ends at or below the break. -/
  below : m.stop ≤ h.brk
  /-- It ends before the blocks left begin. -/
  gap : ∀ r ∈ left, m.stop < r.start
  /-- Its header points to the blocks left. -/
  ptr : h'.ptr b.start = (left.map Extent.start).headD img.base
  /-- Its header tells its size. -/
  sized : b.start + sizeofHeader * h'.size b.start = m.stop
  /-- What is apart from `b` and the block it is joined with is apart from it. -/
  apart : ∀ c : Extent, c.start < c.stop → Extent.Apart c b → (∀ r ∈ gone, Extent.Apart c r) →
    Extent.Apart c m
  same : ∀ x, Clear b.start x → SameHeader h h' x
  brk : h'.brk = h.brk

/-- A block that touches nothing above it is linked by itself. -/
theorem joinUpper_alone {img : Image} {above : List Extent} {p b : Extent}
    (block : IsBlock img h b) (stopLt : b.stop < 2 ^ 32)
    (link : h.ptr p.start = (above.map Extent.start).headD img.base)
    (aboveLt : (above.map Extent.start).headD img.base < 2 ^ 32)
    (noTouch : b.stop ≠ h.ptr p.start) (gap : ∀ r ∈ above, b.stop < r.start) :
    JoinedUpper img h (joinUpper h b.start p.start) b b [] above := by
  rw [joinUpper, plus_eq block.sized stopLt, if_neg noTouch, link]
  refine ⟨rfl, Nat.le_refl _, block.below, gap, Heap.ptr_setPtr h _ aboveLt, ?_,
    fun c _ ofB _ => ofB, fun x clear => h.setPtr_same _ clear, rfl⟩
  rw [Heap.size_setPtr]
  exact block.sized

/-- A block that touches the one above it is joined with it. -/
theorem joinUpper_touch {img : Image} {rest : List Extent} {p b r : Extent}
    (block : IsBlock img h b) (next : IsBlock img h r) (stopLt : r.stop < 2 ^ 32)
    (clearP : Clear b.start p.start) (clearR : Clear b.start r.start)
    (touch : b.stop = r.start) (link : h.ptr p.start = r.start)
    (linkRest : h.ptr r.start = (rest.map Extent.start).headD img.base)
    (restLt : (rest.map Extent.start).headD img.base < 2 ^ 32)
    (gap : ∀ y ∈ rest, r.stop < y.start) :
    JoinedUpper img h (joinUpper h b.start p.start) b ⟨b.start, r.stop⟩ [r] rest := by
  have sizedB := block.sized
  have sizedR := next.sized
  have nonempty := next.nonempty
  have sumLt : h.size b.start + h.size r.start < 2 ^ 32 := by
    simp only [sizeofHeader] at sizedR sizedB
    omega
  have sum : add32 (h.size b.start) (h.size r.start) = h.size b.start + h.size r.start :=
    Nat.mod_eq_of_lt sumLt
  have sameSize := fun x (clear : Clear b.start x) =>
    h.setSize_same (h.size b.start + h.size r.start) clear
  rw [joinUpper, plus_eq block.sized (by omega), link, if_pos touch, sum]
  dsimp only
  rw [(sameSize _ clearP).ptr, link, (sameSize _ clearR).ptr, linkRest]
  refine ⟨rfl, ?_, next.below, gap, Heap.ptr_setPtr _ _ restLt, ?_, ?_, ?_, rfl⟩
  · show b.stop ≤ r.stop
    omega
  · rw [Heap.size_setPtr, Heap.size_setSize _ _ sumLt]
    show b.start + sizeofHeader * (h.size b.start + h.size r.start) = r.stop
    rw [Nat.mul_add]
    omega
  · intro c nonempty ofB ofGone
    exact ofB.join (ofGone r (List.mem_cons_self ..)) touch nonempty
  · intro x clear
    exact (sameSize x clear).trans (Heap.setPtr_same _ _ clear)

/-- The first part of `free` links the block in front of those above it, joined with the first of
them where they touch. -/
theorem Tidy.joinUpper {img : Image} {blocks held front above : List Extent} {p b : Extent}
    (tidy : Tidy img h blocks held) (split : img.root :: blocks = front ++ p :: above)
    (block : IsBlock img h b) (apart : ∀ r ∈ blocks, Extent.Apart b r)
    (upper : ∀ r ∈ above, b.stop ≤ r.start) :
    ∃ m gone left, above = gone ++ left ∧
      JoinedUpper img h (Malloc.joinUpper h b.start p.start) b m gone left := by
  have nodes : ∀ r ∈ p :: above, r ∈ img.root :: blocks := fun r member => by
    rw [split]
    exact List.mem_append_right _ member
  have follow : Circuit.Follow h.ptr ((front ++ p :: above).map Extent.start) img.base :=
    split ▸ tidy.circuit
  rw [List.map_append, List.map_cons] at follow
  have link := follow.next_eq
  have stopLt : b.stop < 2 ^ 32 := Nat.lt_of_le_of_lt block.below tidy.brk
  have aboveLt := tidy.headD_lt fun r member => nodes r (List.mem_cons_of_mem p member)
  have overBase : img.base < b.stop := by
    have := block.nonempty
    have := block.above
    have := img.base_below
    omega
  cases above with
  | nil =>
    refine ⟨b, [], [], rfl, joinUpper_alone block stopLt link aboveLt (fun touch => ?_) (by simp)⟩
    exact Nat.ne_of_gt overBase (touch.trans link)
  | cons r rest =>
    have inNodes := nodes r (List.mem_cons_of_mem p (List.mem_cons_self ..))
    have spacedUpper : Extent.Spaced (r :: rest) := by
      have whole := tidy.spacedRoot
      rw [split] at whole
      exact (List.pairwise_cons.mp (List.pairwise_append.mp whole).2.1).2
    obtain ⟨after, _⟩ := List.pairwise_cons.mp spacedUpper
    have properR := tidy.proper inNodes
    by_cases touch : b.stop = r.start
    · have next : IsBlock img h r := by
        rcases tidy.node inNodes with same | isBlock
        · rw [touch, same] at overBase
          exact absurd overBase (Nat.lt_irrefl _)
        · exact isBlock
      have shape : front.map Extent.start ++ p.start :: (r :: rest).map Extent.start =
          (front.map Extent.start ++ [p.start]) ++ r.start :: rest.map Extent.start := by simp
      rw [shape] at follow
      refine ⟨⟨b.start, r.stop⟩, [r], rest, rfl, joinUpper_touch block next (tidy.node_lt inNodes)
        (tidy.clear_node block apart (nodes p (List.mem_cons_self ..)))
        (tidy.clear_node block apart inNodes) touch link follow.next_eq (tidy.headD_lt ?_) after⟩
      exact fun y member => nodes y (List.mem_cons_of_mem p (List.mem_cons_of_mem r member))
    · have first := upper r (List.mem_cons_self ..)
      refine ⟨b, [], r :: rest, rfl, joinUpper_alone block stopLt link aboveLt
        (fun same => touch (same.trans link)) fun y member => ?_⟩
      rcases List.mem_cons.mp member with rfl | later
      · omega
      · have gap := after y later
        omega

/-! ## Joining with the block below -/

/-- The free list after a block `m` is linked behind `p`, joined with it where they touch. -/
def linkedBehind (p m : Extent) (left : List Extent) : List Extent :=
  if p.stop = m.start then ⟨p.start, m.stop⟩ :: left else p :: m :: left

/-- What is in that list. -/
theorem mem_linkedBehind {p m r : Extent} {left : List Extent} (member : r ∈ linkedBehind p m left) :
    r ∈ left ∨ (p.stop = m.start ∧ r = ⟨p.start, m.stop⟩) ∨
      (p.stop ≠ m.start ∧ (r = p ∨ r = m)) := by
  rw [linkedBehind] at member
  by_cases touch : p.stop = m.start
  · rw [if_pos touch] at member
    rcases List.mem_cons.mp member with isJoined | inLeft
    · exact Or.inr (Or.inl ⟨touch, isJoined⟩)
    · exact Or.inl inLeft
  · rw [if_neg touch] at member
    rcases List.mem_cons.mp member with isP | inRest
    · exact Or.inr (Or.inr ⟨touch, Or.inl isP⟩)
    · rcases List.mem_cons.mp inRest with isM | inLeft
      · exact Or.inr (Or.inr ⟨touch, Or.inr isM⟩)
      · exact Or.inl inLeft

/-- That list is spaced. -/
theorem spaced_linkedBehind {front gone left : List Extent} {p m : Extent}
    (spaced : Extent.Spaced (front ++ p :: (gone ++ left))) (proper : p.start ≤ p.stop)
    (lower : p.stop ≤ m.start) (order : m.start ≤ m.stop) (gap : ∀ r ∈ left, m.stop < r.start) :
    Extent.Spaced (front ++ linkedBehind p m left) := by
  have sublist : left.Sublist (gone ++ left) := List.sublist_append_right gone left
  rw [linkedBehind]
  by_cases touch : p.stop = m.start
  · rw [if_pos touch]
    exact spaced.extend sublist gap
  · rw [if_neg touch]
    exact spaced.insert sublist proper (Nat.lt_of_le_of_ne lower touch) order gap

/-- That list is followed if the headers of `p` and `m` point as they should. -/
theorem follow_linkedBehind {next next' : Nat → Nat} {front gone left : List Extent} {p m : Extent}
    {t : Nat} (before : Circuit.Follow next ((front ++ p :: (gone ++ left)).map Extent.start) t)
    (same : ∀ r ∈ front ++ left, next' r.start = next r.start)
    (joined : p.stop = m.start → next' p.start = (left.map Extent.start).headD t)
    (linked : p.stop ≠ m.start → next' p.start = m.start)
    (ptr : next' m.start = (left.map Extent.start).headD t) :
    Circuit.Follow next' ((front ++ linkedBehind p m left).map Extent.start) t := by
  have before' : Circuit.Follow next (front.map Extent.start ++
      (p.start :: gone.map Extent.start ++ left.map Extent.start)) t := by simpa using before
  have samePtr : ∀ y ∈ front.map Extent.start ++ left.map Extent.start, next' y = next y := by
    intro y member
    rw [← List.map_append] at member
    obtain ⟨r, inOld, rfl⟩ := List.mem_map.mp member
    exact same r inOld
  rw [linkedBehind]
  by_cases touch : p.stop = m.start
  · rw [if_pos touch]
    have new : Circuit.Follow next' [p.start] ((left.map Extent.start).headD t) :=
      ⟨joined touch, trivial⟩
    simpa using before'.exchange samePtr new
  · rw [if_neg touch]
    have new : Circuit.Follow next' [p.start, m.start] ((left.map Extent.start).headD t) :=
      ⟨linked touch, ptr, trivial⟩
    simpa using before'.exchange samePtr new

/-- What `joinLower` does to the headers of `p` and of the block `m` that comes behind it. -/
structure JoinedLower (h h' : Heap) (p m : Extent) (next : Nat) : Prop where
  /-- Joined, the header of `p` points to what follows `m` and tells the size of both. -/
  joined : p.stop = m.start →
    h'.ptr p.start = next ∧ p.start + sizeofHeader * h'.size p.start = m.stop
  /-- Otherwise it points to `m` and keeps its size. -/
  linked : p.stop ≠ m.start →
    h'.ptr p.start = m.start ∧ p.start + sizeofHeader * h'.size p.start = p.stop
  same : ∀ x, Clear p.start x → SameHeader h h' x
  brk : h'.brk = h.brk

/-- The second part of `free` links the block behind the last header before it, joined with it where
they touch. -/
theorem joinLower_spec {p m : Extent} {next : Nat} (sizedP : p.start + sizeofHeader * h.size p.start = p.stop)
    (sizedM : m.start + sizeofHeader * h.size m.start = m.stop) (ptr : h.ptr m.start = next)
    (nextLt : next < 2 ^ 32) (order : p.stop ≤ m.start) (proper : m.start ≤ m.stop)
    (stopLt : m.stop < 2 ^ 32) (clear : Clear p.start m.start) :
    JoinedLower h (joinLower h m.start p.start) p m next := by
  rw [joinLower, plus_eq sizedP (by omega)]
  by_cases touch : p.stop = m.start
  · have sumLt : h.size p.start + h.size m.start < 2 ^ 32 := by
      simp only [sizeofHeader] at sizedP sizedM
      omega
    have sum : add32 (h.size p.start) (h.size m.start) = h.size p.start + h.size m.start :=
      Nat.mod_eq_of_lt sumLt
    have sameSize := fun x (apart : Clear p.start x) =>
      h.setSize_same (h.size p.start + h.size m.start) apart
    rw [if_pos touch, sum]
    dsimp only
    rw [(sameSize _ clear).ptr, ptr]
    refine ⟨fun _ => ⟨Heap.ptr_setPtr _ _ nextLt, ?_⟩, fun noTouch => absurd touch noTouch, ?_, rfl⟩
    · rw [Heap.size_setPtr, Heap.size_setSize _ _ sumLt, Nat.mul_add]
      omega
    · intro x apart
      exact (sameSize x apart).trans (Heap.setPtr_same _ _ apart)
  · rw [if_neg touch]
    refine ⟨fun joined => absurd joined touch, fun _ => ⟨Heap.ptr_setPtr h _ (by omega), ?_⟩, ?_,
      rfl⟩
    · rw [Heap.size_setPtr]
      exact sizedP
    · exact fun x apart => h.setPtr_same _ apart

/-! ## The heap with one more free block -/

/-- A heap is tidy if `base` and the free blocks have the right headers and places. -/
theorem Tidy.ofNodes {img : Image} {blocks held : List Extent}
    (spaced : Extent.Spaced (img.root :: blocks))
    (sized : ∀ r ∈ img.root :: blocks, r.start + sizeofHeader * h.size r.start = r.stop)
    (placed : ∀ r ∈ img.root :: blocks,
      r = img.root ∨ r.start < r.stop ∧ img.lo ≤ r.start ∧ r.stop ≤ h.brk)
    (follow : Circuit.Follow h.ptr ((img.root :: blocks).map Extent.start) img.base)
    (freep : h.freep ∈ (img.root :: blocks).map Extent.start)
    (used : ∀ r ∈ held, IsBlock img h r)
    (apart : ∀ a ∈ held, ∀ r ∈ img.root :: blocks, Extent.Apart a r)
    (disjoint : held.Pairwise Extent.Apart) (grown : img.lo ≤ h.brk) (brk : h.brk < 2 ^ 32) :
    Tidy img h blocks held := by
  obtain ⟨first, rest⟩ := List.pairwise_cons.mp spaced
  refine ⟨follow, freep, ?_, ?_, rest, used, ?_, disjoint, grown, brk⟩
  · have rootSized := sized img.root (List.mem_cons_self ..)
    simp only [Image.root, sizeofHeader] at rootSized
    omega
  · intro r member
    have inNodes : r ∈ img.root :: blocks := List.mem_cons_of_mem _ member
    rcases placed r inNodes with isRoot | ⟨nonempty, above, below⟩
    · have gap := first r member
      rw [isRoot] at gap
      exact absurd gap (Nat.lt_irrefl _)
    · exact ⟨sized r inNodes, nonempty, above, below⟩
  · exact fun a inHeld r member => apart a inHeld r (List.mem_cons_of_mem _ member)

/-- The places of the extents of the free list. -/
theorem Tidy.placed {img : Image} {blocks held : List Extent} (tidy : Tidy img h blocks held)
    {r : Extent} (member : r ∈ img.root :: blocks) :
    r = img.root ∨ r.start < r.stop ∧ img.lo ≤ r.start ∧ r.stop ≤ h.brk :=
  (tidy.node member).imp_right fun block => ⟨block.nonempty, block.above, block.below⟩

/-- A block is apart from `base`. -/
theorem IsBlock.apart_root {img : Image} {r : Extent} (block : IsBlock img h r) :
    Extent.Apart r img.root := by
  have above := block.above
  have below := img.base_below
  simp only [Extent.Apart, Image.root]
  omega

/-- After both parts of `free` the heap is tidy, and the block is within a free block. -/
theorem Tidy.link {img : Image} {blocks held front above : List Extent} {p b : Extent}
    (tidy : Tidy img h blocks held) (split : img.root :: blocks = front ++ p :: above)
    (block : IsBlock img h b) (apart : ∀ r ∈ blocks, Extent.Apart b r)
    (apartHeld : ∀ a ∈ held, Extent.Apart a b) (lower : p.stop ≤ b.start)
    (upper : ∀ r ∈ above, b.stop ≤ r.start) :
    ∃ blocks', Tidy img
        { Malloc.joinLower (Malloc.joinUpper h b.start p.start) b.start p.start with
          freep := p.start } blocks' held ∧
      ∃ r ∈ blocks', r.start ≤ b.start ∧ b.stop ≤ r.stop := by
  obtain ⟨m, gone, left, rfl, up⟩ := tidy.joinUpper split block apart upper
  have inNodes : ∀ r ∈ front ++ p :: (gone ++ left), r ∈ img.root :: blocks := fun r member => by
    rw [split]
    exact member
  have memP : p ∈ front ++ p :: (gone ++ left) :=
    List.mem_append_right _ (List.mem_cons_self ..)
  have memFront : ∀ r ∈ front, r ∈ front ++ p :: (gone ++ left) := fun r member =>
    List.mem_append_left _ member
  have memLeft : ∀ r ∈ left, r ∈ front ++ p :: (gone ++ left) := fun r member =>
    List.mem_append_right _ (List.mem_cons_of_mem p (List.mem_append_right _ member))
  have memGone : ∀ r ∈ gone, r ∈ front ++ p :: (gone ++ left) := fun r member =>
    List.mem_append_right _ (List.mem_cons_of_mem p (List.mem_append_left _ member))
  have clearB : ∀ r ∈ front ++ p :: (gone ++ left), Clear b.start r.start := fun r member =>
    tidy.clear_node block apart (inNodes r member)
  have spaced : Extent.Spaced (front ++ p :: (gone ++ left)) := split ▸ tidy.spacedRoot
  have upperSpaced := List.pairwise_cons.mp (List.pairwise_append.mp spaced).2.1
  have clearP : ∀ r ∈ front ++ left, Clear p.start r.start := by
    intro r member
    rcases List.mem_append.mp member with inFront | inLeft
    · exact Or.inr (tidy.clear_of_lt (inNodes r (memFront r inFront)) (inNodes p memP)
        (spaced.front_lt inFront))
    · exact Or.inl (tidy.clear_of_lt (inNodes p memP) (inNodes r (memLeft r inLeft))
        (upperSpaced.1 r (List.mem_append_right _ inLeft)))
  have order : m.start ≤ m.stop := by
    have := up.start
    have := up.covers
    have := block.nonempty
    omega
  have stopLt : m.stop < 2 ^ 32 := Nat.lt_of_le_of_lt up.below tidy.brk
  have nextLt : (left.map Extent.start).headD img.base < 2 ^ 32 :=
    tidy.headD_lt fun r member => inNodes r (memLeft r member)
  have sizedP := tidy.node_sized (inNodes p memP)
  rw [← (up.same _ (clearB p memP)).size] at sizedP
  have low := joinLower_spec (m := m) sizedP (up.start ▸ up.sized) (up.start ▸ up.ptr) nextLt
    (up.start ▸ lower) order stopLt (up.start ▸ (clearB p memP).symm)
  rw [up.start] at low
  generalize Malloc.joinUpper h b.start p.start = h₁ at up low ⊢
  generalize Malloc.joinLower h₁ b.start p.start = h₂ at low ⊢
  have brk : h₂.brk = h.brk := low.brk.trans up.brk
  have same : ∀ x, Clear b.start x → Clear p.start x → SameHeader h h₂ x := fun x ofB ofP =>
    (up.same x ofB).trans (low.same x ofP)
  have sameNode : ∀ r ∈ front ++ left, SameHeader h h₂ r.start := by
    intro r member
    refine same _ (clearB r ?_) (clearP r member)
    exact (List.mem_append.mp member).elim (memFront r) (memLeft r)
  have clearBP := clearB p memP
  have sameM := low.same b.start clearBP.symm
  have sizedM : m.start + sizeofHeader * h₂.size m.start = m.stop := by
    rw [up.start, sameM.size]
    exact up.sized
  have ptrM : h₂.ptr m.start = (left.map Extent.start).headD img.base := by
    rw [up.start, sameM.ptr]
    exact up.ptr
  have nodesSpaced := spaced_linkedBehind spaced (tidy.proper (inNodes p memP))
    (up.start ▸ lower) order up.gap
  have before : Circuit.Follow h.ptr ((img.root :: blocks).map Extent.start) img.base :=
    tidy.circuit
  rw [split] at before
  have follow := follow_linkedBehind before (fun r member => (sameNode r member).ptr)
    (fun touch => (low.joined touch).1) (fun noTouch => (low.linked noTouch).1) ptrM
  obtain ⟨blocks', shape⟩ : ∃ blocks', img.root :: blocks' = front ++ linkedBehind p m left := by
    cases front with
    | nil =>
      have isRoot : img.root = p := List.head_eq_of_cons_eq split
      have noTouch : p.stop ≠ m.start := by
        have above := block.above
        have below := img.base_below
        rw [← isRoot, up.start]
        simp only [Image.root, sizeofHeader] at below ⊢
        omega
      rw [linkedBehind, if_neg noTouch, isRoot]
      exact ⟨_, rfl⟩
    | cons f front =>
      have isRoot : img.root = f := List.head_eq_of_cons_eq split
      rw [isRoot]
      exact ⟨_, rfl⟩
  have placedM : m.start < m.stop ∧ img.lo ≤ m.start ∧ m.stop ≤ h.brk := by
    have := up.start
    have := up.covers
    have := block.nonempty
    have := block.above
    have := up.below
    omega
  have cases : ∀ r ∈ front ++ linkedBehind p m left,
      r ∈ front ++ left ∨ (p.stop = m.start ∧ r = ⟨p.start, m.stop⟩) ∨
        (p.stop ≠ m.start ∧ (r = p ∨ r = m)) := by
    intro r member
    rcases List.mem_append.mp member with inFront | inRest
    · exact Or.inl (List.mem_append_left _ inFront)
    · exact (mem_linkedBehind inRest).imp_left fun inLeft => List.mem_append_right _ inLeft
  have inOld : ∀ r ∈ front ++ left, r ∈ img.root :: blocks := fun r member =>
    inNodes r ((List.mem_append.mp member).elim (memFront r) (memLeft r))
  have apartNode : ∀ a ∈ held, ∀ r ∈ img.root :: blocks, Extent.Apart a r := by
    intro a inHeld r member
    rcases List.mem_cons.mp member with rfl | inBlocks
    · exact (tidy.used a inHeld).apart_root
    · exact tidy.apart a inHeld r inBlocks
  have apartM : ∀ a ∈ held, Extent.Apart a m := fun a inHeld =>
    up.apart a (tidy.used a inHeld).nonempty (apartHeld a inHeld) fun r member =>
      apartNode a inHeld r (inNodes r (memGone r member))
  have notRoot : p.stop = m.start → p.start < p.stop ∧ img.lo ≤ p.start := by
    intro touch
    rcases tidy.placed (inNodes p memP) with isRoot | ⟨nonempty, above, _⟩
    · have below := img.base_below
      rw [isRoot] at touch
      simp only [Image.root, sizeofHeader] at touch below
      omega
    · exact ⟨nonempty, above⟩
  refine ⟨blocks', Tidy.ofNodes (shape ▸ nodesSpaced) ?_ ?_ (shape ▸ follow) ?_ ?_ ?_ tidy.disjoint
    ?_ ?_, ?_⟩
  · intro r member
    rw [shape] at member
    rcases cases r member with old | ⟨touch, rfl⟩ | ⟨noTouch, rfl | rfl⟩
    · have sized := tidy.node_sized (inOld r old)
      rw [← (sameNode r old).size] at sized
      exact sized
    · exact (low.joined touch).2
    · exact (low.linked noTouch).2
    · exact sizedM
  · intro r member
    show r = img.root ∨ r.start < r.stop ∧ img.lo ≤ r.start ∧ r.stop ≤ h₂.brk
    rw [shape] at member
    rw [brk]
    rcases cases r member with old | ⟨touch, rfl⟩ | ⟨_, rfl | rfl⟩
    · exact tidy.placed (inOld r old)
    · obtain ⟨nonempty, above⟩ := notRoot touch
      refine Or.inr ⟨?_, above, placedM.2.2⟩
      show p.start < m.stop
      omega
    · exact tidy.placed (inNodes _ memP)
    · exact Or.inr placedM
  · rw [shape, List.map_append]
    apply List.mem_append_right
    rw [linkedBehind]
    split <;> exact List.mem_cons_self ..
  · intro r inHeld
    have used := tidy.used r inHeld
    refine used.congr (same r.start ?_ ?_).size (Nat.le_of_eq brk.symm)
    · exact block.clear used (apartHeld r inHeld).symm
    · exact (tidy.clear_node used (tidy.apart r inHeld) (inNodes p memP)).symm
  · intro a inHeld r member
    rw [shape] at member
    rcases cases r member with old | ⟨touch, rfl⟩ | ⟨_, rfl | rfl⟩
    · exact apartNode a inHeld r (inOld r old)
    · exact (apartNode a inHeld p (inNodes p memP)).join (apartM a inHeld) touch
        (tidy.used a inHeld).nonempty
    · exact apartNode a inHeld _ (inNodes _ memP)
    · exact apartM a inHeld
  · exact brk ▸ tidy.grown
  · exact brk ▸ tidy.brk
  · obtain ⟨r, inList, start, stop⟩ : ∃ r ∈ img.root :: blocks',
        r.start ≤ b.start ∧ b.stop ≤ r.stop := by
      rw [shape]
      by_cases touch : p.stop = m.start
      · refine ⟨⟨p.start, m.stop⟩, List.mem_append_right _ ?_, ?_, up.covers⟩
        · rw [linkedBehind, if_pos touch]
          exact List.mem_cons_self ..
        · have proper := tidy.proper (inNodes p memP)
          show p.start ≤ b.start
          omega
      · refine ⟨m, List.mem_append_right _ ?_, Nat.le_of_eq up.start, up.covers⟩
        rw [linkedBehind, if_neg touch]
        exact List.mem_cons_of_mem p (List.mem_cons_self ..)
    refine ⟨r, (List.mem_cons.mp inList).resolve_left fun isRoot => ?_, start, stop⟩
    have above := block.above
    have nonempty := block.nonempty
    have below := img.base_below
    rw [isRoot] at stop
    simp only [Image.root] at stop
    omega

/-! ## `free` -/

/-- The blocks in use in another order. -/
theorem Tidy.perm {img : Image} {blocks held held' : List Extent} (tidy : Tidy img h blocks held)
    (perm : held.Perm held') : Tidy img h blocks held' :=
  { tidy with
    used := fun r member => tidy.used r (perm.mem_iff.mpr member)
    apart := fun a member => tidy.apart a (perm.mem_iff.mpr member)
    disjoint := perm.pairwise tidy.disjoint fun apart => apart.symm }

/-- Without one of the blocks in use. -/
theorem Tidy.drop {img : Image} {b : Extent} {blocks held : List Extent}
    (tidy : Tidy img h blocks (b :: held)) : Tidy img h blocks held :=
  { tidy with
    used := fun r member => tidy.used r (List.mem_cons_of_mem b member)
    apart := fun a member => tidy.apart a (List.mem_cons_of_mem b member)
    disjoint := (List.pairwise_cons.mp tidy.disjoint).2 }

/-- `free` puts a block that was in use into the free list. -/
theorem Tidy.free_spec {img : Image} {b : Extent} {blocks held : List Extent}
    (tidy : Tidy img h blocks (b :: held)) {fuel : Nat} (enough : blocks.length < fuel) :
    ∃ h' blocks', Malloc.free fuel h (b.start + sizeofHeader) = some h' ∧
      Tidy img h' blocks' held ∧ ∃ r ∈ blocks', r.start ≤ b.start ∧ b.stop ≤ r.stop := by
  have block := tidy.used b (List.mem_cons_self ..)
  have apart := tidy.apart b (List.mem_cons_self ..)
  have nonempty := block.nonempty
  have overBase : img.base < b.start := by
    have above := block.above
    have below := img.base_below
    simp only [sizeofHeader] at below
    omega
  obtain ⟨below, above, rfl, lower, upper⟩ :=
    tidy.spaced.place (fun r member => Nat.le_of_lt (tidy.free r member).nonempty) apart
  -- the last of `base` and the free blocks before the block
  obtain ⟨front, p, isLast⟩ : ∃ front p, img.root :: below = front ++ [p] :=
    ⟨_, _, (List.dropLast_append_getLast (List.cons_ne_nil img.root below)).symm⟩
  have split : img.root :: (below ++ above) = front ++ p :: above := by
    rw [← List.cons_append, isLast, List.append_assoc]
    rfl
  have lowerP : p.stop ≤ b.start := by
    have member : p ∈ img.root :: below := by
      rw [isLast]
      exact List.mem_append_right _ (List.mem_singleton.mpr rfl)
    rcases List.mem_cons.mp member with rfl | inBelow
    · exact Nat.le_of_lt overBase
    · exact lower p inBelow
  have memP : p ∈ img.root :: (below ++ above) := by
    rw [split]
    exact List.mem_append_right _ (List.mem_cons_self ..)
  have spaced := tidy.spacedRoot
  rw [split] at spaced
  have startP : p.start < b.start := by
    rcases tidy.placed memP with isRoot | ⟨start, _, _⟩
    · rw [isRoot]
      exact overBase
    · omega
  have found : findPlace h b.start fuel h.freep = some p.start := by
    refine tidy.findPlace_eq overBase (List.mem_map_of_mem memP) startP (fun z inList => ?_) enough
    obtain ⟨r, member, rfl⟩ : ∃ r ∈ img.root :: (below ++ above), r.start = z :=
      List.mem_map.mp inList
    rw [split] at member
    rcases List.mem_append.mp member with inFront | inRest
    · have gap := spaced.front_lt inFront
      have proper := tidy.proper (r := r) (by
        rw [split]
        exact List.mem_append_left _ inFront)
      omega
    · rcases List.mem_cons.mp inRest with rfl | inAbove
      · exact Or.inl (Nat.le_refl _)
      · have after := upper r inAbove
        omega
  have header : (b.start + sizeofHeader + (2 ^ 32 - sizeofHeader)) % 2 ^ 32 = b.start := by
    have small : b.start < 2 ^ 32 :=
      Nat.lt_trans nonempty (Nat.lt_of_le_of_lt block.below tidy.brk)
    simp only [sizeofHeader]
    omega
  obtain ⟨blocks', tidy', covered⟩ := tidy.drop.link split block apart
    (fun a member => ((List.pairwise_cons.mp tidy.disjoint).1 a member).symm) lowerP upper
  refine ⟨_, blocks', ?_, tidy', covered⟩
  rw [Malloc.free, header, found]
  rfl

/-- More rounds do not change what `free` does. -/
theorem free_more {fuel ap : Nat} (returned : Malloc.free fuel h ap = some h') (more : Nat) :
    Malloc.free (fuel + more) h ap = some h' := by
  rw [Malloc.free] at returned ⊢
  obtain ⟨p, found, same⟩ := Option.bind_eq_some_iff.mp returned
  rw [findPlace_eq] at found ⊢
  rw [Circuit.search_more found more]
  exact same

end Malloc

end Xv6
