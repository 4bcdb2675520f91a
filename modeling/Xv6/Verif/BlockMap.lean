import Xv6.Verif.BlockTree

/-!
# Allocation and the block map

`balloc` takes a clear bit of the free map, sets it and zeroes the block. Each level of `bmap`
either finds an address or grafts a block from `balloc`; the four ranges of `bmap` compose
these levels along the place of the block number.
-/

namespace Xv6

open Program

variable {ι : Type}

/-- The panic of `balloc` when every bit is set. -/
def outOfBlocks (reason : Stop) : Prop := reason = .panic "balloc: out of blocks"

/-! ## `balloc` -/

/-- The store after `balloc` returned a block: its bit set, its data zeroed, both logged. -/
def allocated (sb : Superblock) (s : Store) (c : Nat) : Store :=
  let marked := (s.modified (BBLOCK c sb) (Block.setBit · (c % BPB))).record (BBLOCK c sb)
  (marked.modified c fun _ => Block.zero).record c

/-- The inner loop finds the first clear bit of an existing block. -/
theorem findFree_some {sb : Superblock} {data : Block} {b bi fuel j : Nat}
    (found : findFree sb data b bi fuel = some j) :
    j < bi + fuel ∧ b + j < sb.size ∧ data.bit j = false ∧ ∀ i, bi ≤ i → i < j → data.bit i = true := by
  induction fuel generalizing bi with
  | zero => contradiction
  | succ fuel ih =>
    simp only [findFree] at found
    split at found
    · rename_i exist
      split at found
      · rename_i set
        obtain ⟨bound, small, clear, before⟩ := ih found
        refine ⟨by omega, small, clear, ?_⟩
        intro i low high
        by_cases here : i = bi
        · rw [here]
          exact set
        · exact before i (by omega) high
      · rename_i clear
        cases found
        exact ⟨by omega, exist, by simpa using clear, fun i low high => by omega⟩
    · contradiction

/-- The inner loop misses only when every bit of an existing block is set. -/
theorem findFree_none {sb : Superblock} {data : Block} {b bi fuel : Nat}
    (missed : findFree sb data b bi fuel = none) :
    ∀ i, bi ≤ i → i < bi + fuel → b + i < sb.size → data.bit i = true := by
  induction fuel generalizing bi with
  | zero =>
    intro i low high
    omega
  | succ fuel ih =>
    intro i low high exist
    rw [findFree, if_pos (by omega)] at missed
    split at missed
    · rename_i set
      by_cases here : i = bi
      · rw [here]
        exact set
      · exact ih missed i (by omega) (by omega) exist
    · contradiction

/-- The bit of `b + bi` in the free map block read at a multiple `b` of `BPB`. -/
theorem bblock_add {b bi : Nat} (sb : Superblock) (aligned : b % BPB = 0) (inside : bi < BPB) :
    BBLOCK (b + bi) sb = BBLOCK b sb ∧ (b + bi) % BPB = bi := by
  simp only [BBLOCK, BPB, BSIZE] at *
  omega

/-- A free map block answers for the blocks after a multiple `b` of `BPB`. -/
theorem used_in_map {sb : Superblock} {blocks : Nat → Block} {b : Nat} (aligned : b % BPB = 0) {a : Nat}
    (low : b ≤ a) (high : a < b + BPB) :
    Used sb blocks a ↔ (blocks (BBLOCK b sb)).bit (a - b) = true := by
  have inside : a - b < BPB := by omega
  obtain ⟨block, index⟩ := bblock_add sb aligned inside
  rw [Nat.add_sub_cancel' low] at block index
  rw [Used, block, index]

/-- `balloc` returns the first block from `b` on whose bit was clear, or panics for want of one. -/
theorem ballocFrom_spec {sb : Superblock} {strict : Bool} {s : Store} (settled : Settled strict s)
    (b fuel : Nat) (aligned : b % BPB = 0) :
    wp (Store.handler (recording strict)) (ballocFrom sb b fuel)
      (fun c t => c < sb.size ∧ ¬Used sb s.blocks c ∧ (∀ a, b ≤ a → a < c → Used sb s.blocks a) ∧
        t = allocated sb s c)
      (fun reason => outOfBlocks reason ∧
        (sb.size ≤ b + fuel * BPB → ∀ a, b ≤ a → a < sb.size → Used sb s.blocks a)) s := by
  induction fuel generalizing b with
  | zero => exact ⟨rfl, fun enough a low high => by omega⟩
  | succ fuel ih =>
    rw [ballocFrom]
    split
    · rename_i exist
      rw [Store.wp_bread]
      cases found : findFree sb (s.blocks (BBLOCK b sb)) b 0 BPB with
      | some bi =>
        obtain ⟨bound, small, clear, before⟩ := findFree_some found
        obtain ⟨block, index⟩ := bblock_add sb aligned (show bi < BPB by omega)
        simp only [Store.wp_modify, Store.wp_logWrite_recording, bzero]
        rw [Store.wp_brelse (.inr (by simp [Store.record, Store.logged])), wp_bind]
        simp only [Store.wp_bread, Store.wp_modify, Store.wp_logWrite_recording]
        rw [Store.wp_brelse_last (.inr (by simp [Store.record, Store.logged])), wp_pure]
        refine ⟨small, ?_, ?_, ?_⟩
        · simp only [Used, block, index, clear, Bool.false_eq_true, not_false_eq_true]
        · intro a low high
          rw [used_in_map aligned low (by omega)]
          exact before (a - b) (Nat.zero_le _) (by omega)
        · simp only [allocated, block, index]
      | none =>
        simp only []
        have full : ∀ a, b ≤ a → a < b + BPB → a < sb.size → Used sb s.blocks a := by
          intro a low high inside
          rw [used_in_map aligned low high]
          exact findFree_none found (a - b) (Nat.zero_le _) (by omega) (by omega)
        rw [Store.wp_brelse]
        · refine wp_mono (ih (b + BPB) (by simp [aligned])) ?_ ?_
          · intro c t after
            obtain ⟨small, free, before, same⟩ := after
            refine ⟨small, free, ?_, same⟩
            intro a low high
            by_cases near : a < b + BPB
            · exact full a low near (by omega)
            · exact before a (by omega) high
          · intro reason after
            obtain ⟨stopped, rest⟩ := after
            refine ⟨stopped, ?_⟩
            intro enough a low high
            by_cases near : a < b + BPB
            · exact full a low near high
            · exact rest (by rw [Nat.succ_mul] at enough; omega) a (by omega) high
        · cases strict with
          | false => exact .inl rfl
          | true => exact .inr (settled rfl _)
    · exact ⟨rfl, fun enough a low high => by omega⟩

/-- The contents after `balloc`. -/
theorem allocated_blocks {sb : Superblock} {s : Store} {c : Nat} (b : Nat) :
    (allocated sb s c).blocks b =
      if b = c then Block.zero
      else if b = BBLOCK c sb then (s.blocks b).setBit (c % BPB)
      else s.blocks b := by
  simp only [allocated, Store.record, Store.logged, Store.modified, Function.update_apply]
  split
  · rfl
  · split
    · rename_i here
      rw [here]
    · rfl

/-- After `balloc` the block it returned is used, and the others as before. -/
theorem allocated_used {sb : Superblock} {s : Store} {b c : Nat} (apart : BBLOCK b sb ≠ c) :
    Used sb (allocated sb s c).blocks b ↔ Used sb s.blocks b ∨ b = c := by
  have bound : b % BPB < 8 * BSIZE := Nat.mod_lt _ (by decide)
  simp only [Used]
  rw [allocated_blocks, if_neg apart]
  by_cases same : BBLOCK b sb = BBLOCK c sb
  · have equal : b % BPB = c % BPB ↔ b = c := by
      simp only [BBLOCK, BPB, BSIZE] at same ⊢
      omega
    rw [if_pos same, Block.bit_setBit _ bound, Bool.or_eq_true, decide_eq_true_eq, equal, or_comm]
  · have other : b ≠ c := by rintro rfl; exact same rfl
    rw [if_neg same]
    simp only [other, or_false]

/-- `balloc` records two block numbers, in this order. -/
theorem allocated_recorded (sb : Superblock) (s : Store) (c : Nat) :
    (allocated sb s c).recorded = s.recorded ++ [BBLOCK c sb, c] := by
  simp only [allocated, Store.record, Store.logged, Store.modified, List.append_assoc, List.singleton_append]

/-- After `balloc` the dirty blocks are those before, the free map block and the new block. -/
theorem allocated_dirty {sb : Superblock} {s : Store} {c b : Nat} :
    (allocated sb s c).dirty b = true ↔ s.dirty b = true ∨ b = BBLOCK c sb ∨ b = c := by
  simp only [allocated, Store.record, Store.logged, Store.modified, Function.update_apply]
  split
  · simp [*]
  · split <;> simp [*]

/-- `balloc` leaves nothing unrecorded. -/
theorem allocated_settled {sb : Superblock} {strict : Bool} {s : Store} {c : Nat}
    (settled : Settled strict s) : Settled strict (allocated sb s c) := by
  intro checked b
  have before := settled checked b
  simp only [allocated, Store.record, Store.logged, Store.modified, Function.update_apply]
  split
  · rfl
  · split
    · rfl
    · exact before

/-- `balloc` records the free map block and the new block. -/
theorem allocated_logged {sb : Superblock} {s : Store} {c b : Nat}
    (member : b ∈ (allocated sb s c).log.lh) : b ∈ s.log.lh ∨ b = BBLOCK c sb ∨ b = c := by
  rcases Log.mem_record.mp member with before | new
  · rcases Log.mem_record.mp before with old | bit
    · exact .inl old
    · exact .inr (.inl bit)
  · exact .inr (.inr new)

/-! ## One level -/

section Level

variable {sb : Superblock} {nmeta : Nat} {strict : Bool} {s t : FsState ι}

/-- A block that `balloc` may return is a data-area block that no place holds. -/
theorem free_block (owned : Owned sb nmeta s.inodes s.store.blocks) {c : Nat} (small : c < sb.size)
    (free : ¬Used sb s.store.blocks c) :
    nmeta ≤ c ∧ ∀ r p, InTree r p → s.forest.address r p ≠ 0 → s.forest.address r p ≠ c := by
  constructor
  · by_contra h
    exact free (owned.meta_used c (Nat.lt_of_not_le h) small)
  · intro r p inside occupied same
    apply free
    rw [← same]
    exact owned.used r p inside occupied

/-- Index and data blocks are not free map blocks. -/
theorem address_ne_bblock (layout : Layout sb nmeta) (owned : Owned sb nmeta s.inodes s.store.blocks)
    {r : ι × Slot} {p : List Nat} (inside : InTree r p) (occupied : s.forest.address r p ≠ 0)
    {b : Nat} (small : b < sb.size) : s.forest.address r p ≠ BBLOCK b sb := by
  have low := layout.bblock_lt small
  have high := (owned.data_area r p inside occupied).1
  exact Nat.ne_of_gt (Nat.lt_of_lt_of_le low high)

/-- A data block is not the index block above a place. -/
theorem data_ne_index (owned : Owned sb nmeta s.inodes s.store.blocks) {r r₀ : ι × Slot}
    {p up : List Nat} {j : Nat} (inside : InTree r p) (full : p.length = slotDepth r.2)
    (occupied : s.forest.address r p ≠ 0) (below : InTree r₀ (j :: up)) :
    s.forest.address r p ≠ s.forest.address r₀ up := by
  intro same
  obtain ⟨rfl, rfl⟩ := owned.exclusive r p r₀ up inside (inTree_up below) occupied same
  have short := below.1
  simp only [List.length_cons] at short
  omega

/-- Grafting a block from `balloc` into the forest is growth at its place, when every other
block is as `balloc` left it, the index block above the place apart. -/
theorem grows_graft (t : FsState ι) (layout : Layout sb nmeta) (owned : Owned sb nmeta s.inodes s.store.blocks)
    {r₀ : ι × Slot} {p₀ : List Nat} {c : Nat} (small : c < sb.size)
    (free : ¬Used sb s.store.blocks c) (place : InTree r₀ p₀)
    (graft : Forest.Graft InTree s.forest t.forest r₀ p₀ c)
    (blocks : ∀ b, t.store.blocks b = (allocated sb s.store c).blocks b ∨
      ∃ j up, p₀ = j :: up ∧ b = s.forest.address r₀ up)
    (inode : ∀ k, t.inodes k = { s.inodes k with addrs := (t.inodes k).addrs })
    (dirty : ∀ b, (allocated sb s.store c).dirty b = true → t.store.dirty b = true)
    (settled : Settled strict s.store → Settled strict t.store)
    (logged : ∀ b ∈ t.store.log.lh, b ∈ (allocated sb s.store c).log.lh ∨
      ∃ j up, p₀ = j :: up ∧ b = s.forest.address r₀ up) :
    Grows sb nmeta strict (fun r p => r = r₀ ∧ p = p₀) s t := by
  obtain ⟨high, unowned⟩ := free_block owned small free
  have closed : ∀ (r : ι × Slot) k up, InTree r (k :: up) → InTree r up := fun _ _ _ => inTree_up
  have index : ∀ b, (∀ r p, InTree r p → s.forest.address r p ≠ 0 → s.forest.address r p ≠ b) →
      t.store.blocks b = (allocated sb s.store c).blocks b := by
    intro b outside
    rcases blocks b with same | ⟨j, up, rfl, rfl⟩
    · exact same
    · exact absurd rfl (outside r₀ up (inTree_up place) (graft.attached j up rfl))
  have bits : ∀ b, b < sb.size → (Used sb t.store.blocks b ↔ Used sb s.store.blocks b ∨ b = c) := by
    intro b exist
    have low := layout.bblock_lt exist
    have apart : BBLOCK b sb ≠ c := by omega
    rw [← allocated_used apart]
    simp only [Used]
    rw [index _ fun r p inside occupied => address_ne_bblock layout owned inside occupied exist]
  constructor
  · -- the ownership invariant
    constructor
    · exact graft.exclusive closed owned.exclusive
    · intro r p inside occupied
      rcases graft.address_cases closed r p inside with ⟨_, _, fresh⟩ | ⟨_, kept⟩
      · rw [fresh]
        exact ⟨high, small⟩
      · rw [kept] at occupied ⊢
        exact owned.data_area r p inside occupied
    · intro r p inside occupied
      rcases graft.address_cases closed r p inside with ⟨_, _, fresh⟩ | ⟨_, kept⟩
      · rw [fresh, bits c small]
        exact .inr rfl
      · rw [kept] at occupied ⊢
        rw [bits _ (owned.data_area r p inside occupied).2]
        exact .inl (owned.used r p inside occupied)
    · intro b low exist
      rw [bits b exist]
      exact .inl (owned.meta_used b low exist)
  · exact fun r p inside occupied => graft.address_kept closed inside occupied
  · intro r p inside outside
    exact graft.address_other closed inside (not_and_or.mp outside)
  · intro r p inside full occupied
    have apart := unowned r p inside occupied
    rcases blocks (s.forest.address r p) with same | ⟨j, up, rfl, above⟩
    · rw [same, allocated_blocks, if_neg apart, if_neg (address_ne_bblock layout owned inside occupied small)]
    · exact absurd above (data_ne_index owned inside full occupied place)
  · intro b outside untouched
    have fresh : c ≠ b := by
      have here := graft.address_same closed place
      rw [← here]
      exact untouched r₀ p₀ place (by rw [here]; exact graft.fresh_ne)
    have before : ∀ r p, InTree r p → s.forest.address r p ≠ 0 → s.forest.address r p ≠ b := by
      intro r p inside occupied
      have kept := graft.address_kept closed inside occupied
      rw [← kept]
      exact untouched r p inside (by rw [kept]; exact occupied)
    rw [index b before, allocated_blocks, if_neg (Ne.symm fresh), if_neg (outside c small)]
  · exact inode
  · exact fun b h => dirty b (allocated_dirty.mpr (.inl h))
  · intro r p inside vacant occupied
    rcases graft.address_cases closed r p inside with ⟨_, _, fresh⟩ | ⟨_, kept⟩
    · rw [fresh]
      exact dirty c (allocated_dirty.mpr (.inr (.inr rfl)))
    · exact absurd (by rw [kept, vacant]) occupied
  · exact settled
  · intro b member
    rcases logged b member with before | ⟨j, up, rfl, rfl⟩
    · rcases allocated_logged before with old | bit | new
      · exact .inl old
      · exact .inr (.inl ⟨c, small, bit⟩)
      · have here := graft.address_same closed place
        rw [new]
        exact .inr (.inr ⟨r₀, p₀, place, by rw [here]; exact graft.fresh_ne, here.symm⟩)
    · have attached := graft.attached j up rfl
      have kept := graft.address_kept closed (inTree_up place) attached
      exact .inr (.inr ⟨r₀, up, inTree_up place, by rw [kept]; exact attached, kept.symm⟩)

/-- `balloc` leaves the blocks of the forest alone. -/
theorem allocated_address (layout : Layout sb nmeta)
    (owned : Owned sb nmeta s.inodes s.store.blocks) {c : Nat} (small : c < sb.size)
    (free : ¬Used sb s.store.blocks c) {r : ι × Slot} {p : List Nat} (inside : InTree r p)
    (occupied : s.forest.address r p ≠ 0) :
    (allocated sb s.store c).blocks (s.forest.address r p) =
      s.store.blocks (s.forest.address r p) := by
  rw [allocated_blocks, if_neg ((free_block owned small free).2 r p inside occupied),
    if_neg (address_ne_bblock layout owned inside occupied small)]

/-- A block from `balloc` in an empty inode slot. -/
theorem graft_slot [DecidableEq ι] (layout : Layout sb nmeta) (owned : Owned sb nmeta s.inodes s.store.blocks)
    {k : ι} {i : Slot} (vacant : (s.inodes k).addrs i = 0) {c : Nat} (small : c < sb.size)
    (free : ¬Used sb s.store.blocks c) :
    Forest.Graft InTree s.forest
      (blockForest (Function.update s.inodes k ((s.inodes k).setAddr i c))
        (allocated sb s.store c).blocks) (k, i) [] c := by
  obtain ⟨high, unowned⟩ := free_block owned small free
  have positive := layout.nmeta_pos
  have nonzero : c ≠ 0 := by omega
  constructor
  · exact nonzero
  · intro r p inside same
    exact unowned r p inside (by rw [same]; exact nonzero) same
  · exact vacant
  · intro j up split
    contradiction
  · intro r
    simp only [blockForest_root, Function.update_apply, Inode.setAddr]
    by_cases owner : r.1 = k
    · by_cases slot : r.2 = i
      · exact .inr ⟨Prod.ext owner slot, trivial⟩
      · simp [owner, slot]
    · simp [owner]
  · intro _
    simp [Inode.setAddr]
  · intro r j up inside occupied _
    simp only [blockForest_entry]
    rw [allocated_address layout owned small free (inTree_up inside) occupied]
  · intro j up split
    contradiction
  · intro j
    simp only [blockForest_entry, allocated_blocks, ↓reduceIte, Block.word_zero]

/-- A block from `balloc` in an empty entry of an index block. -/
theorem graft_entry (layout : Layout sb nmeta) (owned : Owned sb nmeta s.inodes s.store.blocks)
    {r₀ : ι × Slot} {j : Nat} {up : List Nat} (place : InTree r₀ (j :: up))
    (attached : s.forest.address r₀ up ≠ 0) (vacant : s.forest.address r₀ (j :: up) = 0) {c : Nat}
    (small : c < sb.size) (free : ¬Used sb s.store.blocks c) :
    Forest.Graft InTree s.forest
      (blockForest s.inodes ((allocated sb s.store c).modified (s.forest.address r₀ up)
        (Block.setWord · j c)).blocks) r₀ (j :: up) c := by
  obtain ⟨high, unowned⟩ := free_block owned small free
  have positive := layout.nmeta_pos
  have nonzero : c ≠ 0 := by omega
  have index : (allocated sb s.store c).blocks (s.forest.address r₀ up) =
      s.store.blocks (s.forest.address r₀ up) :=
    allocated_address layout owned small free (inTree_up place) attached
  have inside : j < Block.words := place.2 j List.mem_cons_self
  have fits : c < 2 ^ 32 := Nat.lt_trans small layout.size_fits
  constructor
  · exact nonzero
  · intro r p inside same
    exact unowned r p inside (by rw [same]; exact nonzero) same
  · exact vacant
  · intro j' up' split
    cases split
    exact attached
  · exact fun r => .inl rfl
  · intro split
    contradiction
  · intro r j' up' below occupied other
    simp only [blockForest_entry, Store.modified, Function.update_apply]
    split
    · rename_i same
      obtain ⟨rfl, rfl⟩ := owned.exclusive r up' r₀ up (inTree_up below) (inTree_up place) occupied same
      have apart : j' ≠ j := by
        rintro rfl
        rcases other with h | h <;> exact h rfl
      rw [Block.word_setWord_ne _ _ apart, index]
    · rw [allocated_address layout owned small free (inTree_up below) occupied]
  · intro j' up' split
    cases split
    simp only [blockForest_entry, Store.modified, Function.update_self]
    exact Block.word_setWord_same _ inside fits
  · intro j'
    simp only [blockForest_entry, Store.modified]
    rw [Function.update_of_ne (Ne.symm (unowned r₀ up (inTree_up place) attached)),
      allocated_blocks, if_pos rfl, Block.word_zero]

/-- The inode slot level of `bmap`. -/
theorem loadSlot_spec [DecidableEq ι] (layout : Layout sb nmeta) (owned : Owned sb nmeta s.inodes s.store.blocks)
    (settled : Settled strict s.store) (k : ι) (i : Slot) :
    wp (Store.handler (recording strict)) (loadSlot sb (s.inodes k) i)
      (fun result store =>
        let t : FsState ι := ⟨Function.update s.inodes k result.1, store⟩
        Grows sb nmeta strict (fun r p => r = (k, i) ∧ p = []) s t ∧
          result.2 = t.forest.address (k, i) [] ∧ result.2 ≠ 0)
      outOfBlocks s.store := by
  rw [loadSlot]
  split
  · rename_i vacant
    rw [wp_bind]
    apply wp_mono (ballocFrom_spec settled 0 _ rfl)
    · rintro c store ⟨small, free, -, rfl⟩
      have graft := graft_slot layout owned vacant small free
      rw [wp_pure]
      refine ⟨?_, ?_, graft.fresh_ne⟩
      · apply grows_graft _ layout owned small free ⟨Nat.zero_le _, fun _ h => absurd h List.not_mem_nil⟩ graft
        · exact fun b => .inl rfl
        · intro k'
          simp only [Function.update_apply]
          split
          · rename_i same
            rw [same]
            rfl
          · rfl
        · exact fun b h => h
        · exact allocated_settled
        · exact fun b h => .inl h
      · exact (graft.root_fresh rfl).symm
    · exact fun _ h => h.1
  · rename_i occupied
    rw [wp_pure]
    simp only [Function.update_eq_self]
    exact ⟨Grows.refl owned, rfl, occupied⟩

/-- An index block level of `bmap`. Where releases are checked, an index block that gets an
entry and is not passed to `log_write` must be dirty. -/
theorem loadEntry_spec (layout : Layout sb nmeta) (owned : Owned sb nmeta s.inodes s.store.blocks)
    (settled : Settled strict s.store) (logged : Bool) {r : ι × Slot} {j : Nat} {up : List Nat}
    (place : InTree r (j :: up)) (attached : s.forest.address r up ≠ 0)
    (pinned : strict = true → logged = false → s.forest.address r (j :: up) = 0 →
      s.store.dirty (s.forest.address r up) = true) :
    wp (Store.handler (recording strict)) (loadEntry sb logged (s.forest.address r up) j)
      (fun addr store =>
        let t : FsState ι := ⟨s.inodes, store⟩
        Grows sb nmeta strict (fun r' p => r' = r ∧ p = j :: up) s t ∧
          addr = t.forest.address r (j :: up) ∧ addr ≠ 0)
      outOfBlocks s.store := by
  have below : s.forest.address r (j :: up) = (s.store.blocks (s.forest.address r up)).word j :=
    Forest.address_below attached j
  rw [loadEntry, Store.wp_bread]
  split
  · rename_i empty
    have vacant : s.forest.address r (j :: up) = 0 := by rw [below]; exact empty
    rw [wp_bind]
    apply wp_mono (ballocFrom_spec settled 0 _ rfl)
    · rintro c store ⟨small, free, -, rfl⟩
      have graft := graft_entry layout owned place attached vacant small free
      have blocks : ∀ b, ((allocated sb s.store c).modified (s.forest.address r up)
          (Block.setWord · j c)).blocks b = (allocated sb s.store c).blocks b ∨
            ∃ j' up', j :: up = j' :: up' ∧ b = s.forest.address r up' := by
        intro b
        by_cases here : b = s.forest.address r up
        · exact .inr ⟨j, up, rfl, here⟩
        · simp only [Store.modified]
          exact .inl (Function.update_of_ne here _ _)
      cases logged with
      | true =>
        simp only [Store.wp_modify, ↓reduceIte, Store.wp_logWrite_recording]
        rw [Store.wp_brelse (.inr (by simp [Store.record, Store.logged])), wp_pure]
        refine ⟨?_, ?_, graft.fresh_ne⟩
        · refine grows_graft _ layout owned small free place ?_ ?_ (fun _ => rfl) ?_ ?_ ?_
          · exact graft
          · exact blocks
          · intro b dirty
            simp only [Store.record, Store.logged, Store.modified, Function.update_apply]
            split
            · rfl
            · exact dirty
          · intro before checked b
            simp only [Store.record, Store.logged, Store.modified, Function.update_apply]
            split
            · rfl
            · exact allocated_settled before checked b
          · intro b member
            rcases Log.mem_record.mp member with before | index
            · exact .inl before
            · exact .inr ⟨j, up, rfl, index⟩
        · exact (graft.address_same (fun _ _ _ => inTree_up) place).symm
      | false =>
        have quiet : strict = true → ((allocated sb s.store c).modified (s.forest.address r up)
            (Block.setWord · j c)).unlogged (s.forest.address r up) = false := by
          intro checked
          have dirty : (allocated sb s.store c).dirty (s.forest.address r up) = true :=
            allocated_dirty.mpr (.inl (pinned checked rfl vacant))
          simp only [Store.modified, Function.update_self, dirty,
            allocated_settled settled checked, Bool.not_true, Bool.or_false]
        simp only [Store.wp_modify, Bool.false_eq_true, ↓reduceIte]
        rw [Store.wp_brelse, wp_pure]
        · refine ⟨?_, ?_, graft.fresh_ne⟩
          · refine grows_graft _ layout owned small free place ?_ ?_ (fun _ => rfl) ?_ ?_ ?_
            · exact graft
            · exact blocks
            · exact fun b dirty => dirty
            · intro before checked b
              by_cases here : b = s.forest.address r up
              · rw [here]
                exact quiet checked
              · simp only [Store.modified]
                rw [Function.update_of_ne here]
                exact allocated_settled before checked b
            · exact fun b member => .inl member
          · exact (graft.address_same (fun _ _ _ => inTree_up) place).symm
        · cases strict with
          | false => exact .inl rfl
          | true => exact .inr (quiet rfl)
    · exact fun _ h => h.1
  · rename_i entry
    rw [Store.wp_brelse, wp_pure]
    · exact ⟨Grows.refl owned, below.symm, entry⟩
    · cases strict with
      | false => exact .inl rfl
      | true => exact .inr (settled rfl _)

/-- The data block passed to `log_write` at the end of the doubly and triply indirect ranges. -/
theorem touchData_spec (owned : Owned sb nmeta s.inodes s.store.blocks) {r : ι × Slot}
    {p : List Nat} (inside : InTree r p) (occupied : s.forest.address r p ≠ 0) :
    wp (Store.handler (recording strict)) (touchData (s.forest.address r p))
      (fun _ store => Grows sb nmeta strict (fun _ _ => False) s ⟨s.inodes, store⟩ ∧
        store.blocks = s.store.blocks) outOfBlocks s.store := by
  rw [touchData, Store.wp_bread, Store.wp_logWrite_recording,
    Store.wp_brelse_last (.inr (by simp [Store.record, Store.logged]))]
  have kept : Grows sb nmeta strict (fun _ _ => False) s s := Grows.refl owned
  refine ⟨{ kept with dirty_kept := ?_, fresh_dirty := ?_, settled := ?_, logged := ?_ }, rfl⟩
  · intro b dirty
    simp only [Store.record, Store.logged, Function.update_apply]
    split
    · rfl
    · exact dirty
  · exact fun r p _ vacant occupied => absurd vacant occupied
  · intro before checked b
    simp only [Store.record, Store.logged, Function.update_apply]
    split
    · rfl
    · exact before checked b
  · intro b member
    rcases Log.mem_record.mp member with before | here
    · exact .inl before
    · exact .inr (.inr ⟨r, p, inside, occupied, here⟩)

end Level

/-! ## The whole block map -/

/-- Every index block on a path whose next entry on the path is empty is dirty. -/
def PinnedAlong (s : FsState ι) (r : ι × Slot) (path : List Nat) : Prop :=
  ∀ j up, j :: up <:+ path → s.forest.address r up ≠ 0 → s.forest.address r (j :: up) = 0 →
    s.store.dirty (s.forest.address r up) = true

/-- Every index block of the doubly and triply indirect ranges in which `bmap` of this block
number finds an empty entry is dirty: it has been passed to `log_write` in this transaction. -/
def Pinned (s : FsState ι) (k : ι) (bn : Nat) : Prop :=
  2 ≤ slotDepth (position bn).1 → PinnedAlong s (k, (position bn).1) (position bn).2

section Map

variable {sb : Superblock} {nmeta : Nat} {strict : Bool} {s t : FsState ι}

/-- Growth keeps index blocks pinned: a block that was there is as dirty as before, and a new
one is dirty. -/
theorem PinnedAlong.grows {places : ι × Slot → List Nat → Prop} {r : ι × Slot} {path : List Nat}
    (place : InTree r path) (pinned : PinnedAlong s r path)
    (grows : Grows sb nmeta strict places s t) : PinnedAlong t r path := by
  intro j up above occupied vacant
  have below : InTree r (j :: up) := inTree_suffix above place
  by_cases fresh : s.forest.address r up = 0
  · exact grows.fresh_dirty _ _ (inTree_up below) fresh occupied
  · have index := grows.kept _ _ (inTree_up below) fresh
    have before : s.forest.address r (j :: up) = 0 := by
      by_contra entry
      have same := grows.kept _ _ below entry
      exact entry (by rw [← same, vacant])
    rw [index]
    exact grows.dirty_kept _ (pinned j up above fresh before)

/-- From `s` to `t` only places above or at `path` were filled, and the place `up` holds
`addr`. -/
structure Reached (sb : Superblock) (nmeta : Nat) (strict : Bool) (s t : FsState ι) (r : ι × Slot)
    (path up : List Nat) (addr : Nat) : Prop where
  /-- Nothing changed but at the places on the path. -/
  grows : Grows sb nmeta strict (fun r' p => r' = r ∧ p <:+ path) s t
  address : addr = t.forest.address r up
  /-- The place is filled. -/
  occupied : addr ≠ 0

/-- Reaching the inode slot. -/
theorem slot_reached [DecidableEq ι] (layout : Layout sb nmeta)
    (owned : Owned sb nmeta s.inodes s.store.blocks) (settled : Settled strict s.store) (k : ι)
    (i : Slot) (path : List Nat) :
    wp (Store.handler (recording strict)) (loadSlot sb (s.inodes k) i)
      (fun result store =>
        Reached sb nmeta strict s ⟨Function.update s.inodes k result.1, store⟩ (k, i) path [] result.2)
      outOfBlocks s.store := by
  apply wp_mono (loadSlot_spec layout owned settled k i)
  · rintro result store ⟨grows, address, occupied⟩
    refine ⟨grows.weaken ?_, address, occupied⟩
    rintro r p ⟨rfl, rfl⟩
    exact ⟨rfl, List.nil_suffix⟩
  · exact fun _ h => h

/-- Reaching an entry below a place that was reached. -/
theorem entry_reached (layout : Layout sb nmeta) (settled : Settled strict s.store) (logged : Bool)
    {r : ι × Slot} {path up : List Nat} {j addr : Nat} (reached : Reached sb nmeta strict s t r path up addr)
    (place : InTree r path) (above : j :: up <:+ path)
    (pinned : strict = true → logged = false → PinnedAlong s r path) :
    wp (Store.handler (recording strict)) (loadEntry sb logged addr j)
      (fun entry store => Reached sb nmeta strict s ⟨t.inodes, store⟩ r path (j :: up) entry)
      outOfBlocks t.store := by
  obtain ⟨grows, rfl, occupied⟩ := reached
  have held : strict = true → logged = false → t.forest.address r (j :: up) = 0 →
      t.store.dirty (t.forest.address r up) = true := fun checked unlogged vacant =>
    (pinned checked unlogged).grows place grows j up above occupied vacant
  apply wp_mono (loadEntry_spec layout grows.owned (grows.settled settled) logged
    (inTree_suffix above place) occupied held)
  · rintro entry store ⟨more, address, filled⟩
    refine ⟨grows.trans (more.weaken ?_), address, filled⟩
    rintro r' p ⟨rfl, rfl⟩
    exact ⟨rfl, above⟩
  · exact fun _ h => h

/-- The final `log_write` reaches nothing new. -/
theorem touch_reached {r : ι × Slot} {path up : List Nat} {addr : Nat} (inside : InTree r up)
    (reached : Reached sb nmeta strict s t r path up addr) :
    wp (Store.handler (recording strict)) (touchData addr)
      (fun _ store => Reached sb nmeta strict s ⟨t.inodes, store⟩ r path up addr)
      outOfBlocks t.store := by
  obtain ⟨grows, rfl, occupied⟩ := reached
  apply wp_mono (touchData_spec grows.owned inside occupied)
  · rintro _ store ⟨more, same⟩
    refine ⟨grows.trans (more.weaken fun _ _ h => h.elim), ?_, occupied⟩
    simp only [FsState.forest, same]
  · exact fun _ h => h

/-- The single indirect range. -/
theorem bmapSingle_spec [DecidableEq ι] (layout : Layout sb nmeta)
    (owned : Owned sb nmeta s.inodes s.store.blocks) (settled : Settled strict s.store) (k : ι)
    {b : Nat} (place : InTree (k, slotSingle) [b]) :
    wp (Store.handler (recording strict)) (bmapSingle sb (s.inodes k) b)
      (fun result store =>
        Reached sb nmeta strict s ⟨Function.update s.inodes k result.1, store⟩ (k, slotSingle)
          [b] [b] result.2)
      outOfBlocks s.store := by
  rw [bmapSingle, wp_bind]
  refine wp_mono (slot_reached layout owned settled k slotSingle [b]) ?_ fun _ h => h
  rintro ⟨ip, top⟩ store₀ reached₀
  rw [wp_bind]
  have level := entry_reached layout settled true reached₀ place (List.suffix_refl _)
    fun _ h => absurd h (by decide)
  refine wp_mono level ?_ fun _ h => h
  intro addr store₁ reached₁
  exact reached₁

/-- The doubly indirect range. -/
theorem bmapDouble_spec [DecidableEq ι] (layout : Layout sb nmeta)
    (owned : Owned sb nmeta s.inodes s.store.blocks) (settled : Settled strict s.store) (k : ι)
    {b : Nat} (place : InTree (k, slotDouble) (doublePath b))
    (pinned : strict = true → PinnedAlong s (k, slotDouble) (doublePath b)) :
    wp (Store.handler (recording strict)) (bmapDouble sb (s.inodes k) b)
      (fun result store =>
        Reached sb nmeta strict s ⟨Function.update s.inodes k result.1, store⟩ (k, slotDouble)
          (doublePath b) (doublePath b) result.2)
      outOfBlocks s.store := by
  rw [bmapDouble, wp_bind]
  refine wp_mono (slot_reached layout owned settled k slotDouble (doublePath b)) ?_ fun _ h => h
  rintro ⟨ip, top⟩ store₀ reached₀
  rw [wp_bind]
  have level := entry_reached layout settled false reached₀ place ⟨[b % NINDIRECT], rfl⟩
    fun checked _ => pinned checked
  refine wp_mono level ?_ fun _ h => h
  intro first store₁ reached₁
  rw [wp_bind]
  have level := entry_reached layout settled false reached₁ place (List.suffix_refl _)
    fun checked _ => pinned checked
  refine wp_mono level ?_ fun _ h => h
  intro addr store₂ reached₂
  rw [wp_bind]
  refine wp_mono (touch_reached place reached₂) ?_ fun _ h => h
  intro _ store₃ reached₃
  exact reached₃

/-- The triply indirect range. -/
theorem bmapTriple_spec [DecidableEq ι] (layout : Layout sb nmeta)
    (owned : Owned sb nmeta s.inodes s.store.blocks) (settled : Settled strict s.store) (k : ι)
    {b : Nat} (place : InTree (k, slotTriple) (triplePath b))
    (pinned : strict = true → PinnedAlong s (k, slotTriple) (triplePath b)) :
    wp (Store.handler (recording strict)) (bmapTriple sb (s.inodes k) b)
      (fun result store =>
        Reached sb nmeta strict s ⟨Function.update s.inodes k result.1, store⟩ (k, slotTriple)
          (triplePath b) (triplePath b) result.2)
      outOfBlocks s.store := by
  rw [bmapTriple, wp_bind]
  refine wp_mono (slot_reached layout owned settled k slotTriple (triplePath b)) ?_ fun _ h => h
  rintro ⟨ip, top⟩ store₀ reached₀
  rw [wp_bind]
  have level := entry_reached layout settled false reached₀ place
    ⟨[b % NINDIRECT, b % (NINDIRECT * NINDIRECT) / NINDIRECT], rfl⟩ fun checked _ => pinned checked
  refine wp_mono level ?_ fun _ h => h
  intro first store₁ reached₁
  rw [wp_bind]
  have level := entry_reached layout settled false reached₁ place ⟨[b % NINDIRECT], rfl⟩
    fun checked _ => pinned checked
  refine wp_mono level ?_ fun _ h => h
  intro second store₂ reached₂
  rw [wp_bind]
  have level := entry_reached layout settled false reached₂ place (List.suffix_refl _)
    fun checked _ => pinned checked
  refine wp_mono level ?_ fun _ h => h
  intro addr store₃ reached₃
  rw [wp_bind]
  refine wp_mono (touch_reached place reached₃) ?_ fun _ h => h
  intro _ store₄ reached₄
  exact reached₄

/-- In the direct and single indirect ranges every call passes what it changes to `log_write`. -/
theorem pinned_shallow (s : FsState ι) (k : ι) {bn : Nat} (shallow : bn < NDIRECT + NINDIRECT) :
    Pinned s k bn := by
  intro deep
  exfalso
  by_cases direct : bn < NDIRECT
  · rw [position_direct direct] at deep
    simp only [slotDepth] at deep
    omega
  · have single : bn - NDIRECT < NINDIRECT := by omega
    rw [position_single direct single] at deep
    exact absurd deep (by decide : ¬2 ≤ slotDepth slotSingle)

/-- `bmap` fills the place of the block number and returns the address there, or panics for
want of a free block. Where releases are checked the index blocks must be pinned. -/
theorem bmap_spec [DecidableEq ι] (layout : Layout sb nmeta)
    (owned : Owned sb nmeta s.inodes s.store.blocks) (settled : Settled strict s.store) (k : ι)
    {bn : Nat} (inside : bn < MAXFILE) (pinned : strict = true → Pinned s k bn) :
    wp (Store.handler (recording strict)) (bmap sb (s.inodes k) bn)
      (fun result store =>
        Reached sb nmeta strict s ⟨Function.update s.inodes k result.1, store⟩ (k, (position bn).1)
          (position bn).2 (position bn).2 result.2)
      outOfBlocks s.store := by
  have place := (position_inTree k inside).1
  simp only [Pinned] at pinned
  by_cases direct : bn < NDIRECT
  · rw [bmap, dif_pos direct, position_direct direct]
    exact slot_reached layout owned settled k _ _
  · rw [bmap, dif_neg direct]
    by_cases single : bn - NDIRECT < NINDIRECT
    · rw [position_single direct single] at place ⊢
      rw [if_pos single]
      exact bmapSingle_spec layout owned settled k place
    · rw [if_neg single]
      cases Nat.lt_or_ge (bn - NDIRECT - NINDIRECT) (NINDIRECT * NINDIRECT) with
      | inl double =>
        have deep : 2 ≤ slotDepth slotDouble := by decide
        rw [position_double direct single double] at place pinned ⊢
        rw [if_pos double]
        exact bmapDouble_spec layout owned settled k place fun checked => pinned checked deep
      | inr past =>
        have double := Nat.not_lt.mpr past
        have deep : 2 ≤ slotDepth slotTriple := by decide
        rw [position_triple direct single double] at place pinned ⊢
        rw [if_neg double, if_pos (triple_range inside)]
        exact bmapTriple_spec layout owned settled k place fun checked => pinned checked deep

end Map

/-! ## What is recorded -/

/-- From `s` to `t` no change was left unrecorded where releases are checked, and nothing before the
inode blocks was newly logged. -/
structure Recorded (sb : Superblock) (strict : Bool) (s t : Store) : Prop where
  /-- No change is unrecorded. -/
  settled : Settled strict s → Settled strict t
  /-- The logged blocks. -/
  logged : ∀ b ∈ t.log.lh, b ∈ s.log.lh ∨ sb.inodestart ≤ b

namespace Recorded

variable {sb : Superblock} {strict : Bool} {s t u : Store}

/-- Nothing was done. -/
theorem refl (sb : Superblock) (strict : Bool) (s : Store) : Recorded sb strict s s := ⟨id, fun _ => .inl⟩

/-- One change after the other. -/
theorem trans (first : Recorded sb strict s t) (later : Recorded sb strict t u) : Recorded sb strict s u :=
  ⟨later.settled ∘ first.settled, fun b member => (later.logged b member).elim (first.logged b) .inr⟩

/-- A block is changed and passed to `log_write`. -/
theorem change (s : Store) {addr : Nat} (high : sb.inodestart ≤ addr) (update : Block → Block) :
    Recorded sb strict s ((s.modified addr update).record addr) := by
  refine ⟨fun settled checked b => ?_, fun b member => ?_⟩
  · show Function.update (Function.update s.unlogged addr _) addr false b = false
    by_cases here : b = addr
    · rw [here, Function.update_self]
    · rw [Function.update_of_ne here, Function.update_of_ne here]
      exact settled checked b
  · exact (Log.mem_record.mp member).imp id fun same => by rw [same]; exact high

/-- `bmap`. -/
theorem grows {nmeta : Nat} (layout : Layout sb nmeta) {places : ι × Slot → List Nat → Prop} {s t : FsState ι}
    (grows : Grows sb nmeta strict places s t) : Recorded sb strict s.store t.store := by
  refine ⟨grows.settled, fun b member => (grows.logged b member).imp id ?_⟩
  rintro (⟨c, _, rfl⟩ | ⟨r, p, inside, occupied, rfl⟩)
  · exact Nat.le_trans layout.inodes_low.1 (Nat.le_add_left _ _)
  · exact Nat.le_trans layout.inodes_low.2 (grows.owned.data_area r p inside occupied).1

end Recorded

end Xv6
