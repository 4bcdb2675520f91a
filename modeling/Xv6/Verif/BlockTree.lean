import Xv6.Store
import Xv6.Lib.Forest
import Mathlib.Tactic.Linarith

/-!
# The block tree of an inode

The addresses in inode slots and index blocks form a forest whose roots are the inode slots
and whose paths are as long as the slot is indirect. A block number maps to one place of full
depth. `Owned` is the ownership invariant of the file system: no block number occurs at two
places, every one is a data-area block whose free map bit is set, and the free map bits of
metadata are set. Each level of `bmap` leaves the forest alone or grafts one block that
`balloc` has taken and zeroed; `Grows` says everything such a step can do, and composes.
-/

namespace Xv6

open Program

variable {ι : Type}

/-- An index into `addrs`. -/
abbrev Slot : Type := Fin (NDIRECT + 3)

/-- How many index blocks stand above the data blocks of a slot. -/
def slotDepth (i : Slot) : Nat := i.val + 1 - NDIRECT

/-- The forest of block addresses held in inodes and index blocks. -/
def blockForest (inodes : ι → Inode) (blocks : Nat → Block) : Forest (ι × Slot) Nat Nat where
  root r := (inodes r.1).addrs r.2
  entry a k := (blocks a).word k

@[simp] theorem blockForest_root (inodes : ι → Inode) (blocks : Nat → Block) (r : ι × Slot) :
    (blockForest inodes blocks).root r = (inodes r.1).addrs r.2 := rfl

@[simp] theorem blockForest_entry (inodes : ι → Inode) (blocks : Nat → Block) (a k : Nat) :
    (blockForest inodes blocks).entry a k = (blocks a).word k := rfl

/-- The places of the forest: paths no longer than the slot is indirect. -/
def InTree (r : ι × Slot) (path : List Nat) : Prop :=
  path.length ≤ slotDepth r.2 ∧ ∀ k ∈ path, k < NINDIRECT

/-- The free map bit of a block is set. -/
def Used (sb : Superblock) (blocks : Nat → Block) (b : Nat) : Prop :=
  (blocks (BBLOCK b sb)).bit (b % BPB) = true

/-- The path of a block number in the doubly indirect range. -/
def doublePath (b : Nat) : List Nat := [b % NINDIRECT, b / NINDIRECT]

/-- The path of a block number in the triply indirect range. -/
def triplePath (b : Nat) : List Nat :=
  [b % NINDIRECT, b % (NINDIRECT * NINDIRECT) / NINDIRECT, b / (NINDIRECT * NINDIRECT)]

/-- The slot and the path, last index first, of a block number. -/
def position (bn : Nat) : Slot × List Nat :=
  if h : bn < NDIRECT then (⟨bn, direct_lt h⟩, [])
  else if bn - NDIRECT < NINDIRECT then (slotSingle, [bn - NDIRECT])
  else if bn - NDIRECT - NINDIRECT < NINDIRECT * NINDIRECT then
    (slotDouble, doublePath (bn - NDIRECT - NINDIRECT))
  else (slotTriple, triplePath (bn - NDIRECT - NINDIRECT - NINDIRECT * NINDIRECT))

/-- The direct range. -/
theorem position_direct {bn : Nat} (direct : bn < NDIRECT) :
    position bn = (⟨bn, direct_lt direct⟩, []) := by
  rw [position, dif_pos direct]

/-- The single indirect range. -/
theorem position_single {bn : Nat} (direct : ¬bn < NDIRECT) (single : bn - NDIRECT < NINDIRECT) :
    position bn = (slotSingle, [bn - NDIRECT]) := by
  rw [position, dif_neg direct, if_pos single]

/-- The doubly indirect range. -/
theorem position_double {bn : Nat} (direct : ¬bn < NDIRECT) (single : ¬bn - NDIRECT < NINDIRECT)
    (double : bn - NDIRECT - NINDIRECT < NINDIRECT * NINDIRECT) :
    position bn = (slotDouble, doublePath (bn - NDIRECT - NINDIRECT)) := by
  rw [position, dif_neg direct, if_neg single, if_pos double]

/-- The triply indirect range. -/
theorem position_triple {bn : Nat} (direct : ¬bn < NDIRECT) (single : ¬bn - NDIRECT < NINDIRECT)
    (double : ¬bn - NDIRECT - NINDIRECT < NINDIRECT * NINDIRECT) :
    position bn = (slotTriple, triplePath (bn - NDIRECT - NINDIRECT - NINDIRECT * NINDIRECT)) := by
  rw [position, dif_neg direct, if_neg single, if_neg double]

/-- Past the earlier ranges a block number in range is in the triply indirect range. -/
theorem triple_range {bn : Nat} (inside : bn < MAXFILE) :
    bn - NDIRECT - NINDIRECT - NINDIRECT * NINDIRECT < NINDIRECT * NINDIRECT * NINDIRECT := by
  simp only [MAXFILE, NDIRECT, NINDIRECT, BSIZE] at *
  omega

/-- The disk block mapped at a block number of an inode, zero for none. -/
def mapping (inodes : ι → Inode) (blocks : Nat → Block) (k : ι) (bn : Nat) : Nat :=
  (blockForest inodes blocks).address (k, (position bn).1) (position bn).2

/-- The ownership invariant. -/
structure Owned (sb : Superblock) (nmeta : Nat) (inodes : ι → Inode) (blocks : Nat → Block) :
    Prop where
  /-- Every nonzero address occurs at one place only. -/
  exclusive : (blockForest inodes blocks).Exclusive InTree
  /-- Every nonzero address is a data-area block. -/
  data_area : ∀ r p, InTree r p → (blockForest inodes blocks).address r p ≠ 0 →
    nmeta ≤ (blockForest inodes blocks).address r p ∧
      (blockForest inodes blocks).address r p < sb.size
  /-- Every nonzero address has its free map bit set. -/
  used : ∀ r p, InTree r p → (blockForest inodes blocks).address r p ≠ 0 →
    Used sb blocks ((blockForest inodes blocks).address r p)
  /-- The free map bits of metadata blocks are set. -/
  meta_used : ∀ b, b < nmeta → b < sb.size → Used sb blocks b

/-! ## Places -/

/-- The place above a place is a place. -/
theorem inTree_up {r : ι × Slot} {k : Nat} {up : List Nat} (h : InTree r (k :: up)) :
    InTree r up := by
  obtain ⟨short, bounded⟩ := h
  simp only [List.length_cons] at short
  exact ⟨by omega, fun j member => bounded j (List.mem_cons_of_mem _ member)⟩

/-- Every tail of a place is a place. -/
theorem inTree_suffix {r : ι × Slot} {up path : List Nat} (above : up <:+ path)
    (h : InTree r path) : InTree r up :=
  ⟨Nat.le_trans above.length_le h.1, fun k member => h.2 k (above.subset member)⟩

/-- Indices of the doubly indirect range are entries of an index block. -/
theorem doublePath_lt {b : Nat} (inside : b < NINDIRECT * NINDIRECT) :
    ∀ j ∈ doublePath b, j < NINDIRECT := by
  intro j member
  simp only [doublePath, List.mem_cons, List.not_mem_nil, or_false] at member
  rcases member with rfl | rfl
  · exact Nat.mod_lt _ (by decide)
  · exact Nat.div_lt_of_lt_mul inside

/-- Indices of the triply indirect range are entries of an index block. -/
theorem triplePath_lt {b : Nat} (inside : b < NINDIRECT * NINDIRECT * NINDIRECT) :
    ∀ j ∈ triplePath b, j < NINDIRECT := by
  intro j member
  simp only [triplePath, List.mem_cons, List.not_mem_nil, or_false] at member
  rcases member with rfl | rfl | rfl
  · exact Nat.mod_lt _ (by decide)
  · exact Nat.div_lt_of_lt_mul (Nat.mod_lt _ (by decide))
  · exact Nat.div_lt_of_lt_mul inside

/-- A block number in range has a place of full depth. -/
theorem position_inTree (k : ι) {bn : Nat} (inside : bn < MAXFILE) :
    InTree (k, (position bn).1) (position bn).2 ∧
      (position bn).2.length = slotDepth (position bn).1 := by
  by_cases direct : bn < NDIRECT
  · rw [position_direct direct]
    refine ⟨⟨Nat.zero_le _, fun _ h => absurd h List.not_mem_nil⟩, ?_⟩
    simp only [slotDepth, NDIRECT, List.length_nil] at direct ⊢
    omega
  · by_cases single : bn - NDIRECT < NINDIRECT
    · rw [position_single direct single]
      exact ⟨⟨Nat.le_refl _, fun j h => by rw [List.mem_singleton.mp h]; exact single⟩, rfl⟩
    · by_cases double : bn - NDIRECT - NINDIRECT < NINDIRECT * NINDIRECT
      · rw [position_double direct single double]
        exact ⟨⟨Nat.le_refl _, doublePath_lt double⟩, rfl⟩
      · rw [position_triple direct single double]
        exact ⟨⟨Nat.le_refl _, triplePath_lt (triple_range inside)⟩, rfl⟩

/-- The block number of a place of full depth. -/
def blockNumber (place : Slot × List Nat) : Nat :=
  match place.2 with
  | [] => place.1.val
  | [b] => NDIRECT + b
  | [low, high] => NDIRECT + NINDIRECT + (NINDIRECT * high + low)
  | [low, middle, high] =>
    NDIRECT + NINDIRECT + NINDIRECT * NINDIRECT +
      (NINDIRECT * NINDIRECT * high + (NINDIRECT * middle + low))
  | _ => 0

/-- The index arithmetic of `bmap` loses nothing in any of its four ranges. -/
theorem blockNumber_position (bn : Nat) : blockNumber (position bn) = bn := by
  unfold position
  split
  · rfl
  · split
    · simp only [blockNumber]
      omega
    · split
      · simp only [blockNumber, doublePath, Nat.div_add_mod]
        omega
      · have low : ∀ b, b % NINDIRECT = b % (NINDIRECT * NINDIRECT) % NINDIRECT := fun b =>
          (Nat.mod_mul_left_mod b NINDIRECT NINDIRECT).symm
        simp only [blockNumber, triplePath]
        rw [low, Nat.div_add_mod, Nat.div_add_mod]
        omega

/-- Distinct block numbers have distinct places. -/
theorem position_injective {bn bn' : Nat} (h : position bn = position bn') : bn = bn' := by
  rw [← blockNumber_position bn, h, blockNumber_position]

namespace Owned

variable {sb : Superblock} {nmeta : Nat} {inodes inodes' : ι → Inode} {blocks blocks' : Nat → Block}

/-- A mapped block tells its inode and its block number. -/
theorem mapping_injective (owned : Owned sb nmeta inodes blocks) {k k' : ι} {bn bn' : Nat}
    (inside : bn < MAXFILE) (inside' : bn' < MAXFILE) (mapped : mapping inodes blocks k bn ≠ 0)
    (same : mapping inodes blocks k bn = mapping inodes blocks k' bn') : k = k' ∧ bn = bn' := by
  have places := owned.exclusive _ _ _ _ (position_inTree k inside).1 (position_inTree k' inside').1
    mapped same
  have owner : k = k' := congrArg Prod.fst places.1
  have slot : (position bn).1 = (position bn').1 := congrArg Prod.snd places.1
  exact ⟨owner, position_injective (Prod.ext slot places.2)⟩

/-- A data block is not an index block. -/
theorem mapping_ne_index (owned : Owned sb nmeta inodes blocks) {k : ι} {bn : Nat}
    (inside : bn < MAXFILE) (mapped : mapping inodes blocks k bn ≠ 0) {r : ι × Slot} {j : Nat}
    {up : List Nat} (below : InTree r (j :: up)) :
    mapping inodes blocks k bn ≠ (blockForest inodes blocks).address r up := by
  intro same
  obtain ⟨place, full⟩ := position_inTree k inside
  have equal := owned.exclusive _ _ r up place (inTree_up below) mapped same
  have short := below.1
  have depth := full
  rw [equal.2] at depth
  have slot : (position bn).1 = r.2 := congrArg Prod.snd equal.1
  rw [slot] at depth
  simp only [List.length_cons] at short
  omega

/-- Inodes with the same addresses over blocks that agree on the index blocks have the same
forest. -/
theorem address_frame (roots : ∀ k, (inodes' k).addrs = (inodes k).addrs)
    (index : ∀ r j up, InTree r (j :: up) → (blockForest inodes blocks).address r up ≠ 0 →
      blocks' ((blockForest inodes blocks).address r up) =
        blocks ((blockForest inodes blocks).address r up))
    (r : ι × Slot) (p : List Nat) (inside : InTree r p) :
    (blockForest inodes' blocks').address r p = (blockForest inodes blocks).address r p := by
  have closed : ∀ (r : ι × Slot) j up, InTree r (j :: up) → InTree r up := fun _ _ _ => inTree_up
  apply Forest.address_congr closed
  · intro r
    simp only [blockForest_root, roots]
  · intro r j up below occupied
    simp only [blockForest_entry, index r j up below occupied]
  · exact inside

/-- The invariant depends on the addresses in inodes, the index blocks and the free map
only. -/
theorem frame (owned : Owned sb nmeta inodes blocks)
    (roots : ∀ k, (inodes' k).addrs = (inodes k).addrs)
    (bits : ∀ b, b < sb.size → blocks' (BBLOCK b sb) = blocks (BBLOCK b sb))
    (index : ∀ r j up, InTree r (j :: up) → (blockForest inodes blocks).address r up ≠ 0 →
      blocks' ((blockForest inodes blocks).address r up) =
        blocks ((blockForest inodes blocks).address r up)) :
    Owned sb nmeta inodes' blocks' := by
  have same := address_frame roots index
  have used : ∀ b, b < sb.size → (Used sb blocks' b ↔ Used sb blocks b) := by
    intro b exist
    unfold Used
    rw [bits b exist]
  constructor
  · intro r p r' p' inside inside' occupied equal
    rw [same r p inside] at occupied equal
    rw [same r' p' inside'] at equal
    exact owned.exclusive r p r' p' inside inside' occupied equal
  · intro r p inside occupied
    rw [same r p inside] at occupied ⊢
    exact owned.data_area r p inside occupied
  · intro r p inside occupied
    rw [same r p inside] at occupied ⊢
    rw [used _ (owned.data_area r p inside occupied).2]
    exact owned.used r p inside occupied
  · intro b low exist
    rw [used b exist]
    exact owned.meta_used b low exist

end Owned

/-! ## Growth -/

/-- A file system: the in-memory inodes and the store. -/
structure FsState (ι : Type) where
  /-- In-memory inodes. -/
  inodes : ι → Inode
  /-- Cached blocks and log. -/
  store : Store

namespace FsState

/-- The forest of a file system. -/
abbrev forest (s : FsState ι) : Forest (ι × Slot) Nat Nat := blockForest s.inodes s.store.blocks

/-- The block mapped at a block number of an inode. -/
abbrev mapped (s : FsState ι) (k : ι) (bn : Nat) : Nat := mapping s.inodes s.store.blocks k bn

end FsState

/-- The invariant between kernel calls when releases are checked: no change is unrecorded. -/
def Settled (strict : Bool) (s : Store) : Prop := strict = true → ∀ b, s.unlogged b = false

/-- Where releases are not checked there is nothing to hold. -/
theorem settled_unchecked (s : Store) : Settled false s := fun checked => absurd checked Bool.false_ne_true

/-- A block that `bmap` may pass to `log_write`: a free map block or a block of the forest. -/
def Loggable (sb : Superblock) (s : FsState ι) (b : Nat) : Prop :=
  (∃ c, c < sb.size ∧ b = BBLOCK c sb) ∨
    ∃ r p, InTree r p ∧ s.forest.address r p ≠ 0 ∧ b = s.forest.address r p

/-- Everything a part of `bmap` can do: addresses appear at the places in `places` only,
an address once there stays, the new blocks are dirty, and blocks that are neither free map
blocks nor index blocks nor new keep their contents. -/
structure Grows (sb : Superblock) (nmeta : Nat) (strict : Bool)
    (places : ι × Slot → List Nat → Prop) (s t : FsState ι) : Prop where
  owned : Owned sb nmeta t.inodes t.store.blocks
  /-- An address once there stays. -/
  kept : ∀ r p, InTree r p → s.forest.address r p ≠ 0 → t.forest.address r p = s.forest.address r p
  /-- Addresses appear at the given places only. -/
  others : ∀ r p, InTree r p → ¬places r p → t.forest.address r p = s.forest.address r p
  /-- Data blocks keep their contents. -/
  data_kept : ∀ r p, InTree r p → p.length = slotDepth r.2 → s.forest.address r p ≠ 0 →
    t.store.blocks (s.forest.address r p) = s.store.blocks (s.forest.address r p)
  /-- Blocks outside the free map and the forest keep their contents. -/
  frame : ∀ b, (∀ c, c < sb.size → b ≠ BBLOCK c sb) →
    (∀ r p, InTree r p → t.forest.address r p ≠ 0 → t.forest.address r p ≠ b) →
    t.store.blocks b = s.store.blocks b
  /-- Only the addresses of an inode change. -/
  inode : ∀ k, t.inodes k = { s.inodes k with addrs := (t.inodes k).addrs }
  /-- Dirty blocks stay dirty. -/
  dirty_kept : ∀ b, s.store.dirty b = true → t.store.dirty b = true
  /-- New blocks are dirty. -/
  fresh_dirty : ∀ r p, InTree r p → s.forest.address r p = 0 → t.forest.address r p ≠ 0 →
    t.store.dirty (t.forest.address r p) = true
  /-- No change is left unrecorded where that is checked. -/
  settled : Settled strict s.store → Settled strict t.store
  /-- Only free map blocks and blocks of the forest are recorded in the log. -/
  logged : ∀ b ∈ t.store.log.lh, b ∈ s.store.log.lh ∨ Loggable sb t b

namespace Grows

variable {sb : Superblock} {nmeta : Nat} {strict : Bool} {places places' : ι × Slot → List Nat → Prop}
  {s t u : FsState ι}

/-- Growing by nothing. -/
theorem refl (owned : Owned sb nmeta s.inodes s.store.blocks) :
    Grows sb nmeta strict places s s where
  owned := owned
  kept _ _ _ _ := rfl
  others _ _ _ _ := rfl
  data_kept _ _ _ _ _ := rfl
  frame _ _ _ := rfl
  inode _ := rfl
  dirty_kept _ h := h
  fresh_dirty _ _ _ vacant occupied := absurd vacant occupied
  settled h := h
  logged _ h := .inl h

/-- Growing at more places. -/
theorem weaken (h : Grows sb nmeta strict places s t) (wider : ∀ r p, places r p → places' r p) :
    Grows sb nmeta strict places' s t :=
  { h with others := fun r p inside outside => h.others r p inside fun now => outside (wider r p now) }

/-- Growth composes. -/
theorem trans (first : Grows sb nmeta strict places s t) (second : Grows sb nmeta strict places t u) :
    Grows sb nmeta strict places s u where
  owned := second.owned
  kept r p inside occupied := by
    have once := first.kept r p inside occupied
    rw [second.kept r p inside (by rw [once]; exact occupied), once]
  others r p inside outside := by
    rw [second.others r p inside outside, first.others r p inside outside]
  data_kept r p inside full occupied := by
    have once := first.kept r p inside occupied
    have again := second.data_kept r p inside full (by rw [once]; exact occupied)
    rw [once] at again
    rw [again, first.data_kept r p inside full occupied]
  frame b outside unowned := by
    have before : ∀ r p, InTree r p → t.forest.address r p ≠ 0 → t.forest.address r p ≠ b := by
      intro r p inside occupied
      have same := second.kept r p inside occupied
      rw [← same]
      exact unowned r p inside (by rw [same]; exact occupied)
    rw [second.frame b outside unowned, first.frame b outside before]
  inode k := by
    rw [second.inode k, first.inode k]
  dirty_kept b h := second.dirty_kept b (first.dirty_kept b h)
  fresh_dirty r p inside vacant occupied := by
    by_cases still : t.forest.address r p = 0
    · exact second.fresh_dirty r p inside still occupied
    · rw [second.kept r p inside still]
      exact second.dirty_kept _ (first.fresh_dirty r p inside vacant still)
  settled h := second.settled (first.settled h)
  logged b member := by
    rcases second.logged b member with before | now
    · rcases first.logged b before with old | bit | ⟨r, p, inside, occupied, rfl⟩
      · exact .inl old
      · exact .inr (.inl bit)
      · have kept := second.kept r p inside occupied
        exact .inr (.inr ⟨r, p, inside, by rw [kept]; exact occupied, kept.symm⟩)
    · exact .inr now

end Grows

end Xv6
