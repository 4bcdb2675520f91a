import Xv6.Verif.BlockMap

/-!
# Empty file systems

A file system whose inodes have no blocks has the ownership invariant once the bits of its
metadata are set. A small instance, laid out as `mkfs` does, serves for runs on fixed inputs.
-/

namespace Xv6

variable {ι : Type}

/-- An inode as `ialloc` leaves it: a file with no blocks. -/
def emptyInode (inum : Nat) : Inode where
  inum := inum
  type := T_FILE
  major := 0
  minor := 0
  nlink := 1
  size := 0
  addrs := fun _ => 0

/-- Without addresses in the inodes the forest is empty. -/
theorem address_empty {inodes : ι → Inode} (empty : ∀ k i, (inodes k).addrs i = 0)
    (blocks : Nat → Block) (r : ι × Slot) (p : List Nat) :
    (blockForest inodes blocks).address r p = 0 := by
  induction p with
  | nil => exact empty r.1 r.2
  | cons j up ih => exact Forest.address_below_vacant ih j

/-- Inodes without blocks on a disk whose metadata bits are set. -/
theorem Owned.empty {sb : Superblock} {nmeta : Nat} {inodes : ι → Inode} {blocks : Nat → Block}
    (empty : ∀ k i, (inodes k).addrs i = 0)
    (meta_used : ∀ b, b < nmeta → b < sb.size → Used sb blocks b) : Owned sb nmeta inodes blocks where
  exclusive r p _ _ _ _ occupied := absurd (address_empty empty blocks r p) occupied
  data_area r p _ occupied := absurd (address_empty empty blocks r p) occupied
  used r p _ occupied := absurd (address_empty empty blocks r p) occupied
  meta_used := meta_used

/-! ## A small instance -/

/-- Twenty blocks: two log blocks, one inode block and one free map block before the data. -/
def smallSuperblock : Superblock where
  size := 20
  ninodes := 2
  nlog := 2
  logstart := 2
  inodestart := 4
  bmapstart := 5

/-- Its six metadata blocks. -/
theorem small_layout : Layout smallSuperblock 6 := by
  constructor <;> decide

/-- The free map has the bits of the six metadata blocks set, everything else is zero. -/
def smallBlocks (b : Nat) : Block := fun i => if b = 5 ∧ i.val = 0 then 63 else 0

/-- An empty log in which one operation is open. -/
def smallLog : Log where
  start := 2
  size := 2
  outstanding := 1
  committing := false
  lh := []

/-- Two empty files on the small disk. -/
def smallState : FsState (Fin 2) where
  inodes k := emptyInode k.val
  store := Store.boot smallBlocks smallLog

/-- The small file system has the ownership invariant. -/
theorem small_owned : Owned smallSuperblock 6 smallState.inodes smallState.store.blocks := by
  apply Owned.empty
  · exact fun _ _ => rfl
  · unfold Used
    decide

end Xv6
