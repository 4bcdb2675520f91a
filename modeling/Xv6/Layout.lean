import Xv6.Block

/-!
# Parameters and disk layout

Constants of `param.h` and `fs.h`, the super block, and the order of the areas on disk that
`fs.h` describes and `mkfs` writes: boot block, super block, log, inode blocks, free bit map,
data blocks.
-/

namespace Xv6

/-- `param.h`: max number of blocks any file-system operation writes. -/
def MAXOPBLOCKS : Nat := 10

/-- `param.h`: max data blocks in the on-disk log. -/
def LOGSIZE : Nat := MAXOPBLOCKS * 3

/-- `param.h`: size of the disk block cache. -/
def NBUF : Nat := MAXOPBLOCKS * 3

/-- `param.h`: maximum major device number. -/
def NDEV : Nat := 10

/-- `param.h`: device number of the file system root disk. -/
def ROOTDEV : Nat := 1

/-- `fs.h`: direct block addresses of an inode. -/
def NDIRECT : Nat := 10

/-- `fs.h`: addresses in an index block. -/
def NINDIRECT : Nat := BSIZE / 4

/-- `fs.h`: blocks of the largest file. -/
def MAXFILE : Nat :=
  NDIRECT + NINDIRECT + NINDIRECT * NINDIRECT + NINDIRECT * NINDIRECT * NINDIRECT

/-- `fs.h`: inodes per block; a `struct dinode` takes 64 bytes. -/
def IPB : Nat := BSIZE / 64

/-- `fs.h`: bitmap bits per block. -/
def BPB : Nat := BSIZE * 8

/-- `fs.h`: the super block describes the disk layout. -/
structure Superblock where
  /-- Size of the file system image (blocks). -/
  size : Nat
  /-- Number of inodes. -/
  ninodes : Nat
  /-- Number of log blocks. -/
  nlog : Nat
  /-- Block number of the first log block. -/
  logstart : Nat
  /-- Block number of the first inode block. -/
  inodestart : Nat
  /-- Block number of the first free map block. -/
  bmapstart : Nat

/-- Block of the free map containing the bit for block `b`. -/
def BBLOCK (b : Nat) (sb : Superblock) : Nat := b / BPB + sb.bmapstart

/-- Block containing inode `i`. -/
def IBLOCK (i : Nat) (sb : Superblock) : Nat := i / IPB + sb.inodestart

/-- The areas lie on the disk in the order of `fs.h`, metadata in `[0, nmeta)`, and block
numbers fit a `uint`. -/
structure Layout (sb : Superblock) (nmeta : Nat) : Prop where
  /-- Block numbers are 32-bit words. -/
  size_fits : sb.size < 2 ^ 32
  /-- Boot block and super block come first. -/
  log_after_super : 2 ≤ sb.logstart
  /-- The inode blocks follow the log. -/
  inodes_after_log : sb.logstart + sb.nlog ≤ sb.inodestart
  /-- The free map follows the inode blocks. -/
  bitmap_after_inodes : sb.inodestart + (sb.ninodes / IPB + 1) ≤ sb.bmapstart
  /-- The data blocks follow the free map. -/
  data_after_bitmap : sb.bmapstart + (sb.size / BPB + 1) ≤ nmeta

namespace Layout

variable {sb : Superblock} {nmeta : Nat}

/-- The inode blocks come before the free map and the data. -/
theorem inodes_low (layout : Layout sb nmeta) : sb.inodestart ≤ sb.bmapstart ∧ sb.inodestart ≤ nmeta := by
  have bitmap : sb.inodestart ≤ sb.bmapstart := Nat.le_trans (Nat.le_add_right _ _) layout.bitmap_after_inodes
  exact ⟨bitmap, Nat.le_trans bitmap (Nat.le_trans (Nat.le_add_right _ _) layout.data_after_bitmap)⟩

/-- Free map blocks are metadata. -/
theorem bblock_lt (layout : Layout sb nmeta) {b : Nat} (inside : b < sb.size) :
    BBLOCK b sb < nmeta := by
  have monotone : b / BPB ≤ sb.size / BPB := Nat.div_le_div_right (Nat.le_of_lt inside)
  have h := layout.data_after_bitmap
  simp only [BBLOCK, BPB, BSIZE] at monotone h ⊢
  omega

/-- Inode blocks are metadata. -/
theorem iblock_lt (layout : Layout sb nmeta) {inum : Nat} (inside : inum < sb.ninodes) :
    IBLOCK inum sb < nmeta := by
  have monotone : inum / IPB ≤ sb.ninodes / IPB := Nat.div_le_div_right (Nat.le_of_lt inside)
  have h := layout.bitmap_after_inodes
  have h' := layout.data_after_bitmap
  simp only [IBLOCK, IPB, BPB, BSIZE] at monotone h h' ⊢
  omega

/-- No inode block is a free map block. -/
theorem iblock_ne_bblock (layout : Layout sb nmeta) {inum : Nat} (inside : inum < sb.ninodes)
    (b : Nat) : IBLOCK inum sb ≠ BBLOCK b sb := by
  have monotone : inum / IPB ≤ sb.ninodes / IPB := Nat.div_le_div_right (Nat.le_of_lt inside)
  have h := layout.bitmap_after_inodes
  simp only [IBLOCK, BBLOCK, IPB, BPB, BSIZE] at monotone h ⊢
  omega

/-- The boot block is metadata, so a zero address never names a data block. -/
theorem nmeta_pos (layout : Layout sb nmeta) : 0 < nmeta :=
  Nat.lt_of_lt_of_le (Nat.succ_pos _) (Nat.le_trans (Nat.le_add_left _ _) layout.data_after_bitmap)

end Layout

/-- The layout `mkfs` writes: 40000 blocks, 200 inodes. -/
def mkfsSuperblock : Superblock where
  size := 40000
  ninodes := 200
  nlog := LOGSIZE
  logstart := 2
  inodestart := 2 + LOGSIZE
  bmapstart := 2 + LOGSIZE + (200 / IPB + 1)

/-- The image of `mkfs` is laid out in that order. -/
theorem mkfs_layout : Layout mkfsSuperblock (2 + LOGSIZE + (200 / IPB + 1) + (40000 / BPB + 1)) := by
  constructor <;> decide

end Xv6
