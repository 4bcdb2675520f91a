import Xv6.Fs

/-!
# Freeing blocks

The part of `fs.c` that gives blocks back: `bfree` clears the bit of one block in the free map,
and `itrunc` walks the direct addresses and the three index trees of an inode. The trees are
walked alike but for the last level of the triply indirect one, whose entries are freed without
asking whether they are zero.
-/

namespace Xv6

/-- `bfree`: free a disk block. -/
def bfree (sb : Superblock) (b : Nat) : Kernel Unit := do
  let data ← bread (BBLOCK b sb)
  if data.bit (b % BPB) = false then panic "freeing free block"
  else do
    modify (BBLOCK b sb) (Block.clearBit · (b % BPB))
    logWrite (BBLOCK b sb)
    brelse (BBLOCK b sb)

/-- `for(j = 0; j < NINDIRECT; j++)` over the entries `a[j]` of an index block. -/
def forEntries (visit : Nat → Kernel Unit) : List Nat → Kernel Unit
  | [] => pure ()
  | entry :: rest => do
    visit entry
    forEntries visit rest

/-- The entries `a[0 .. NINDIRECT)` of an index block. -/
def Block.entries (data : Block) : List Nat := (List.range NINDIRECT).map data.word

/-- `if(entry) free(entry)`. -/
def ifMapped (free : Nat → Kernel Unit) (entry : Nat) : Kernel Unit :=
  if entry = 0 then pure () else free entry

/-- One level of an index tree: `bp = bread(addr)`, the loop over its entries, `brelse(bp)`,
then `bfree(addr)`. -/
def freeIndex (sb : Superblock) (visit : Nat → Kernel Unit) (addr : Nat) : Kernel Unit := do
  let data ← bread addr
  forEntries visit data.entries
  brelse addr
  bfree sb addr

/-- The single indirect tree. -/
def freeSingle (sb : Superblock) : Nat → Kernel Unit :=
  freeIndex sb (ifMapped (bfree sb))

/-- The doubly indirect tree. -/
def freeDouble (sb : Superblock) : Nat → Kernel Unit :=
  freeIndex sb (ifMapped (freeIndex sb (ifMapped (bfree sb))))

/-- The triply indirect tree: `bfree(ip->dev, a2[k])` stands without a test of `a2[k]`. -/
def freeTriple (sb : Superblock) : Nat → Kernel Unit :=
  freeIndex sb (ifMapped (freeIndex sb (ifMapped (freeIndex sb (bfree sb)))))

/-- `if(ip->addrs[i]){ free(ip->addrs[i]); ip->addrs[i] = 0; }`. -/
def freeSlot (free : Nat → Kernel Unit) (ip : Inode) (i : Fin (NDIRECT + 3)) : Kernel Inode :=
  if ip.addrs i = 0 then pure ip
  else do
    free (ip.addrs i)
    pure (ip.setAddr i 0)

/-- The loop over the direct addresses. -/
def freeDirect (sb : Superblock) (ip : Inode) : List (Fin (NDIRECT + 3)) → Kernel Inode
  | [] => pure ip
  | i :: rest => do
    let ip ← freeSlot (bfree sb) ip i
    freeDirect sb ip rest

/-- The direct slots `0 .. NDIRECT` in order. -/
def directSlots : List (Fin (NDIRECT + 3)) := (List.finRange NDIRECT).map (Fin.castAdd 3)

/-- `itrunc`: discard the contents of an inode. -/
def itrunc (sb : Superblock) (ip : Inode) : Kernel Inode := do
  let ip ← freeDirect sb ip directSlots
  let ip ← freeSlot (freeSingle sb) ip slotSingle
  let ip ← freeSlot (freeDouble sb) ip slotDouble
  let ip ← freeSlot (freeTriple sb) ip slotTriple
  let ip := { ip with size := 0 }
  iupdate sb ip
  pure ip

end Xv6
