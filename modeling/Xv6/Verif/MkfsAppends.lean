import Xv6.Mkfs
import Xv6.Verif.Dinodes
import Xv6.Verif.Files
import Mathlib.Algebra.BigOperators.Fin

/-!
# Appending in `mkfs`

Seen with the free map that `mkfs` writes at the end, the image under construction is a file
system of the kernel: `freeblock++` is the kernel's `balloc`, and one round of the loop of
`iappend` is `bmap` and a store into the block that it maps. So the laws of kernel writes hold
of `iappend`, as long as it stays within the direct and single indirect ranges; past them it
indexes outside `indirect`.
-/

namespace Xv6

open Program Splice

/-! ## The free map -/

/-- The free map of `mkfs` marks the blocks below a bound. -/
theorem bit_bitmap {used j : Nat} (inside : j < 8 * BSIZE) : (bitmap used).bit j = decide (j < used) := by
  induction used with
  | zero => simp [bitmap]
  | succ used ih =>
    have step : bitmap (used + 1) = (bitmap used).setBit used := by
      unfold bitmap
      rw [List.range_succ, List.foldl_append]
      rfl
    rw [step, Block.bit_setBit _ inside, ih]
    by_cases low : j < used
    · simp [low, Nat.lt_succ_of_lt low]
    · by_cases here : j = used
      · simp [here]
      · have high : ¬j < used + 1 := by omega
        simp [low, here, high]

/-- Marking one more block. -/
theorem bitmap_succ (used : Nat) : bitmap (used + 1) = (bitmap used).setBit used := by
  unfold bitmap
  rw [List.range_succ, List.foldl_append]
  rfl

/-- The inner loop of the kernel's `balloc` finds the first clear bit. -/
theorem findFree_first {sb : Superblock} {data : Block} {b bi n fuel : Nat}
    (set : ∀ j, bi ≤ j → j < n → data.bit j = true) (clear : data.bit n = false) (start : bi ≤ n)
    (exist : b + n < sb.size) (enough : n < bi + fuel) : findFree sb data b bi fuel = some n := by
  induction fuel generalizing bi with
  | zero => omega
  | succ fuel ih =>
    unfold findFree
    rw [if_pos (by omega)]
    by_cases here : bi = n
    · subst here
      rw [clear]
      rfl
    · rw [set bi (Nat.le_refl _) (by omega), if_pos rfl]
      exact ih (fun j low high => set j (by omega) high) (by omega) (by omega)

namespace DiskImage

/-- The sectors with the free map that `balloc` will write. -/
def marked (img : DiskImage) : Nat → Block :=
  Function.update img.sectors mkfsSuperblock.bmapstart (bitmap img.freeblock)

/-- What holds of the image between the steps of `mkfs`: the blocks from `freeblock` on and the
rest of the free map are blank. -/
structure Ready (img : DiskImage) : Prop where
  /-- Data blocks come after the metadata. -/
  low : nmeta ≤ img.freeblock
  /-- Blocks not taken are blank. -/
  blank : ∀ b, img.freeblock ≤ b → img.sectors b = Block.zero
  /-- Only the first block of the free map is written. -/
  rest : ∀ b, mkfsSuperblock.bmapstart < b → b < nmeta → img.sectors b = Block.zero

/-- The metadata blocks of `mkfs`. -/
theorem nmeta_eq : nmeta = 68 := by decide

/-- The first block of the free map. -/
theorem bmapstart_eq : mkfsSuperblock.bmapstart = 58 := by decide

variable {img : DiskImage}

/-- Blocks other than the free map are those of the image. -/
theorem marked_ne {b : Nat} (other : b ≠ mkfsSuperblock.bmapstart) : img.marked b = img.sectors b :=
  Function.update_of_ne other _ _

/-- Blocks of the data area are those of the image. -/
theorem marked_data {b : Nat} (high : nmeta ≤ b) : img.marked b = img.sectors b := by
  rw [nmeta_eq] at high
  apply marked_ne
  rw [bmapstart_eq]
  omega

/-- Writing a sector other than the free map. -/
theorem marked_wsect {sec : Nat} {buf : Block} (other : sec ≠ mkfsSuperblock.bmapstart) :
    (img.wsect sec buf).marked = Function.update img.marked sec buf := by
  unfold marked wsect
  exact (Function.update_comm (Ne.symm other) _ _ _).symm

/-- The marked blocks in use are those below `freeblock`. -/
theorem used_marked (ready : img.Ready) (few : img.freeblock ≤ BSIZE * 8) {b : Nat}
    (exist : b < mkfsSuperblock.size) :
    Used mkfsSuperblock img.marked b ↔ b < img.freeblock := by
  have size : mkfsSuperblock.size = 40000 := rfl
  have index : b % BPB < 8 * BSIZE := Nat.mod_lt _ (by decide)
  unfold Used BBLOCK
  by_cases first : b < BPB
  · rw [Nat.div_eq_of_lt first, Nat.zero_add, marked, Function.update_self, bit_bitmap index,
      Nat.mod_eq_of_lt first, decide_eq_true_eq]
  · have block : mkfsSuperblock.bmapstart < b / BPB + mkfsSuperblock.bmapstart ∧
        b / BPB + mkfsSuperblock.bmapstart < nmeta := by
      rw [nmeta_eq, bmapstart_eq]
      simp only [BPB, BSIZE] at first ⊢
      omega
    rw [marked_ne (by omega), ready.rest _ block.1 block.2, Block.bit_zero]
    simp only [BPB] at first
    simp only [Bool.false_eq_true, false_iff]
    omega

end DiskImage

/-! ## Allocation -/

section Allocation

variable {img : DiskImage} {s : Store}

/-- The kernel's `balloc` on the marked image is `freeblock++`. -/
theorem balloc_takes (ready : img.Ready) (room : img.freeblock < BSIZE * 8)
    (same : s.blocks = img.marked) :
    wp (Store.handler (recording false)) (balloc mkfsSuperblock)
      (fun c t => c = img.freeblock ∧ t.blocks = img.taken.marked) (fun _ => False) s := by
  have size : mkfsSuperblock.size = 40000 := rfl
  have low := ready.low
  rw [DiskImage.nmeta_eq] at low
  simp only [BSIZE] at room
  have block : BBLOCK 0 mkfsSuperblock = mkfsSuperblock.bmapstart := rfl
  have data : s.blocks (BBLOCK 0 mkfsSuperblock) = bitmap img.freeblock := by
    rw [same, block, DiskImage.marked, Function.update_self]
  have found : findFree mkfsSuperblock (bitmap img.freeblock) 0 0 BPB = some img.freeblock := by
    apply findFree_first
    · intro j _ high
      rw [bit_bitmap (by simp only [BSIZE]; omega)]
      exact decide_eq_true high
    · rw [bit_bitmap (by simp only [BSIZE]; omega)]
      exact decide_eq_false (Nat.lt_irrefl _)
    · exact Nat.zero_le _
    · omega
    · simp only [BPB, BSIZE]
      omega
  have fresh : img.freeblock ≠ mkfsSuperblock.bmapstart := by
    rw [DiskImage.bmapstart_eq]
    omega
  unfold balloc ballocFrom
  rw [if_pos (by decide), Store.wp_bread, data, found]
  simp only [Store.wp_modify, Store.wp_logWrite_recording, bzero]
  rw [Store.wp_brelse (.inl rfl), wp_bind]
  simp only [Store.wp_bread, Store.wp_modify, Store.wp_logWrite_recording]
  rw [Store.wp_brelse_last (.inl rfl), wp_pure]
  refine ⟨Nat.zero_add _, ?_⟩
  funext b
  simp only [Store.record, Store.logged, Store.modified, Nat.zero_add, Function.update_apply, block]
  by_cases new : b = img.freeblock
  · rw [if_pos new, new, DiskImage.marked_ne fresh]
    exact (ready.blank _ (Nat.le_refl _)).symm
  · rw [if_neg new]
    by_cases map : b = mkfsSuperblock.bmapstart
    · rw [if_pos map, map, ← block, data, block, DiskImage.marked, Function.update_self]
      exact (bitmap_succ _).symm
    · rw [if_neg map, same, DiskImage.marked_ne map, DiskImage.marked_ne map]
      rfl

/-- Taking a block keeps the image ready. -/
theorem DiskImage.Ready.taken (ready : img.Ready) : img.taken.Ready where
  low := Nat.le_succ_of_le ready.low
  blank b high := ready.blank b (Nat.le_of_succ_le high)
  rest := ready.rest

/-- Writing a block that is taken keeps the image ready. -/
theorem DiskImage.Ready.wsect (ready : img.Ready) {sec : Nat} (buf : Block)
    (taken : sec < img.freeblock) (other : sec ≤ mkfsSuperblock.bmapstart ∨ DiskImage.nmeta ≤ sec) :
    (img.wsect sec buf).Ready where
  low := ready.low
  blank b high := by
    show Function.update img.sectors sec buf b = _
    rw [Function.update_of_ne (by have : img.freeblock ≤ b := high; omega)]
    exact ready.blank b high
  rest b low high := by
    show Function.update img.sectors sec buf b = _
    rw [Function.update_of_ne (by omega)]
    exact ready.rest b low high

/-- A slot of the inode is loaded alike. -/
theorem loadSlot_takes (ready : img.Ready) (din : Inode) (i : Slot) (same : s.blocks = img.marked)
    (room : (img.loadAddr din i).2.freeblock ≤ BSIZE * 8) :
    wp (Store.handler (recording false)) (loadSlot mkfsSuperblock din i)
      (fun result t => result = ((img.loadAddr din i).1, (img.loadAddr din i).1.addrs i) ∧
        t.blocks = (img.loadAddr din i).2.marked) (fun _ => False) s := by
  unfold DiskImage.loadAddr at room ⊢
  unfold loadSlot
  by_cases vacant : din.addrs i = 0
  · simp only [if_pos vacant] at room ⊢
    have before : img.freeblock < BSIZE * 8 := room
    rw [wp_bind]
    apply wp_mono (balloc_takes ready before same)
    · rintro _ t ⟨rfl, blocks⟩
      rw [wp_pure]
      refine ⟨?_, blocks⟩
      unfold Inode.setAddr
      simp only [Function.update_self]
    · exact fun _ impossible => impossible
  · simp only [if_neg vacant]
    exact ⟨rfl, same⟩

/-- An entry of an index block is loaded alike. -/
theorem loadEntry_takes (ready : img.Ready) {addr i : Nat} (high : DiskImage.nmeta ≤ addr)
    (same : s.blocks = img.marked) {fresh : Nat} {after : DiskImage}
    (loaded : (if (img.sectors addr).word i = 0 then
      (img.freeblock, img.taken.wsect addr ((img.sectors addr).setWord i img.freeblock))
      else ((img.sectors addr).word i, img)) = (fresh, after))
    (room : after.freeblock ≤ BSIZE * 8) :
    wp (Store.handler (recording false)) (loadEntry mkfsSuperblock true addr i)
      (fun result t => result = fresh ∧ t.blocks = after.marked) (fun _ => False) s := by
  have data : s.blocks addr = img.sectors addr := by
    rw [same, DiskImage.marked_data high]
  have apart : addr ≠ mkfsSuperblock.bmapstart := by
    rw [DiskImage.nmeta_eq] at high
    rw [DiskImage.bmapstart_eq]
    omega
  unfold loadEntry
  rw [Store.wp_bread, data]
  by_cases vacant : (img.sectors addr).word i = 0
  · rw [if_pos vacant] at loaded ⊢
    obtain ⟨rfl, rfl⟩ := Prod.mk.inj loaded
    have before : img.freeblock < BSIZE * 8 := room
    rw [wp_bind]
    apply wp_mono (balloc_takes ready before same)
    · rintro _ t ⟨rfl, blocks⟩
      simp only [Store.wp_modify, ↓reduceIte, Store.wp_logWrite_recording]
      rw [Store.wp_brelse (.inl rfl), wp_pure]
      refine ⟨rfl, ?_⟩
      have old : t.blocks addr = img.sectors addr := by
        rw [blocks, DiskImage.marked_data high]
        rfl
      rw [DiskImage.marked_wsect apart, ← blocks]
      show Function.update t.blocks addr ((t.blocks addr).setWord i img.freeblock) = _
      rw [old]
    · exact fun _ impossible => impossible
  · rw [if_neg vacant] at loaded ⊢
    obtain ⟨rfl, rfl⟩ := Prod.mk.inj loaded
    rw [Store.wp_brelse (.inl rfl), wp_pure]
    exact ⟨rfl, same⟩

end Allocation

/-! ## One block of a file -/

/-- How many blocks `iappend` takes to have block `fbn` of a file. -/
def blockCost (din : Inode) (blocks : Nat → Block) (fbn : Nat) : Nat :=
  (if NDIRECT ≤ fbn ∧ din.addrs slotSingle = 0 then 1 else 0) +
    if blockAt din blocks fbn = 0 then 1 else 0

/-- What `appendBlock` does within the direct and single indirect ranges: it takes the blocks that
are missing, and on the marked image it is the kernel's `bmap`. -/
structure Appended (img : DiskImage) (din : Inode) (fbn x : Nat) (din' : Inode) (img' : DiskImage) :
    Prop where
  ready : img'.Ready
  freeinode : img'.freeinode = img.freeinode
  /-- The metadata stays. -/
  metadata : ∀ b, b < DiskImage.nmeta → img'.sectors b = img.sectors b
  /-- The blocks taken. -/
  cost : img'.freeblock = img.freeblock + blockCost din img.marked fbn
  /-- The kernel does the same. -/
  maps : img'.freeblock ≤ BSIZE * 8 → ∀ s : Store, s.blocks = img.marked →
    wp (Store.handler (recording false)) (bmap mkfsSuperblock din fbn)
      (fun result t => result = (din', x) ∧ t.blocks = img'.marked) (fun _ => False) s

section Append

variable {img : DiskImage} {din : Inode} {fbn : Nat}

/-- Loading a slot takes one block if it is vacant. -/
theorem loadAddr_freeblock (img : DiskImage) (din : Inode) (i : Slot) :
    (img.loadAddr din i).2.freeblock = img.freeblock + if din.addrs i = 0 then 1 else 0 := by
  unfold DiskImage.loadAddr
  split <;> rfl

/-- Loading a slot writes no sector. -/
theorem loadAddr_sectors (img : DiskImage) (din : Inode) (i : Slot) : (img.loadAddr din i).2.sectors = img.sectors ∧
    (img.loadAddr din i).2.freeinode = img.freeinode := by
  unfold DiskImage.loadAddr
  split <;> exact ⟨rfl, rfl⟩

/-- Loading a slot keeps the image ready. -/
theorem loadAddr_ready (ready : img.Ready) (din : Inode) (i : Slot) : (img.loadAddr din i).2.Ready := by
  unfold DiskImage.loadAddr
  split
  · exact ready.taken
  · exact ready

/-- A loaded slot holds a block that is taken. -/
theorem loadAddr_taken (ready : img.Ready) {i : Slot}
    (before : din.addrs i ≠ 0 → DiskImage.nmeta ≤ din.addrs i ∧ din.addrs i < img.freeblock) :
    DiskImage.nmeta ≤ (img.loadAddr din i).1.addrs i ∧
      (img.loadAddr din i).1.addrs i < (img.loadAddr din i).2.freeblock := by
  unfold DiskImage.loadAddr
  split
  · show DiskImage.nmeta ≤ Function.update din.addrs i img.freeblock i ∧
      Function.update din.addrs i img.freeblock i < img.freeblock + 1
    rw [Function.update_self]
    exact ⟨ready.low, Nat.lt_succ_self _⟩
  · rename_i filled
    exact before filled

/-- The block map of an inode in the direct range is its slot. -/
theorem blockAt_direct (direct : fbn < NDIRECT) (blocks : Nat → Block) :
    blockAt din blocks fbn = din.addrs ⟨fbn, direct_lt direct⟩ := by
  unfold blockAt mapping
  rw [position_direct direct]
  rfl

/-- A direct block. -/
theorem appendBlock_direct (ready : img.Ready) (direct : fbn < NDIRECT) :
    ∃ x din' img', img.appendBlock din fbn = .ok (x, din', img') ∧ Appended img din fbn x din' img' := by
  have slot : fbn < NDIRECT + 3 := direct_lt direct
  have block : blockAt din img.marked fbn = din.addrs ⟨fbn, slot⟩ := blockAt_direct direct _
  refine ⟨(img.loadAddr din ⟨fbn, slot⟩).1.addrs ⟨fbn, slot⟩, (img.loadAddr din ⟨fbn, slot⟩).1,
    (img.loadAddr din ⟨fbn, slot⟩).2, dif_pos direct, ?_⟩
  constructor
  · exact loadAddr_ready ready _ _
  · exact (loadAddr_sectors _ _ _).2
  · intro b _
    rw [(loadAddr_sectors _ _ _).1]
  · have flat : ¬(NDIRECT ≤ fbn ∧ din.addrs slotSingle = 0) := by omega
    rw [loadAddr_freeblock, blockCost, block, if_neg flat, Nat.zero_add]
  · intro room s same
    rw [bmap, dif_pos direct]
    exact loadSlot_takes ready din _ same room

/-- The block map of an inode past the direct range goes through the index block. -/
theorem blockAt_single (direct : ¬fbn < NDIRECT) (single : fbn - NDIRECT < NINDIRECT) (blocks : Nat → Block) :
    blockAt din blocks fbn = if din.addrs slotSingle = 0 then 0
      else (blocks (din.addrs slotSingle)).word (fbn - NDIRECT) := by
  unfold blockAt mapping
  rw [position_single direct single]
  rfl

/-- `appendBlock` past the direct range, once the index block is loaded. -/
theorem appendBlock_indexed (direct : ¬fbn < NDIRECT) {din₁ : Inode} {img₁ : DiskImage}
    (loaded : img.loadAddr din slotSingle = (din₁, img₁)) :
    img.appendBlock din fbn =
      if NINDIRECT ≤ fbn - NDIRECT then .error (.outside "indirect" (fbn - NDIRECT))
      else if (img₁.sectors (din₁.addrs slotSingle)).word (fbn - NDIRECT) = 0 then
        .ok (img₁.freeblock, din₁, img₁.taken.wsect (din₁.addrs slotSingle)
          ((img₁.sectors (din₁.addrs slotSingle)).setWord (fbn - NDIRECT) img₁.freeblock))
      else .ok ((img₁.sectors (din₁.addrs slotSingle)).word (fbn - NDIRECT), din₁, img₁) := by
  rw [DiskImage.appendBlock, dif_neg direct, loaded]

/-- A block of the single indirect range. -/
theorem appendBlock_single (ready : img.Ready) (direct : ¬fbn < NDIRECT) (single : fbn - NDIRECT < NINDIRECT)
    (index : din.addrs slotSingle ≠ 0 →
      DiskImage.nmeta ≤ din.addrs slotSingle ∧ din.addrs slotSingle < img.freeblock) :
    ∃ x din' img', img.appendBlock din fbn = .ok (x, din', img') ∧ Appended img din fbn x din' img' := by
  have indexed := loadAddr_taken ready index
  have ready₁ := loadAddr_ready ready din slotSingle
  have sectors := loadAddr_sectors img din slotSingle
  have freeblock := loadAddr_freeblock img din slotSingle
  have slot := fun (s : Store) (same : s.blocks = img.marked) room =>
    loadSlot_takes ready din slotSingle same room
  have missing : ((img.loadAddr din slotSingle).2.sectors
      ((img.loadAddr din slotSingle).1.addrs slotSingle)).word (fbn - NDIRECT) =
        blockAt din img.marked fbn := by
    rw [blockAt_single direct single, sectors.1]
    by_cases vacant : din.addrs slotSingle = 0
    · have new : (img.loadAddr din slotSingle).1.addrs slotSingle = img.freeblock := by
        unfold DiskImage.loadAddr
        rw [if_pos vacant]
        show Function.update din.addrs slotSingle img.freeblock slotSingle = _
        rw [Function.update_self]
      rw [if_pos vacant, new, ready.blank _ (Nat.le_refl _), Block.word_zero]
    · have old : (img.loadAddr din slotSingle).1.addrs slotSingle = din.addrs slotSingle := by
        unfold DiskImage.loadAddr
        rw [if_neg vacant]
      rw [if_neg vacant, old, DiskImage.marked_data (index vacant).1]
  cases loaded : img.loadAddr din slotSingle with
  | mk din₁ img₁ =>
    rw [loaded] at indexed ready₁ sectors freeblock missing slot
    dsimp only at indexed ready₁ sectors freeblock missing slot
    have maps : ∀ {fresh : Nat} {after : DiskImage},
        (if (img₁.sectors (din₁.addrs slotSingle)).word (fbn - NDIRECT) = 0 then
          (img₁.freeblock, img₁.taken.wsect (din₁.addrs slotSingle)
            ((img₁.sectors (din₁.addrs slotSingle)).setWord (fbn - NDIRECT) img₁.freeblock))
          else ((img₁.sectors (din₁.addrs slotSingle)).word (fbn - NDIRECT), img₁)) = (fresh, after) →
        img₁.freeblock ≤ after.freeblock → after.freeblock ≤ BSIZE * 8 →
        ∀ s : Store, s.blocks = img.marked →
          wp (Store.handler (recording false)) (bmap mkfsSuperblock din fbn)
            (fun result t => result = (din₁, fresh) ∧ t.blocks = after.marked) (fun _ => False) s := by
      intro fresh after entry more room s same
      rw [bmap, dif_neg direct, if_pos single, bmapSingle, wp_bind]
      refine wp_mono (slot s same (Nat.le_trans more room)) ?_ fun _ h => h
      intro result t reached
      obtain ⟨rfl, blocks⟩ := reached
      rw [wp_bind]
      refine wp_mono (loadEntry_takes ready₁ indexed.1 blocks entry room) ?_ fun _ h => h
      intro value u entered
      obtain ⟨rfl, marked⟩ := entered
      exact ⟨rfl, marked⟩
    have cost : blockCost din img.marked fbn = (if din.addrs slotSingle = 0 then 1 else 0) +
        if blockAt din img.marked fbn = 0 then 1 else 0 := by
      rw [blockCost]
      simp only [Nat.le_of_not_lt direct, true_and]
    have inside : ¬NINDIRECT ≤ fbn - NDIRECT := Nat.not_le_of_lt single
    rw [appendBlock_indexed direct loaded, if_neg inside]
    by_cases vacant : (img₁.sectors (din₁.addrs slotSingle)).word (fbn - NDIRECT) = 0
    · refine ⟨_, din₁, _, if_pos vacant, ?_⟩
      constructor
      · exact ready₁.taken.wsect _ (Nat.lt_succ_of_lt indexed.2) (.inr indexed.1)
      · exact sectors.2
      · intro b metadata
        show Function.update img₁.sectors (din₁.addrs slotSingle) _ b = _
        have apart : b ≠ din₁.addrs slotSingle := by omega
        rw [Function.update_of_ne apart, sectors.1]
      · rw [missing] at vacant
        show img₁.freeblock + 1 = _
        rw [freeblock, cost, if_pos vacant, Nat.add_assoc]
      · exact fun room => maps (if_pos vacant) (Nat.le_succ _) room
    · refine ⟨_, din₁, _, if_neg vacant, ?_⟩
      constructor
      · exact ready₁
      · exact sectors.2
      · intro b _
        rw [sectors.1]
      · rw [missing] at vacant
        rw [freeblock, cost, if_neg vacant, Nat.add_zero]
      · exact fun room => maps (if_neg vacant) (Nat.le_refl _) room

/-- Past the single indirect range `iappend` indexes outside `indirect`. -/
theorem appendBlock_outside (past : NDIRECT + NINDIRECT ≤ fbn) :
    img.appendBlock din fbn = .error (.outside "indirect" (fbn - NDIRECT)) := by
  have direct : ¬fbn < NDIRECT := by omega
  have beyond : NINDIRECT ≤ fbn - NDIRECT := by omega
  rw [DiskImage.appendBlock, dif_neg direct]
  exact if_pos beyond

/-- Up to there it always finds a block. -/
theorem appendBlock_total (img : DiskImage) (din : Inode) {fbn : Nat} (inside : fbn < NDIRECT + NINDIRECT) :
    ∃ found, img.appendBlock din fbn = .ok found := by
  unfold DiskImage.appendBlock
  by_cases direct : fbn < NDIRECT
  · exact ⟨_, dif_pos direct⟩
  · have within : ¬NINDIRECT ≤ fbn - NDIRECT := by omega
    rw [dif_neg direct]
    dsimp only
    rw [if_neg within]
    split
    · exact ⟨_, rfl⟩
    · exact ⟨_, rfl⟩

end Append

/-! ## One round of the loop -/

/-- The image as a store: the marked sectors, and the log as `initlog` leaves it. -/
def DiskImage.store (img : DiskImage) : Store :=
  Store.boot img.marked { start := 2, size := LOGSIZE, outstanding := 0, committing := false, lh := [] }

section Rounds

variable {ι : Type} [DecidableEq ι] {img : DiskImage} {inodes : ι → Inode} {k : ι}

omit [DecidableEq ι] in
/-- The addresses of an inode are blocks that are taken. -/
theorem address_taken (ready : img.Ready) (few : img.freeblock ≤ BSIZE * 8)
    (owned : Owned mkfsSuperblock DiskImage.nmeta inodes img.marked) {r : ι × Slot} {p : List Nat}
    (inside : InTree r p) (occupied : (blockForest inodes img.marked).address r p ≠ 0) :
    DiskImage.nmeta ≤ (blockForest inodes img.marked).address r p ∧
      (blockForest inodes img.marked).address r p < img.freeblock := by
  have area := owned.data_area r p inside occupied
  have used := owned.used r p inside occupied
  exact ⟨area.1, (DiskImage.used_marked ready few area.2).mp used⟩

/-- One round of the loop of `iappend` is the kernel's `bmap` and a store into the block it maps. -/
theorem appendRound (owned : Owned mkfsSuperblock DiskImage.nmeta inodes img.marked)
    {off x : Nat} (src : List UInt8) {din' : Inode} {img' : DiskImage}
    (appended : Appended img (inodes k) (off / BSIZE) x din' img') (room : img'.freeblock ≤ BSIZE * 8)
    (inside : off / BSIZE < MAXFILE) (fits : off % BSIZE + src.length ≤ BSIZE) :
    Wrote mkfsSuperblock DiskImage.nmeta ⟨inodes, img.store⟩
        ⟨Function.update inodes k din',
          (img'.wsect x ((img'.sectors x).splice (off % BSIZE) src)).store⟩ k off src ∧
      (img'.wsect x ((img'.sectors x).splice (off % BSIZE) src)).Ready ∧ DiskImage.nmeta ≤ x := by
  have kernel := bmap_spec (s := ⟨inodes, img.store⟩) mkfs_layout owned (settled_unchecked _) k inside
    fun checked => absurd checked Bool.false_ne_true
  obtain ⟨result, store, ran, same, blocks⟩ := wp_returns (appended.maps room img.store rfl)
  have reached := wp_ok kernel ran
  subst same
  have wrote := Wrote.part mkfs_layout inside fits reached
  have place := (position_inTree k inside).1
  have owned' : Owned mkfsSuperblock DiskImage.nmeta (Function.update inodes k din') img'.marked := by
    rw [← blocks]
    exact reached.grows.owned
  have here : x = (blockForest (Function.update inodes k din') img'.marked).address
      (k, (position (off / BSIZE)).1) (position (off / BSIZE)).2 := by
    rw [← blocks]
    exact reached.address
  have taken : DiskImage.nmeta ≤ x ∧ x < img'.freeblock := by
    rw [here]
    exact address_taken appended.ready room owned' place (here ▸ reached.occupied)
  have high := taken.1
  rw [DiskImage.nmeta_eq] at high
  have apart : x ≠ mkfsSuperblock.bmapstart := by
    rw [DiskImage.bmapstart_eq]
    omega
  refine ⟨?_, appended.ready.wsect _ taken.2 (.inr taken.1), taken.1⟩
  refine wrote.congr rfl rfl rfl ?_
  show (img'.wsect x _).marked = Function.update store.blocks x ((store.blocks x).splice (off % BSIZE) src)
  rw [DiskImage.marked_wsect apart, blocks, DiskImage.marked_data taken.1]

end Rounds

/-! ## Accounting -/

/-- The blocks that `iappend` takes for a file of some length: those of the data, and the index block
past the direct range. -/
def blocksFor (n : Nat) : Nat := (n + 511) / BSIZE + if NDIRECT * BSIZE < n then 1 else 0

/-- A longer file needs no fewer blocks. -/
theorem blocksFor_mono {m n : Nat} (longer : m ≤ n) : blocksFor m ≤ blocksFor n := by
  have direct : NDIRECT * BSIZE = 5120 := rfl
  have size : BSIZE = 512 := rfl
  unfold blocksFor
  rw [direct, size]
  split_ifs <;> omega

/-- At the start of a block the longer file needs one more, and the index block after the direct
range. -/
theorem blocksFor_aligned {off n : Nat} (aligned : off % BSIZE = 0) (some_bytes : 0 < n) :
    blocksFor off + 1 + (if off = NDIRECT * BSIZE then 1 else 0) ≤ blocksFor (off + n) := by
  have direct : NDIRECT * BSIZE = 5120 := rfl
  have size : BSIZE = 512 := rfl
  rw [size] at aligned
  unfold blocksFor
  rw [direct, size]
  split_ifs <;> omega

/-- A round takes the blocks that the longer file needs. -/
theorem blockCost_le {din : Inode} {blocks : Nat → Block} {off n : Nat}
    (below : ∀ bn, bn * BSIZE < off → blockAt din blocks bn ≠ 0) (some_bytes : 0 < n)
    (inside : off / BSIZE < NDIRECT + NINDIRECT) :
    blocksFor off + blockCost din blocks (off / BSIZE) ≤ blocksFor (off + n) := by
  have index : ∀ bn, NDIRECT ≤ bn → bn < NDIRECT + NINDIRECT → bn * BSIZE < off → din.addrs slotSingle ≠ 0 := by
    intro bn past low mapped vacant
    apply below bn mapped
    rw [blockAt_single (by omega) (by omega), if_pos vacant]
  have whole := Nat.div_add_mod off BSIZE
  rw [Nat.mul_comm] at whole
  unfold blockCost
  by_cases aligned : off % BSIZE = 0
  · rw [aligned, Nat.add_zero] at whole
    have needed := blocksFor_aligned aligned some_bytes
    have data : (if blockAt din blocks (off / BSIZE) = 0 then 1 else 0) ≤ 1 := by
      split <;> omega
    have first : (if NDIRECT ≤ off / BSIZE ∧ din.addrs slotSingle = 0 then 1 else 0) ≤
        if off = NDIRECT * BSIZE then 1 else 0 := by
      by_cases missing : NDIRECT ≤ off / BSIZE ∧ din.addrs slotSingle = 0
      · have start : off = NDIRECT * BSIZE := by
          by_contra past
          have lower := Nat.mul_le_mul_right BSIZE missing.1
          exact index NDIRECT (Nat.le_refl _) (by decide) (by omega) missing.2
        rw [if_pos missing, if_pos start]
      · rw [if_neg missing]
        exact Nat.zero_le _
    omega
  · have partial_block : off / BSIZE * BSIZE < off := by omega
    have mapped := below (off / BSIZE) partial_block
    have first : ¬(NDIRECT ≤ off / BSIZE ∧ din.addrs slotSingle = 0) := fun missing =>
      index (off / BSIZE) missing.1 inside partial_block missing.2
    rw [if_neg mapped, if_neg first]
    exact blocksFor_mono (Nat.le_add_right _ _)

/-! ## `iappend` -/

section Appending

variable {ι : Type} [DecidableEq ι] {img : DiskImage} {inodes : ι → Inode} {k : ι}

/-- `appendBlock` fills at most the direct slot of its block. -/
theorem appendBlock_slots {img img' : DiskImage} {din din' : Inode} {fbn x : Nat}
    (returned : img.appendBlock din fbn = .ok (x, din', img')) {i : Slot} (direct : i.val < NDIRECT)
    (other : i.val ≠ fbn) : din'.addrs i = din.addrs i := by
  have loaded : ∀ j : Slot, j ≠ i → (img.loadAddr din j).1.addrs i = din.addrs i := by
    intro j apart
    unfold DiskImage.loadAddr
    split
    · exact Function.update_of_ne (Ne.symm apart) _ _
    · rfl
  by_cases low : fbn < NDIRECT
  · rw [DiskImage.appendBlock, dif_pos low] at returned
    cases returned
    exact loaded ⟨fbn, direct_lt low⟩ fun same => other (congrArg Fin.val same).symm
  · have apart : slotSingle ≠ i := fun same => by
      have index : slotSingle.val = NDIRECT := rfl
      rw [same] at index
      omega
    rw [appendBlock_indexed low rfl] at returned
    split at returned
    · cases returned
    · split at returned
      · cases returned
        exact loaded slotSingle apart
      · cases returned
        exact loaded slotSingle apart

/-- `iappend` fills no direct slot past the end of the longer file. -/
theorem appendLoop_slots {img img' : DiskImage} {din din' : Inode} {off off' fuel : Nat} {p : List UInt8}
    (returned : img.appendLoop din off p fuel = .ok (din', img', off')) {i : Slot} (direct : i.val < NDIRECT)
    (past : off + p.length ≤ i.val * BSIZE) : din'.addrs i = din.addrs i := by
  induction fuel generalizing img din off p with
  | zero =>
    cases returned
    rfl
  | succ fuel ih =>
    rw [DiskImage.appendLoop] at returned
    by_cases none : p.length = 0
    · rw [if_pos none] at returned
      cases returned
      rfl
    · rw [if_neg none] at returned
      split at returned
      · cases returned
      · cases step : img.appendBlock din (off / BSIZE) with
        | error fault =>
          rw [step] at returned
          cases returned
        | ok found =>
          obtain ⟨x, din₁, img₁⟩ := found
          rw [step] at returned
          have other : i.val ≠ off / BSIZE := by
            have start := Nat.div_mul_le_self off BSIZE
            intro same
            rw [← same] at start
            omega
          have rest := ih returned (by
            rw [List.length_drop]
            omega)
          exact rest.trans (appendBlock_slots step direct other)

/-- What appending to one file does: the bytes are written, the image stays ready, and it takes no
more blocks than the longer file needs. -/
structure Appends (img : DiskImage) (inodes : ι → Inode) (k : ι) (off : Nat) (p : List UInt8)
    (img' : DiskImage) (inodes' : ι → Inode) : Prop where
  /-- The bytes are written. -/
  wrote : Wrote mkfsSuperblock DiskImage.nmeta ⟨inodes, img.store⟩ ⟨inodes', img'.store⟩ k off p
  ready : img'.Ready
  freeinode : img'.freeinode = img.freeinode
  /-- The blocks taken. -/
  taken : img'.freeblock + blocksFor off ≤ img.freeblock + blocksFor (off + p.length)

/-- Within the direct and single indirect ranges the loop of `iappend` writes its bytes. -/
theorem appendLoop_appends {off : Nat} {p : List UInt8} {fuel : Nat} (ready : img.Ready)
    (owned : Owned mkfsSuperblock DiskImage.nmeta inodes img.marked)
    (below : ∀ bn, bn * BSIZE < off → mapping inodes img.marked k bn ≠ 0)
    (inside : off + p.length ≤ (NDIRECT + NINDIRECT) * BSIZE)
    (room : img.freeblock + blocksFor (off + p.length) ≤ BSIZE * 8 + blocksFor off)
    (enough : p.length ≤ fuel) :
    ∃ din' img', img.appendLoop (inodes k) off p fuel = .ok (din', img', off + p.length) ∧
      Appends img inodes k off p img' (Function.update inodes k din') ∧
      ∀ b, b < DiskImage.nmeta → img'.sectors b = img.sectors b := by
  induction fuel generalizing img inodes off p with
  | zero =>
    have empty : p = [] := List.length_eq_zero_iff.mp (Nat.le_zero.mp enough)
    subst empty
    refine ⟨inodes k, img, rfl, ?_, fun _ _ => rfl⟩
    rw [Function.update_eq_self]
    exact ⟨.nothing owned k off, ready, rfl, Nat.le_refl _⟩
  | succ fuel ih =>
    rw [DiskImage.appendLoop]
    by_cases none : p.length = 0
    · have empty : p = [] := List.length_eq_zero_iff.mp none
      subst empty
      refine ⟨inodes k, img, rfl, ?_, fun _ _ => rfl⟩
      rw [Function.update_eq_self]
      exact ⟨.nothing owned k off, ready, rfl, Nat.le_refl _⟩
    · have few : img.freeblock ≤ BSIZE * 8 := by
        have longer := blocksFor_mono (Nat.le_add_right off p.length)
        omega
      have block : off / BSIZE < NDIRECT + NINDIRECT :=
        Nat.div_lt_of_lt_mul (by rw [Nat.mul_comm]; omega)
      have maximum : NDIRECT + NINDIRECT ≤ MAXFILE := by decide
      have index : (inodes k).addrs slotSingle ≠ 0 →
          DiskImage.nmeta ≤ (inodes k).addrs slotSingle ∧ (inodes k).addrs slotSingle < img.freeblock :=
        fun occupied => address_taken ready few owned (r := (k, slotSingle)) (p := [])
          ⟨Nat.zero_le _, fun _ member => absurd member List.not_mem_nil⟩ occupied
      have step : ∃ x din₁ img₁, img.appendBlock (inodes k) (off / BSIZE) = .ok (x, din₁, img₁) ∧
          Appended img (inodes k) (off / BSIZE) x din₁ img₁ := by
        by_cases direct : off / BSIZE < NDIRECT
        · exact appendBlock_direct ready direct
        · exact appendBlock_single ready direct (by omega) index
      obtain ⟨x, din₁, img₁, returned, appended⟩ := step
      have start : off - off / BSIZE * BSIZE = off % BSIZE := by
        have whole := Nat.div_add_mod off BSIZE
        rw [Nat.mul_comm] at whole
        omega
      have short : off % BSIZE < BSIZE := Nat.mod_lt _ (by decide)
      have left : (off / BSIZE + 1) * BSIZE - off = BSIZE - off % BSIZE := by
        have whole := Nat.div_add_mod off BSIZE
        rw [Nat.mul_comm] at whole
        rw [Nat.add_mul]
        omega
      rw [if_neg none, if_neg (by omega), returned, start, left]
      have length : (p.take (min p.length (BSIZE - off % BSIZE))).length =
          min p.length (BSIZE - off % BSIZE) := by
        rw [List.length_take]
        omega
      have rest : (p.drop (min p.length (BSIZE - off % BSIZE))).length =
          p.length - min p.length (BSIZE - off % BSIZE) := List.length_drop
      have whole : p.take (min p.length (BSIZE - off % BSIZE)) ++
          p.drop (min p.length (BSIZE - off % BSIZE)) = p := List.take_append_drop _ _
      have fits : min p.length (BSIZE - off % BSIZE) ≤ BSIZE - off % BSIZE := Nat.min_le_right _ _
      have progress : 0 < min p.length (BSIZE - off % BSIZE) := by omega
      have part : min p.length (BSIZE - off % BSIZE) ≤ p.length := Nat.min_le_left _ _
      generalize min p.length (BSIZE - off % BSIZE) = n1 at length rest whole fits progress part ⊢
      have cost := blockCost_le (n := n1) (fun bn low => mapping_eq_blockAt inodes img.marked k bn ▸ below bn low)
        progress block
      have grown := blocksFor_mono (Nat.add_le_add_left part off)
      have taken := appended.cost
      have room₁ : img₁.freeblock ≤ BSIZE * 8 := by omega
      obtain ⟨wrote, ready₂, high⟩ := appendRound owned (p.take n1) appended room₁
        (Nat.lt_of_lt_of_le block maximum) (by omega)
      have metadata : ∀ b, b < DiskImage.nmeta →
          (img₁.wsect x ((img₁.sectors x).splice (off % BSIZE) (p.take n1))).sectors b = img.sectors b := by
        intro b low
        show Function.update img₁.sectors x _ b = _
        rw [Function.update_of_ne (Nat.ne_of_lt (Nat.lt_of_lt_of_le low high)), appended.metadata b low]
      have freeblock : (img₁.wsect x ((img₁.sectors x).splice (off % BSIZE) (p.take n1))).freeblock =
          img₁.freeblock := rfl
      have freeinode : (img₁.wsect x ((img₁.sectors x).splice (off % BSIZE) (p.take n1))).freeinode =
          img.freeinode := appended.freeinode
      dsimp only [Bind.bind, Except.bind]
      generalize img₁.wsect x ((img₁.sectors x).splice (off % BSIZE) (p.take n1)) = img₂ at *
      have end_eq : off + n1 + (p.drop n1).length = off + p.length := by omega
      have short_file : off ≤ MAXFILE * BSIZE := by
        have bound := Nat.mul_le_mul_right BSIZE maximum
        omega
      have owned₂ : Owned mkfsSuperblock DiskImage.nmeta (Function.update inodes k din₁) img₂.marked := wrote.owned
      have below₂ : ∀ bn, bn * BSIZE < off + n1 →
          mapping (Function.update inodes k din₁) img₂.marked k bn ≠ 0 :=
        fun bn low => wrote.mapped_below short_file below (by rw [length]; exact low)
      have enough₂ : (p.drop n1).length ≤ fuel := by omega
      obtain ⟨din', img', returned', appends, metadata'⟩ := ih ready₂ owned₂ below₂ (by omega)
        (by rw [end_eq]; omega) enough₂
      rw [Function.update_self, end_eq] at returned'
      rw [Function.update_idem] at appends
      refine ⟨din', img', returned', ?_, fun b low => (metadata' b low).trans (metadata b low)⟩
      have later := appends.wrote
      rw [← length] at later
      have both := wrote.trans later (by
        rw [length, whole]
        have bound := Nat.mul_le_mul_right BSIZE maximum
        omega)
      rw [length, whole] at both
      refine ⟨both, appends.ready, appends.freeinode.trans freeinode, ?_⟩
      have more := appends.taken
      rw [end_eq] at more
      omega

end Appending

/-! ## Inodes of the image -/

/-- The inode numbers of the image. -/
abbrev Inum : Type := Fin mkfsSuperblock.ninodes

namespace DiskImage

variable {img img' : DiskImage}

/-- The inodes as `rinode` reads them. -/
def inodes (img : DiskImage) : Inum → Inode := fun k => img.rinode k

/-- The image as a file system of the kernel. -/
def fs (img : DiskImage) : FsState Inum := ⟨img.inodes, img.store⟩

/-- Inode blocks lie below the free map. -/
theorem iblock_lt {inum : Nat} (inside : inum < mkfsSuperblock.ninodes) :
    IBLOCK inum mkfsSuperblock < mkfsSuperblock.bmapstart := by
  have ninodes : mkfsSuperblock.ninodes = 200 := rfl
  have start : mkfsSuperblock.inodestart = 32 := rfl
  rw [bmapstart_eq, IBLOCK, start]
  simp only [IPB, BSIZE]
  omega

/-- The inodes depend on the metadata only. -/
theorem rinode_congr (metadata : ∀ b, b < nmeta → img'.sectors b = img.sectors b) {inum : Nat}
    (inside : inum < mkfsSuperblock.ninodes) : img'.rinode inum = img.rinode inum := by
  have block := iblock_lt inside
  rw [bmapstart_eq] at block
  rw [rinode, rinode, metadata _ (by rw [nmeta_eq]; omega)]

/-- `rinode` reads what `winode` wrote. -/
theorem rinode_winode {din : Inode} (fits : din.Fits) : (img.winode din).rinode din.inum = din := by
  rw [rinode, winode, wsect]
  dsimp only
  rw [Function.update_self, getDinode_putDinode fits]

/-- `winode` changes no other inode. -/
theorem rinode_winode_ne {din : Inode} {inum : Nat} (other : inum ≠ din.inum) :
    (img.winode din).rinode inum = img.rinode inum := by
  rw [rinode, rinode, winode, wsect]
  dsimp only
  by_cases block : IBLOCK inum mkfsSuperblock = IBLOCK din.inum mkfsSuperblock
  · have slot : inum % IPB ≠ din.inum % IPB := fun same => other (inum_eq_of_slot block same)
    rw [block, Function.update_self, getDinode_putDinode_ne _ _ slot]
  · rw [Function.update_of_ne block]

/-- `winode` keeps the image ready. -/
theorem Ready.winode (ready : img.Ready) {din : Inode} (inside : din.inum < mkfsSuperblock.ninodes) :
    (img.winode din).Ready := by
  have block := iblock_lt inside
  have low := ready.low
  rw [bmapstart_eq] at block
  rw [nmeta_eq] at low
  exact ready.wsect _ (by omega) (.inl (by rw [bmapstart_eq]; omega))

/-- `winode` of an inode with a new size writes no byte of a file. -/
theorem winode_wrote {inodes : Inum → Inode} {k : Inum} (owned : Owned mkfsSuperblock nmeta inodes img.marked)
    (numbered : (inodes k).inum = k) (off size : Nat) :
    Wrote mkfsSuperblock nmeta ⟨inodes, img.store⟩
      ⟨Function.update inodes k { inodes k with size := size },
        (img.winode { inodes k with size := size }).store⟩ k off [] := by
  have inside : (inodes k).inum < mkfsSuperblock.ninodes := by
    rw [numbered]
    exact k.isLt
  have apart := Nat.ne_of_lt (iblock_lt inside)
  have wrote := Wrote.resized (s := ⟨inodes, img.store⟩) mkfs_layout off size
    (putDinode { inodes k with size := size }) owned inside
  refine wrote.congr rfl rfl rfl ?_
  show (img.wsect (IBLOCK (inodes k).inum mkfsSuperblock) _).marked =
    Function.update img.marked (IBLOCK (inodes k).inum mkfsSuperblock)
      (putDinode { inodes k with size := size } (img.marked (IBLOCK (inodes k).inum mkfsSuperblock)))
  rw [marked_wsect apart, marked_ne apart]

/-- The fields of an inode fit again after its size and addresses changed. -/
theorem fits_grown {inodes : Inum → Inode} {k : Inum} {size : Nat} {addrs : Fin (NDIRECT + 3) → Nat}
    {old : Inode} (owned : Owned mkfsSuperblock nmeta inodes img.marked) (fits : old.Fits)
    (grown : inodes k = { old with size, addrs }) {new : Nat} (small : new < 2 ^ 32) :
    ({ inodes k with size := new } : Inode).Fits := by
  have bounded : ∀ i, (inodes k).addrs i < 2 ^ 32 := by
    intro i
    by_cases vacant : (inodes k).addrs i = 0
    · rw [vacant]
      decide
    · have area := (owned.data_area (k, i) [] ⟨Nat.zero_le _, fun _ member => absurd member List.not_mem_nil⟩
        vacant).2
      exact Nat.lt_trans area (by decide)
  constructor
  · rw [grown]
    exact fits.type
  · rw [grown]
    exact fits.major
  · rw [grown]
    exact fits.minor
  · rw [grown]
    exact fits.nlink
  · exact small
  · exact bounded

/-- After `winode` the inodes are the old ones, with one stored. -/
theorem inodes_winode (img : DiskImage) {din : Inode} {k : Inum} (numbered : din.inum = k) (fits : din.Fits) :
    (img.winode din).inodes = Function.update img.inodes k din := by
  funext j
  by_cases here : j = k
  · subst here
    rw [Function.update_self, inodes, ← numbered]
    exact rinode_winode fits
  · have apart : (j : Nat) ≠ din.inum := by
      rw [numbered]
      exact fun equal => here (Fin.ext equal)
    rw [Function.update_of_ne here]
    exact rinode_winode_ne apart

/-- `iappend` within the direct and single indirect ranges appends to one file and stores its inode. -/
theorem iappend_appends (ready : img.Ready) (owned : Owned mkfsSuperblock nmeta img.inodes img.marked)
    {k : Inum} {p : List UInt8}
    (below : ∀ bn, bn * BSIZE < (img.inodes k).size → mapping img.inodes img.marked k bn ≠ 0)
    (inside : (img.inodes k).size + p.length ≤ (NDIRECT + NINDIRECT) * BSIZE)
    (room : img.freeblock + blocksFor ((img.inodes k).size + p.length) ≤
      BSIZE * 8 + blocksFor (img.inodes k).size) :
    ∃ img', img.iappend k p = .ok img' ∧
      Appends img img.inodes k (img.inodes k).size p img' img'.inodes ∧
      (img'.inodes k).size = (img.inodes k).size + p.length ∧
      (∀ j : Inum, j ≠ k → img'.inodes j = img.inodes j) ∧
      ∀ i : Slot, i.val < NDIRECT → (img.inodes k).size + p.length ≤ i.val * BSIZE →
        (img'.inodes k).addrs i = (img.inodes k).addrs i := by
  obtain ⟨din, img₁, returned, appends, metadata⟩ :=
    appendLoop_appends (k := k) ready owned below inside room (Nat.le_refl _)
  obtain ⟨size, addrs, grown⟩ := appends.wrote.inode k
  dsimp only at grown
  rw [Function.update_self] at grown
  have numbered : din.inum = k := by rw [grown]; rfl
  have small : (img.inodes k).size + p.length < 2 ^ 32 := Nat.lt_of_le_of_lt inside (by decide)
  have same : img₁.inodes = img.inodes := funext fun j => rinode_congr metadata j.isLt
  have owned₁ : Owned mkfsSuperblock nmeta (Function.update img.inodes k din) img₁.marked := appends.wrote.owned
  have read : (img.inodes k).Fits := getDinode_fits _ _
  have fits := fits_grown owned₁ read ((Function.update_self _ _ _).trans grown) small
  have stored := winode_wrote owned₁
    ((congrArg Inode.inum (Function.update_self _ _ _)).trans numbered)
    ((img.inodes k).size + p.length) ((img.inodes k).size + p.length)
  rw [Function.update_self] at fits stored
  rw [Function.update_idem] at stored
  have end_size : ({ din with size := (img.inodes k).size + p.length } : Inode).size =
      (img.inodes k).size + p.length := rfl
  have slots : ∀ i : Slot, i.val < NDIRECT → (img.inodes k).size + p.length ≤ i.val * BSIZE →
      ({ din with size := (img.inodes k).size + p.length } : Inode).addrs i = (img.inodes k).addrs i :=
    fun _ direct past => appendLoop_slots returned direct past
  have result : img.iappend k p = .ok (img₁.winode { din with size := (img.inodes k).size + p.length }) := by
    rw [iappend]
    show (img.appendLoop (img.inodes k) (img.inodes k).size p p.length >>= _) = _
    rw [returned]
    rfl
  have inum : ({ din with size := (img.inodes k).size + p.length } : Inode).inum = k := numbered
  generalize ({ din with size := (img.inodes k).size + p.length } : Inode) = new at *
  have both := appends.wrote.trans stored (by
    rw [List.append_nil]
    exact Nat.le_trans inside (Nat.mul_le_mul_right BSIZE (by decide)))
  rw [List.append_nil] at both
  have inodes := inodes_winode img₁ inum fits
  rw [same] at inodes
  refine ⟨img₁.winode new, result, ?_, ?_, ?_, ?_⟩
  · rw [inodes]
    exact ⟨both, appends.ready.winode (by rw [inum]; exact k.isLt), appends.freeinode, appends.taken⟩
  · rw [inodes, Function.update_self, end_size]
  · intro j other
    rw [inodes, Function.update_of_ne other]
  · intro i direct past
    rw [inodes, Function.update_self]
    exact slots i direct past

end DiskImage

end Xv6
