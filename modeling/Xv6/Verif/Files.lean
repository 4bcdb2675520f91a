import Xv6.Verif.Reading
import Xv6.Lib.Runs
import Xv6.Lib.Splice

/-!
# Files are byte arrays

The abstract file system gives every inode a list of bytes: writing splices, reading takes a
slice. `writei` and `readi` refine it, with `log_write` taken as recording only and cached
blocks kept, as long as `balloc` finds a block. The loop of `writei` composes writes of parts
of blocks; each of them fills one block number and changes the bytes of one data block.
-/

namespace Xv6

open Program Splice

variable {ι : Type}

/-! ## Flat files -/

/-- The write fits: no gap, no wrap, no more than the largest file. -/
def Accepts (size off n : Nat) : Prop := off ≤ size ∧ off + n < 2 ^ 32 ∧ off + n ≤ MAXFILE * BSIZE

instance (size off n : Nat) : Decidable (Accepts size off n) :=
  inferInstanceAs (Decidable (_ ∧ _))

/-- A call on a file with its result. -/
inductive FileCall (ι : Type) where
  /-- `writei` of the bytes at an offset. -/
  | write (owner : ι) (off : Nat) (src : List UInt8) (result : Int)
  /-- `readi` of a length at an offset, with the bytes stored. -/
  | read (owner : ι) (off n : Nat) (result : Int) (bytes : List UInt8)

section Flat

variable [DecidableEq ι]

/-- What a call does to flat files: a write that fits splices and returns its length, any other
write returns -1 and changes nothing; a read returns the slice that is there. -/
def flatStep (files : ι → List UInt8) (call : FileCall ι) (files' : ι → List UInt8) : Prop :=
  match call with
  | .write k off src result =>
    if Accepts (files k).length off src.length then
      result = src.length ∧ files' = Function.update files k (splice (files k) off src)
    else result = -1 ∧ files' = files
  | .read k off n result bytes =>
    files' = files ∧
      if Refused (files k).length off n then result = -1 ∧ bytes = []
      else result = ↑(min n ((files k).length - off)) ∧
        bytes = ((files k).drop off).take (min n ((files k).length - off))

/-- One call of `writei` or `readi` that returned; offsets and lengths are unsigned 32-bit. -/
def fileStep (sb : Superblock) (devsw : Devsw) (s : FsState ι) (call : FileCall ι) (t : FsState ι) :
    Prop :=
  match call with
  | .write k off src result => off < 2 ^ 32 ∧ src.length < 2 ^ 32 ∧
    ∃ ip, Store.exec (recording false) (writei sb devsw (s.inodes k) src off) s.store =
      .ok ((ip, result), t.store) ∧ t.inodes = Function.update s.inodes k ip
  | .read k off n result bytes => off < 2 ^ 32 ∧ n < 2 ^ 32 ∧
    ∃ ip, Store.exec (recording false) (readi sb devsw (s.inodes k) off n) s.store =
      .ok ((ip, result, bytes), t.store) ∧ t.inodes = Function.update s.inodes k ip

end Flat

/-! ## Bytes written -/

section Bytes

variable {sb : Superblock} {nmeta : Nat} {s t u : FsState ι}

/-- The byte of a file at a position. -/
abbrev FsState.fileByte (s : FsState ι) (k : ι) (i : Nat) : UInt8 :=
  byteAt (s.inodes k) s.store.blocks i

/-- The byte of a file is a byte of its mapped block. -/
theorem fileByte_eq (s : FsState ι) (k : ι) (i : Nat) :
    s.fileByte k i = (s.store.blocks (s.mapped k (i / BSIZE))).byte (i % BSIZE) := by
  rw [FsState.fileByte, byteAt, FsState.mapped, mapping_eq_blockAt]

/-- From `s` to `t` the bytes of `src` were written to the file `k` at `off`, and no other byte
of a mapped block changed. -/
structure Wrote (sb : Superblock) (nmeta : Nat) (s t : FsState ι) (k : ι) (off : Nat)
    (src : List UInt8) : Prop where
  owned : Owned sb nmeta t.inodes t.store.blocks
  /-- Mapped blocks stay. -/
  kept : ∀ k' bn, bn < MAXFILE → s.mapped k' bn ≠ 0 → t.mapped k' bn = s.mapped k' bn
  /-- Every byte outside the range stays. -/
  outside : ∀ k' i, i / BSIZE < MAXFILE → s.mapped k' (i / BSIZE) ≠ 0 →
    (k' = k → i < off ∨ off + src.length ≤ i) → t.fileByte k' i = s.fileByte k' i
  /-- Every byte of the range is mapped and holds the byte of the source. -/
  within : ∀ i, off ≤ i → i < off + src.length →
    t.mapped k (i / BSIZE) ≠ 0 ∧ src[i - off]? = some (t.fileByte k i)
  /-- Only the size and the addresses of an inode change. -/
  inode : ∀ k', ∃ size addrs, t.inodes k' = { s.inodes k' with size, addrs }

section Written

variable {k : ι} {bn addr : Nat} {strict : Bool}

/-- The block that `bmap` reached is the mapped one. -/
theorem Reached.mapped_ne (reached : Reached sb nmeta strict s u (k, (position bn).1)
    (position bn).2 (position bn).2 addr) : u.mapped k bn ≠ 0 := by
  rw [show u.mapped k bn = addr from reached.address.symm]
  exact reached.occupied

/-- It is no index block. -/
theorem Reached.index_ne (inside : bn < MAXFILE) (reached : Reached sb nmeta strict s u
    (k, (position bn).1) (position bn).2 (position bn).2 addr) {r : ι × Slot} {j : Nat}
    {up : List Nat} (below : InTree r (j :: up)) : u.forest.address r up ≠ addr := by
  intro equal
  rw [show addr = u.mapped k bn from reached.address] at equal
  exact reached.grows.owned.mapping_ne_index inside reached.mapped_ne below equal.symm

/-- A store into it changes no mapping. -/
theorem Reached.mapped_modified (inside : bn < MAXFILE) (reached : Reached sb nmeta strict s u
    (k, (position bn).1) (position bn).2 (position bn).2 addr) (update : Block → Block) (k' : ι)
    {bn' : Nat} (low : bn' < MAXFILE) :
    mapping u.inodes ((u.store.modified addr update).record addr).blocks k' bn' = u.mapped k' bn' := by
  refine Owned.address_frame (fun _ => rfl) ?_ _ _ (position_inTree k' low).1
  intro r j up below _
  exact Function.update_of_ne (reached.index_ne inside below) _ _

end Written

namespace Wrote

/-- What was written depends on the inodes and the block contents only. -/
theorem congr {k : ι} {off : Nat} {src : List UInt8} {s' t' : FsState ι} (wrote : Wrote sb nmeta s t k off src)
    (inodes : s'.inodes = s.inodes) (blocks : s'.store.blocks = s.store.blocks)
    (inodes' : t'.inodes = t.inodes) (blocks' : t'.store.blocks = t.store.blocks) :
    Wrote sb nmeta s' t' k off src := by
  obtain ⟨owned, kept, outside, within, inode⟩ := wrote
  constructor
  · rw [inodes', blocks']
    exact owned
  · simpa only [FsState.mapped, inodes, blocks, inodes', blocks'] using kept
  · simpa only [FsState.mapped, FsState.fileByte, inodes, blocks, inodes', blocks'] using outside
  · simpa only [FsState.mapped, FsState.fileByte, inodes', blocks'] using within
  · rw [inodes, inodes']
    exact inode

/-- A file mapped below the offset is mapped below the end of what was written. -/
theorem mapped_below {k : ι} {off : Nat} {src : List UInt8} (wrote : Wrote sb nmeta s t k off src)
    (inside : off ≤ MAXFILE * BSIZE) (below : ∀ bn, bn * BSIZE < off → s.mapped k bn ≠ 0) {bn : Nat}
    (low : bn * BSIZE < off + src.length) : t.mapped k bn ≠ 0 := by
  by_cases old : bn * BSIZE < off
  · have block : bn < MAXFILE := Nat.lt_of_mul_lt_mul_right (Nat.lt_of_lt_of_le old inside)
    rw [wrote.kept k bn block (below bn old)]
    exact below bn old
  · have written := (wrote.within (bn * BSIZE) (Nat.le_of_not_lt old) low).1
    rw [Nat.mul_div_cancel bn (by decide)] at written
    exact written

/-- Writing nothing. -/
theorem nothing (owned : Owned sb nmeta s.inodes s.store.blocks) (k : ι) (off : Nat) :
    Wrote sb nmeta s s k off [] where
  owned := owned
  kept _ _ _ _ := rfl
  outside _ _ _ _ _ := rfl
  within i low high := by
    simp only [List.length_nil] at high
    omega
  inode _ := ⟨_, _, rfl⟩

/-- Writing one part after the other. -/
theorem trans {k : ι} {off : Nat} {first second : List UInt8} (part : Wrote sb nmeta s t k off first)
    (rest : Wrote sb nmeta t u k (off + first.length) second)
    (inside : off + (first ++ second).length ≤ MAXFILE * BSIZE) :
    Wrote sb nmeta s u k off (first ++ second) where
  owned := rest.owned
  kept k' bn low mapped := by
    have once := part.kept k' bn low mapped
    rw [rest.kept k' bn low (by rw [once]; exact mapped), once]
  outside k' i low mapped apart := by
    have once := part.kept k' _ low mapped
    simp only [List.length_append] at apart
    have before : k' = k → i < off ∨ off + first.length ≤ i := fun same => by
      have := apart same
      omega
    have after : k' = k → i < off + first.length ∨ off + first.length + second.length ≤ i :=
      fun same => by
        have := apart same
        omega
    rw [rest.outside k' i low (by rw [once]; exact mapped) after, part.outside k' i low mapped before]
  within i low high := by
    simp only [List.length_append] at high inside
    by_cases early : i < off + first.length
    · have written := part.within i low early
      have block : i / BSIZE < MAXFILE := Nat.div_lt_of_lt_mul (by rw [Nat.mul_comm]; omega)
      have same := rest.kept k _ block written.1
      have byte := rest.outside k i block written.1 fun _ => .inl early
      rw [same, byte, List.getElem?_append_left (by omega)]
      exact written
    · have written := rest.within i (by omega) (by omega)
      rw [List.getElem?_append_right (by omega), Nat.sub_sub]
      exact written
  inode k' := by
    obtain ⟨size, addrs, once⟩ := part.inode k'
    obtain ⟨size', addrs', again⟩ := rest.inode k'
    rw [again, once]
    exact ⟨size', addrs', rfl⟩

/-- `bmap` and a store into the mapped block write a part of one block. -/
theorem part {k : ι} {strict : Bool} {off addr : Nat} {src : List UInt8} (layout : Layout sb nmeta)
    (inside : off / BSIZE < MAXFILE) (fits : off % BSIZE + src.length ≤ BSIZE)
    (reached : Reached sb nmeta strict s u (k, (position (off / BSIZE)).1)
      (position (off / BSIZE)).2 (position (off / BSIZE)).2 addr) :
    Wrote sb nmeta s
      ⟨u.inodes, (u.store.modified addr (Block.splice · (off % BSIZE) src)).record addr⟩ k off src := by
  have owned := reached.grows.owned
  have here : addr = u.mapped k (off / BSIZE) := reached.address
  have filled := reached.mapped_ne
  -- every other block is as `bmap` left it
  have other : ∀ b, b ≠ addr →
      ((u.store.modified addr (Block.splice · (off % BSIZE) src)).record addr).blocks b =
        u.store.blocks b := by
    intro b apart
    exact Function.update_of_ne apart _ _
  have same : ((u.store.modified addr (Block.splice · (off % BSIZE) src)).record addr).blocks addr =
      (u.store.blocks addr).splice (off % BSIZE) src := by
    exact Function.update_self _ _ _
  have place := position_inTree k inside
  have bits : ∀ b, b < sb.size → BBLOCK b sb ≠ addr := by
    intro b exist equal
    rw [here] at equal
    exact address_ne_bblock layout owned place.1 filled exist equal.symm
  have mapped : ∀ k' bn, bn < MAXFILE →
      mapping u.inodes ((u.store.modified addr (Block.splice · (off % BSIZE) src)).record addr).blocks
        k' bn = u.mapped k' bn := fun k' _ low => reached.mapped_modified inside _ k' low
  have grown : ∀ k' bn, bn < MAXFILE → s.mapped k' bn ≠ 0 → u.mapped k' bn = s.mapped k' bn :=
    fun k' bn low occupied => reached.grows.kept _ _ (position_inTree k' low).1 occupied
  constructor
  · exact owned.frame (fun _ => rfl) (fun b exist => other _ (bits b exist))
      fun r j up below _ => other _ (reached.index_ne inside below)
  · intro k' bn low occupied
    rw [FsState.mapped, mapped k' bn low, grown k' bn low occupied]
  · intro k' i low occupied apart
    have address := grown k' _ low occupied
    have data : u.store.blocks (s.mapped k' (i / BSIZE)) = s.store.blocks (s.mapped k' (i / BSIZE)) :=
      reached.grows.data_kept _ _ (position_inTree k' low).1 (position_inTree k' low).2 occupied
    rw [fileByte_eq, fileByte_eq, FsState.mapped, mapped k' _ low, address]
    by_cases hit : s.mapped k' (i / BSIZE) = addr
    · -- the same block, so the byte lies beside the range
      have equal : u.mapped k (off / BSIZE) = u.mapped k' (i / BSIZE) := by rw [← here, address, hit]
      have owner := owned.mapping_injective inside low filled equal
      have beside := apart owner.1.symm
      have bound : i % BSIZE < BSIZE := Nat.mod_lt _ (by decide)
      have outside : ¬(off % BSIZE ≤ i % BSIZE ∧ i % BSIZE < off % BSIZE + src.length) := by
        have block := owner.2
        simp only [BSIZE] at *
        omega
      rw [hit] at data ⊢
      rw [same, Block.byte_splice _ _ _ bound, if_neg outside, data]
    · rw [other _ hit, data]
  · intro i low high
    have block : i / BSIZE = off / BSIZE := by
      simp only [BSIZE] at *
      omega
    have bound : i % BSIZE < BSIZE := Nat.mod_lt _ (by decide)
    have range : off % BSIZE ≤ i % BSIZE ∧ i % BSIZE < off % BSIZE + src.length := by
      simp only [BSIZE] at *
      omega
    have position : i % BSIZE - off % BSIZE = i - off := by
      simp only [BSIZE] at *
      omega
    have short : i - off < src.length := by omega
    rw [fileByte_eq, block]
    simp only [FsState.mapped, mapped k _ inside]
    refine ⟨filled, ?_⟩
    rw [show mapping u.inodes u.store.blocks k (off / BSIZE) = addr from here.symm, same,
      Block.byte_splice _ _ _ bound, if_pos range, position, List.getD_eq_getElem _ _ short,
      List.getElem?_eq_getElem short]
  · exact fun k' => ⟨_, _, reached.grows.inode k'⟩

/-- Storing an inode with a new size writes no byte of a file. -/
theorem resized [DecidableEq ι] (layout : Layout sb nmeta) {k : ι} (off size : Nat)
    (update : Block → Block) (owned : Owned sb nmeta s.inodes s.store.blocks)
    (numbered : (s.inodes k).inum < sb.ninodes) :
    Wrote sb nmeta s
      ⟨Function.update s.inodes k { s.inodes k with size := size },
        (s.store.modified (IBLOCK (s.inodes k).inum sb) update).record (IBLOCK (s.inodes k).inum sb)⟩
      k off [] := by
  have low := layout.iblock_lt numbered
  have other : ∀ b, b ≠ IBLOCK (s.inodes k).inum sb →
      ((s.store.modified (IBLOCK (s.inodes k).inum sb) update).record
        (IBLOCK (s.inodes k).inum sb)).blocks b = s.store.blocks b := by
    intro b apart
    exact Function.update_of_ne apart _ _
  have roots : ∀ k', (Function.update s.inodes k { s.inodes k with size := size } k').addrs =
      (s.inodes k').addrs := by
    intro k'
    rw [Function.update_apply]
    split
    · rename_i same
      rw [same]
    · rfl
  have data : ∀ (r : ι × Slot) p, InTree r p → s.forest.address r p ≠ 0 →
      s.forest.address r p ≠ IBLOCK (s.inodes k).inum sb := by
    intro r p inside occupied equal
    have high := (owned.data_area r p inside occupied).1
    have below : (blockForest s.inodes s.store.blocks).address r p < nmeta := by
      rw [equal]
      exact low
    omega
  have index : ∀ (r : ι × Slot) j up, InTree r (j :: up) → s.forest.address r up ≠ 0 →
      s.forest.address r up ≠ IBLOCK (s.inodes k).inum sb :=
    fun r j up below occupied => data r up (inTree_up below) occupied
  have mapped : ∀ k' bn, bn < MAXFILE →
      mapping (Function.update s.inodes k { s.inodes k with size := size })
        ((s.store.modified (IBLOCK (s.inodes k).inum sb) update).record
          (IBLOCK (s.inodes k).inum sb)).blocks k' bn = s.mapped k' bn := by
    intro k' bn inside
    exact Owned.address_frame roots
      (fun r j up below occupied => other _ (index r j up below occupied)) _ _
      (position_inTree k' inside).1
  constructor
  · exact owned.frame roots
      (fun b _ => other _ (Ne.symm (layout.iblock_ne_bblock numbered b)))
      fun r j up below occupied => other _ (index r j up below occupied)
  · exact fun k' bn inside _ => mapped k' bn inside
  · intro k' i inside occupied _
    have same := other (s.mapped k' (i / BSIZE)) (data _ _ (position_inTree k' inside).1 occupied)
    rw [fileByte_eq, fileByte_eq, FsState.mapped, mapped k' _ inside]
    exact congrArg (fun data => data.byte (i % BSIZE)) same
  · intro i from_off high
    simp only [List.length_nil] at high
    omega
  · intro k'
    simp only [Function.update_apply]
    split
    · rename_i same
      rw [same]
      exact ⟨size, _, rfl⟩
    · exact ⟨_, _, rfl⟩

end Wrote

/-- The copy loop of `writei` writes its bytes, one part of a block at a time. -/
theorem writeLoop_spec [DecidableEq ι] (layout : Layout sb nmeta) (k : ι) (off : Nat)
    (src : List UInt8) {strict : Bool} {fuel : Nat} (owned : Owned sb nmeta s.inodes s.store.blocks)
    (inside : off + src.length ≤ MAXFILE * BSIZE) (enough : src.length ≤ fuel) (settled : Settled strict s.store)
    (shallow : strict = true → off + src.length ≤ (NDIRECT + NINDIRECT) * BSIZE) :
    wp (Store.handler (recording strict)) (writeLoop sb (s.inodes k) off src fuel)
      (fun result store =>
        Wrote sb nmeta s ⟨Function.update s.inodes k result.1, store⟩ k off src ∧
          (result.1.size = (s.inodes k).size ∧ result.2 = off + src.length) ∧ Recorded sb strict s.store store)
      outOfBlocks s.store := by
  induction fuel generalizing s off src with
  | zero =>
    have empty : src = [] := List.length_eq_zero_iff.mp (Nat.le_zero.mp enough)
    rw [empty, writeLoop, wp_pure, Function.update_eq_self]
    exact ⟨.nothing owned k off, ⟨rfl, rfl⟩, .refl sb strict _⟩
  | succ fuel ih =>
    rw [writeLoop]
    by_cases none : src.length = 0
    · have empty : src = [] := List.length_eq_zero_iff.mp none
      rw [if_pos none, empty, wp_pure, Function.update_eq_self]
      exact ⟨.nothing owned k off, ⟨rfl, rfl⟩, .refl sb strict _⟩
    · have block : off / BSIZE < MAXFILE := Nat.div_lt_of_lt_mul (by rw [Nat.mul_comm]; omega)
      have length : (src.take (min src.length (BSIZE - off % BSIZE))).length =
          min src.length (BSIZE - off % BSIZE) := by
        rw [List.length_take]
        omega
      have fits : off % BSIZE + (src.take (min src.length (BSIZE - off % BSIZE))).length ≤ BSIZE := by
        rw [length]
        simp only [BSIZE]
        omega
      have progress : 0 < min src.length (BSIZE - off % BSIZE) := by
        simp only [BSIZE]
        omega
      have left : (src.drop (min src.length (BSIZE - off % BSIZE))).length =
          src.length - min src.length (BSIZE - off % BSIZE) := List.length_drop
      have whole : src.take (min src.length (BSIZE - off % BSIZE)) ++
          src.drop (min src.length (BSIZE - off % BSIZE)) = src := List.take_append_drop _ _
      have mapped := bmap_spec layout owned settled k block fun checked => pinned_shallow s k (by
        have within := shallow checked
        exact Nat.div_lt_of_lt_mul (by rw [Nat.mul_comm]; omega))
      rw [if_neg none, wp_bind]
      refine wp_mono mapped ?_ fun _ h => h
      intro result store reached
      have written := Wrote.part layout block fits reached
      have size : result.1.size = (s.inodes k).size := by
        have inode := reached.grows.inode k
        simp only [Function.update_self] at inode
        rw [inode]
      have place := position_inTree k block
      have high : sb.inodestart ≤ result.2 := by
        have data := (reached.grows.owned.data_area _ _ place.1 reached.mapped_ne).1
        rw [reached.address]
        exact Nat.le_trans layout.inodes_low.2 data
      have changed := (Recorded.grows layout reached.grows).trans
        (.change store high (Block.splice · (off % BSIZE) (src.take (min src.length (BSIZE - off % BSIZE)))))
      rw [Store.wp_bread, Store.wp_modify, Store.wp_logWrite_recording, Store.wp_brelse (.inr (Function.update_self ..))]
      have rest := ih (off + min src.length (BSIZE - off % BSIZE))
        (src.drop (min src.length (BSIZE - off % BSIZE))) written.owned (by omega) (by omega) (changed.settled settled)
        (fun checked => by have within := shallow checked; omega)
      simp only [Function.update_self, Function.update_idem] at rest
      refine wp_mono rest ?_ fun _ h => h
      intro final store' after
      obtain ⟨more, ⟨same, last⟩, later⟩ := after
      have both := written.trans (by rw [length]; exact more) (by rw [whole]; exact inside)
      rw [whole] at both
      exact ⟨both, ⟨by rw [same, size], by omega⟩, changed.trans later⟩

/-! ## `writei` -/

/-- The files of a file system are the given byte arrays. -/
structure Represents (sb : Superblock) (nmeta : Nat) (s : FsState ι) (files : ι → List UInt8) : Prop where
  owned : Owned sb nmeta s.inodes s.store.blocks
  /-- Every inode is a file. -/
  regular : ∀ k, (s.inodes k).type = T_FILE
  /-- Every inode number is on the disk. -/
  numbered : ∀ k, (s.inodes k).inum < sb.ninodes
  size : ∀ k, (s.inodes k).size = (files k).length
  /-- No file is longer than the largest file. -/
  short : ∀ k, (files k).length ≤ MAXFILE * BSIZE
  /-- The bytes, every one in a mapped block. -/
  bytes : ∀ k i, i < (files k).length →
    s.mapped k (i / BSIZE) ≠ 0 ∧ (files k)[i]? = some (s.fileByte k i)

/-- The content of one inode is the given byte array. -/
structure Stores (s : FsState ι) (k : ι) (content : List UInt8) : Prop where
  size : (s.inodes k).size = content.length
  /-- It is no longer than the largest file. -/
  short : content.length ≤ MAXFILE * BSIZE
  /-- The bytes, every one in a mapped block. -/
  bytes : ∀ i, i < content.length →
    s.mapped k (i / BSIZE) ≠ 0 ∧ content[i]? = some (s.fileByte k i)

/-- Every file of a represented file system is stored. -/
theorem Represents.stores {files : ι → List UInt8} (represents : Represents sb nmeta s files) (k : ι) :
    Stores s k (files k) :=
  ⟨represents.size k, represents.short k, represents.bytes k⟩

namespace Stores

variable {content : List UInt8}

/-- What an inode stores depends on its size and addresses and the block contents only. -/
theorem congr {k : ι} (stores : Stores s k content) (size : (t.inodes k).size = (s.inodes k).size)
    (addrs : (t.inodes k).addrs = (s.inodes k).addrs) (blocks : t.store.blocks = s.store.blocks) :
    Stores t k content := by
  have place : ∀ (i : Slot) p, t.forest.address (k, i) p = s.forest.address (k, i) p := by
    intro i p
    induction p with
    | nil => exact congrFun addrs i
    | cons j up ih => simp only [Forest.address, ih, blockForest_entry, blocks]
  refine ⟨size.trans stores.size, stores.short, ?_⟩
  intro i inside
  have mapped : t.mapped k (i / BSIZE) = s.mapped k (i / BSIZE) := place _ _
  rw [fileByte_eq, mapped, blocks, ← fileByte_eq]
  exact stores.bytes i inside

/-- A stored byte lies in a block of the file. -/
theorem block_lt (stores : Stores s k content) {i : Nat} (inside : i < content.length) :
    i / BSIZE < MAXFILE := by
  have short := stores.short
  exact Nat.div_lt_of_lt_mul (by rw [Nat.mul_comm]; omega)

/-- Bytes written within the bounds of a file splice it. -/
theorem wrote {k : ι} {off : Nat} {src : List UInt8} (before : Stores s k content)
    (accepted : Accepts content.length off src.length) (wrote : Wrote sb nmeta s t k off src)
    (size : (t.inodes k).size = (splice content off src).length) :
    Stores t k (splice content off src) := by
  obtain ⟨no_gap, _, room⟩ := accepted
  have length := length_splice src no_gap
  have short := before.short
  refine ⟨size, by omega, ?_⟩
  intro i inside
  rw [length] at inside
  by_cases range : off ≤ i ∧ i < off + src.length
  · have written := wrote.within i range.1 range.2
    rw [getElem?_splice_within no_gap range.1 range.2]
    exact written
  · have old := before.bytes i (by omega)
    have block := before.block_lt (show i < content.length by omega)
    have beside : i < off ∨ off + src.length ≤ i := by omega
    rw [wrote.kept k _ block old.1, wrote.outside k i block old.1 fun _ => beside]
    rcases beside with low | high
    · rw [getElem?_splice_before no_gap low]
      exact old
    · rw [getElem?_splice_after no_gap high]
      exact old

/-- Writing one inode leaves the others. -/
theorem kept {k k' : ι} {off : Nat} {src : List UInt8} (before : Stores s k' content)
    (wrote : Wrote sb nmeta s t k off src) (other : k' ≠ k)
    (size : (t.inodes k').size = (s.inodes k').size) : Stores t k' content := by
  refine ⟨by rw [size, before.size], before.short, ?_⟩
  intro i inside
  have old := before.bytes i inside
  have block := before.block_lt inside
  rw [wrote.kept k' _ block old.1, wrote.outside k' i block old.1 fun same => absurd same other]
  exact old

/-- Writing nothing leaves every file whose size stays. -/
theorem unwritten {k k' : ι} {off : Nat} (before : Stores s k' content) (wrote : Wrote sb nmeta s t k off [])
    (size : (t.inodes k').size = (s.inodes k').size) : Stores t k' content := by
  refine ⟨by rw [size, before.size], before.short, ?_⟩
  intro i inside
  have old := before.bytes i inside
  have block := before.block_lt inside
  have beside : k' = k → i < off ∨ off + ([] : List UInt8).length ≤ i := by
    intro _
    rw [List.length_nil]
    omega
  rw [wrote.kept k' _ block old.1, wrote.outside k' i block old.1 beside]
  exact old

/-- A stored file is mapped below its size. -/
theorem mappedBelow {k : ι} (stores : Stores s k content) :
    MappedBelow (s.inodes k) s.store.blocks (s.inodes k).size := by
  intro bn inside
  rw [stores.size] at inside
  have short := stores.short
  have block : bn * BSIZE / BSIZE = bn := Nat.mul_div_cancel bn (by decide)
  have mapped := (stores.bytes (bn * BSIZE) inside).1
  rw [block, FsState.mapped, mapping_eq_blockAt] at mapped
  exact ⟨Nat.lt_of_mul_lt_mul_right (Nat.lt_of_lt_of_le inside short), mapped⟩

/-- The bytes of a stored file are a slice of its array. -/
theorem slice {k : ι} (stores : Stores s k content) {off m : Nat} (inside : off + m ≤ content.length) :
    bytesAt (s.inodes k) s.store.blocks off m = (content.drop off).take m := by
  apply List.ext_getElem?
  intro j
  by_cases below : j < m
  · have stored := (stores.bytes (off + j) (by omega)).2
    rw [bytesAt, List.getElem?_take, if_pos below, List.getElem?_drop, stored,
      List.getElem?_map, List.getElem?_range below]
    rfl
  · have past : m ≤ j := Nat.le_of_not_lt below
    rw [List.getElem?_take, if_neg below, List.getElem?_eq_none]
    simpa [bytesAt] using past

/-- What `readi` returns on a stored file. -/
theorem read {k : ι} (stores : Stores s k content) (off n : Nat) :
    readResult (s.inodes k) s.store.blocks off n =
      if Refused content.length off n then (-1, [])
      else (↑(min n (content.length - off)),
        (content.drop off).take (min n (content.length - off))) := by
  rw [readResult, stores.size]
  by_cases refused : Refused content.length off n
  · rw [if_pos refused, if_pos refused]
  · have inside : off + min n (content.length - off) ≤ content.length := by
      unfold Refused at refused
      omega
    rw [if_neg refused, if_neg refused, stores.slice inside]

end Stores

/-- Bytes written within the bounds of a file splice it. -/
theorem Represents.wrote [DecidableEq ι] {files : ι → List UInt8} {k : ι} {off : Nat}
    {src : List UInt8} (before : Represents sb nmeta s files)
    (accepted : Accepts (files k).length off src.length) (wrote : Wrote sb nmeta s t k off src)
    (size : ∀ k', (t.inodes k').size = (Function.update files k (splice (files k) off src) k').length) :
    Represents sb nmeta t (Function.update files k (splice (files k) off src)) := by
  have stores : ∀ k', Stores t k' (Function.update files k (splice (files k) off src) k') := by
    intro k'
    have length := size k'
    by_cases here : k' = k
    · subst here
      rw [Function.update_self] at length ⊢
      exact (before.stores k').wrote accepted wrote length
    · rw [Function.update_of_ne here] at length ⊢
      exact (before.stores k').kept wrote here (by rw [length, before.size k'])
  constructor
  · exact wrote.owned
  · intro k'
    obtain ⟨_, _, same⟩ := wrote.inode k'
    rw [same]
    exact before.regular k'
  · intro k'
    obtain ⟨_, _, same⟩ := wrote.inode k'
    rw [same]
    exact before.numbered k'
  · exact size
  · exact fun k' => (stores k').short
  · exact fun k' => (stores k').bytes

/-- `iupdate` stores the inode into its block. -/
theorem wp_iupdate {strict : Bool} {ip : Inode} {store : Store} {post : Unit → Store → Prop} {halt : Stop → Prop} :
    wp (Store.handler (recording strict)) (iupdate sb ip) post halt store ↔
      post () ((store.modified (IBLOCK ip.inum sb) (putDinode ip)).record (IBLOCK ip.inum sb)) := by
  rw [iupdate, Store.wp_bread, Store.wp_modify, Store.wp_logWrite_recording,
    Store.wp_brelse_last (.inr (Function.update_self ..))]

/-- The test of `writei` on a file accepts exactly the writes that fit. -/
theorem accepts_iff {size off n : Nat} (off_fits : off < 2 ^ 32) (n_fits : n < 2 ^ 32) :
    Accepts size off n ↔ ¬(off > size ∨ add32 off n < off) ∧ ¬add32 off n > MAXFILE * BSIZE := by
  have wraps := add32_lt_iff off_fits n_fits
  unfold Accepts
  rw [wraps]
  constructor
  · intro accepted
    obtain ⟨no_gap, no_wrap, room⟩ := accepted
    have sum : add32 off n = off + n := Nat.mod_eq_of_lt no_wrap
    rw [sum]
    omega
  · intro passed
    obtain ⟨first, second⟩ := passed
    have no_wrap : off + n < 2 ^ 32 := by omega
    have sum : add32 off n = off + n := Nat.mod_eq_of_lt no_wrap
    rw [sum] at second
    omega

/-- A write that does not fit is refused, and nothing changes. -/
theorem writei_refused (sb : Superblock) (devsw : Devsw) {ip : Inode} {off : Nat} {src : List UInt8}
    (file : ip.type ≠ T_DEV) (off_fits : off < 2 ^ 32) (length_fits : src.length < 2 ^ 32)
    (refused : ¬Accepts ip.size off src.length) : writei sb devsw ip src off = pure (ip, -1) := by
  rw [writei, if_neg file]
  by_cases first : off > ip.size ∨ add32 off src.length < off
  · rw [if_pos first]
  · rw [if_neg first]
    by_cases second : add32 off src.length > MAXFILE * BSIZE
    · rw [if_pos second]
    · exact absurd ((accepts_iff off_fits length_fits).mpr ⟨first, second⟩) refused

/-- A write that fits writes its bytes and returns their number; the size grows with the file. -/
theorem writei_wrote [DecidableEq ι] (devsw : Devsw) (layout : Layout sb nmeta)
    (owned : Owned sb nmeta s.inodes s.store.blocks) {k : ι} {off : Nat} {src : List UInt8} {strict : Bool}
    (numbered : (s.inodes k).inum < sb.ninodes) (file : (s.inodes k).type ≠ T_DEV)
    (off_fits : off < 2 ^ 32) (length_fits : src.length < 2 ^ 32)
    (accepted : Accepts (s.inodes k).size off src.length) (settled : Settled strict s.store)
    (shallow : strict = true → off + src.length ≤ (NDIRECT + NINDIRECT) * BSIZE) :
    wp (Store.handler (recording strict)) (writei sb devsw (s.inodes k) src off)
      (fun result store =>
        Wrote sb nmeta s ⟨Function.update s.inodes k result.1, store⟩ k off src ∧
          (result.1.size = max (s.inodes k).size (off + src.length) ∧ result.2 = src.length) ∧
          Recorded sb strict s.store store)
      outOfBlocks s.store := by
  have tests := (accepts_iff off_fits length_fits).mp accepted
  rw [writei, if_neg file, if_neg tests.1, if_neg tests.2, wp_bind]
  refine wp_mono (writeLoop_spec layout k off src owned accepted.2.2 (Nat.le_refl _) settled shallow) ?_
    fun _ h => h
  intro result store after
  obtain ⟨wrote, ⟨size, last⟩, recorded⟩ := after
  simp only [last, size]
  by_cases grown : 0 < src.length ∧ off + src.length > (s.inodes k).size
  · have known : result.1.inum < sb.ninodes := by
      obtain ⟨_, _, same⟩ := wrote.inode k
      simp only [Function.update_self] at same
      rw [same]
      exact numbered
    have stored := Wrote.resized layout (k := k) (off + src.length) (off + src.length)
      (putDinode { result.1 with size := off + src.length }) wrote.owned
      (by simpa only [Function.update_self] using known)
    simp only [Function.update_self, Function.update_idem] at stored
    have both := wrote.trans stored (by simpa only [List.append_nil] using accepted.2.2)
    rw [List.append_nil] at both
    rw [if_pos grown, wp_bind, wp_iupdate, wp_pure]
    exact ⟨both, ⟨(Nat.max_eq_right (Nat.le_of_lt grown.2)).symm, rfl⟩,
      recorded.trans (.change store (Nat.le_add_left _ _) _)⟩
  · rw [if_neg grown, wp_pure]
    exact ⟨wrote, ⟨by rw [size]; omega, rfl⟩, recorded⟩

/-- A write that fits returns its length and splices the file. -/
theorem writei_spec [DecidableEq ι] (devsw : Devsw) {files : ι → List UInt8} (layout : Layout sb nmeta)
    (represents : Represents sb nmeta s files) {k : ι} {off : Nat} {src : List UInt8} {strict : Bool}
    (off_fits : off < 2 ^ 32) (length_fits : src.length < 2 ^ 32)
    (accepted : Accepts (files k).length off src.length) (settled : Settled strict s.store)
    (shallow : strict = true → off + src.length ≤ (NDIRECT + NINDIRECT) * BSIZE) :
    wp (Store.handler (recording strict)) (writei sb devsw (s.inodes k) src off)
      (fun result store =>
        Represents sb nmeta ⟨Function.update s.inodes k result.1, store⟩
          (Function.update files k (splice (files k) off src)) ∧ result.2 = src.length ∧ Settled strict store)
      outOfBlocks s.store := by
  have length := length_splice src accepted.1
  have old := represents.size k
  have spec := writei_wrote devsw layout represents.owned (represents.numbered k)
    (not_device (represents.regular k)) off_fits length_fits (by rw [old]; exact accepted) settled shallow
  refine wp_mono spec ?_ fun _ h => h
  intro result store after
  obtain ⟨wrote, ⟨size, value⟩, recorded⟩ := after
  refine ⟨represents.wrote accepted wrote ?_, value, recorded.settled settled⟩
  intro k'
  by_cases here : k' = k
  · rw [here]
    simp only [Function.update_self, length, size, old]
  · rw [Function.update_of_ne here]
    show (Function.update s.inodes k result.1 k').size = _
    rw [Function.update_of_ne here, represents.size k']

/-! ## `readi` -/

/-- `readi` of a stored file returns the slice and changes no block. -/
theorem readi_reads (sb : Superblock) (devsw : Devsw) {k : ι} {content : List UInt8} (stores : Stores s k content)
    (file : (s.inodes k).type ≠ T_DEV) {off n : Nat} (off_fits : off < 2 ^ 32) (n_fits : n < 2 ^ 32) :
    ∃ store, Store.exec (recording false) (readi sb devsw (s.inodes k) off n) s.store =
        .ok ((s.inodes k, if Refused content.length off n then (-1, [])
          else (↑(min n (content.length - off)),
            (content.drop off).take (min n (content.length - off)))), store) ∧
      store.blocks = s.store.blocks := by
  have spec := readi_spec sb devsw (d := recording false) (.inl rfl) file stores.mappedBelow off_fits n_fits
  cases result : Store.exec (recording false) (readi sb devsw (s.inodes k) off n) s.store with
  | error reason =>
    obtain ⟨_, log, addr, refused⟩ := wp_error spec result
    contradiction
  | ok passed =>
    obtain ⟨value, store⟩ := passed
    obtain ⟨same, effect⟩ := wp_ok spec result
    refine ⟨store, ?_, effect.blocks⟩
    rw [same, stores.read]

/-- `readi` of a represented file returns the slice and keeps every file. -/
theorem readi_returns (devsw : Devsw) {files : ι → List UInt8}
    (represents : Represents sb nmeta s files) (k : ι) {off n : Nat} (off_fits : off < 2 ^ 32)
    (n_fits : n < 2 ^ 32) :
    ∃ store, Store.exec (recording false) (readi sb devsw (s.inodes k) off n) s.store =
        .ok ((s.inodes k, if Refused (files k).length off n then (-1, [])
          else (↑(min n ((files k).length - off)),
            ((files k).drop off).take (min n ((files k).length - off)))), store) ∧
      Represents sb nmeta ⟨s.inodes, store⟩ files := by
  obtain ⟨store, returned, blocks⟩ :=
    readi_reads sb devsw (represents.stores k) (not_device (represents.regular k)) off_fits n_fits
  refine ⟨store, returned, ?_⟩
  obtain ⟨owned, regular, numbered, size, short, bytes⟩ := represents
  constructor
  · simpa only [blocks] using owned
  · exact regular
  · exact numbered
  · exact size
  · exact short
  · simpa only [FsState.mapped, FsState.fileByte, blocks] using bytes

end Bytes

/-! ## Refinement -/

section Refinement

variable [DecidableEq ι] {sb : Superblock} {nmeta : Nat} {devsw : Devsw} {s t : FsState ι}
  {files : ι → List UInt8}

/-- Every call that returns does what it does to flat files. -/
theorem fileStep_refines (layout : Layout sb nmeta) (represents : Represents sb nmeta s files)
    {call : FileCall ι} (step : fileStep sb devsw s call t) :
    ∃ files', flatStep files call files' ∧ Represents sb nmeta t files' := by
  cases call with
  | write k off src result =>
    obtain ⟨off_fits, length_fits, ip, returned, inodes⟩ := step
    obtain ⟨_, store⟩ := t
    simp only at inodes
    subst inodes
    by_cases accepted : Accepts (files k).length off src.length
    · have spec := writei_spec devsw layout represents off_fits length_fits accepted (settled_unchecked _)
        fun checked => absurd checked Bool.false_ne_true
      have after := wp_ok spec returned
      refine ⟨_, ?_, after.1⟩
      simp only [flatStep, if_pos accepted]
      exact ⟨after.2.1, trivial⟩
    · have refused := accepted
      rw [← represents.size k] at refused
      have same := writei_refused sb devsw (not_device (represents.regular k)) off_fits
        length_fits refused
      simp only [Store.exec, same, run_pure, Except.ok.injEq, Prod.mk.injEq] at returned
      obtain ⟨⟨rfl, rfl⟩, rfl⟩ := returned
      refine ⟨files, ?_, by rw [Function.update_eq_self]; exact represents⟩
      simp only [flatStep, if_neg accepted]
      exact ⟨trivial, trivial⟩
  | read k off n result bytes =>
    obtain ⟨off_fits, n_fits, ip, returned, inodes⟩ := step
    obtain ⟨_, store⟩ := t
    simp only at inodes
    subst inodes
    obtain ⟨store', expected, after⟩ := readi_returns devsw represents k off_fits n_fits
    simp only [expected, Except.ok.injEq, Prod.mk.injEq] at returned
    obtain ⟨⟨rfl, value⟩, rfl⟩ := returned
    refine ⟨files, ⟨rfl, ?_⟩, by rw [Function.update_eq_self]; exact after⟩
    by_cases refused : Refused (files k).length off n
    · rw [if_pos refused] at value ⊢
      cases value
      exact ⟨rfl, rfl⟩
    · rw [if_neg refused] at value ⊢
      cases value
      exact ⟨rfl, rfl⟩

omit [DecidableEq ι] in
/-- Empty files represent empty arrays. -/
theorem represents_empty (empty : ∀ k i, (s.inodes k).addrs i = 0)
    (regular : ∀ k, (s.inodes k).type = T_FILE) (size : ∀ k, (s.inodes k).size = 0)
    (numbered : ∀ k, (s.inodes k).inum < sb.ninodes)
    (meta_used : ∀ b, b < nmeta → b < sb.size → Used sb s.store.blocks b) :
    Represents sb nmeta s fun _ => [] where
  owned := Owned.empty empty meta_used
  regular := regular
  numbered := numbered
  size := size
  short _ := Nat.zero_le _
  bytes _ i inside := absurd inside (Nat.not_lt_zero i)

/-- Files are byte arrays. From empty files on a disk whose metadata bits are set, every run of
`writei` and `readi` calls is a run on flat files with the same results. After it, a write that
fits returns its length unless no block is free, any other write returns -1 and changes
nothing, and every read returns. -/
theorem files_refine_arrays {calls : List (FileCall ι)} (layout : Layout sb nmeta)
    (empty : ∀ k i, (s.inodes k).addrs i = 0) (regular : ∀ k, (s.inodes k).type = T_FILE)
    (size : ∀ k, (s.inodes k).size = 0) (numbered : ∀ k, (s.inodes k).inum < sb.ninodes)
    (meta_used : ∀ b, b < nmeta → b < sb.size → Used sb s.store.blocks b)
    (run : Run (fileStep sb devsw) s calls t) :
    ∃ files, Run flatStep (fun _ => []) calls files ∧
      (∀ k off src, off < 2 ^ 32 → src.length < 2 ^ 32 →
        if Accepts (files k).length off src.length then
          (∃ u, fileStep sb devsw t (.write k off src src.length) u) ∨
            Store.exec (recording false) (writei sb devsw (t.inodes k) src off) t.store =
              .error (.panic "balloc: out of blocks")
        else Store.exec (recording false) (writei sb devsw (t.inodes k) src off) t.store =
          .ok ((t.inodes k, -1), t.store)) ∧
      ∀ k off n, off < 2 ^ 32 → n < 2 ^ 32 →
        ∃ result bytes u, fileStep sb devsw t (.read k off n result bytes) u := by
  have start := represents_empty empty regular size numbered meta_used
  have matched : ∀ u (call : FileCall ι) v (files : ι → List UInt8), Represents sb nmeta u files → fileStep sb devsw u call v →
      ∃ files', flatStep files call files' ∧ Represents sb nmeta v files' :=
    fun _ _ _ _ before step => fileStep_refines layout before step
  obtain ⟨files, flat, represents⟩ := run.simulation (Represents sb nmeta) matched start
  refine ⟨files, flat, ?_, ?_⟩
  · intro k off src off_fits length_fits
    by_cases accepted : Accepts (files k).length off src.length
    · rw [if_pos accepted]
      have spec := writei_spec devsw layout represents off_fits length_fits accepted (settled_unchecked _)
        fun checked => absurd checked Bool.false_ne_true
      cases result : Store.exec (recording false) (writei sb devsw (t.inodes k) src off) t.store with
      | ok passed =>
        obtain ⟨⟨ip, r⟩, store⟩ := passed
        have value := (wp_ok spec result).2.1
        simp only at value
        rw [value] at result
        exact .inl ⟨⟨Function.update t.inodes k ip, store⟩, off_fits, length_fits, ip, result, rfl⟩
      | error reason =>
        have stopped : reason = _ := wp_error spec result
        rw [stopped]
        exact .inr rfl
    · rw [if_neg accepted]
      rw [← represents.size k] at accepted
      rw [writei_refused sb devsw (not_device (represents.regular k)) off_fits length_fits accepted]
      rfl
  · intro k off n off_fits n_fits
    obtain ⟨store, returned, _⟩ := readi_returns devsw represents k off_fits n_fits
    exact ⟨_, _, ⟨t.inodes, store⟩, off_fits, n_fits, _, returned, (Function.update_eq_self _ _).symm⟩

end Refinement

/-- A write of three bytes to the first file of the small disk, then any read. -/
theorem files_refine_arrays_small :
    ∃ t, Run (fileStep smallSuperblock noDevices) smallState [.write 0 0 [1, 2, 3] 3] t ∧
      (∃ files, Run flatStep (fun _ => []) [.write (0 : Fin 2) 0 [1, 2, 3] 3] files) ∧
      ∃ result bytes u, fileStep smallSuperblock noDevices t (.read 0 1 5 result bytes) u := by
  have run : ∃ t, Run (fileStep smallSuperblock noDevices) smallState [.write 0 0 [1, 2, 3] 3] t :=
    ⟨⟨_, _⟩, .cons ⟨by decide, by decide, _, rfl, rfl⟩ (.nil _)⟩
  obtain ⟨t, run⟩ := run
  obtain ⟨files, flat, _, reads⟩ := files_refine_arrays small_layout (fun _ _ => rfl) (fun _ => rfl)
    (fun _ => rfl) (fun k => k.isLt) small_owned.meta_used run
  exact ⟨t, run, ⟨files, flat⟩, reads 0 1 5 (by decide) (by decide)⟩

end Xv6
