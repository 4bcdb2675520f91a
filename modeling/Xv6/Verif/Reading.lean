import Xv6.Verif.Initial

/-!
# Reading mapped files

On a block number that is mapped, `bmap` allocates nothing and changes no block. In the direct
and single indirect ranges it leaves the store alone; past them it passes the data block to
`log_write`, so reading such a block records it in the log or panics outside a transaction.
-/

namespace Xv6

open Program

/-- The disk block mapped at a block number of one inode, zero for none. -/
def blockAt (ip : Inode) (blocks : Nat → Block) (bn : Nat) : Nat :=
  mapping (fun _ : Unit => ip) blocks () bn

/-- The mapping of one inode does not depend on the others. -/
theorem mapping_eq_blockAt {ι : Type} (inodes : ι → Inode) (blocks : Nat → Block) (k : ι) (bn : Nat) :
    mapping inodes blocks k bn = blockAt (inodes k) blocks bn := by
  have same : ∀ (i : Slot) (p : List Nat), (blockForest inodes blocks).address (k, i) p =
      (blockForest (fun _ : Unit => inodes k) blocks).address ((), i) p := by
    intro i p
    induction p with
    | nil => rfl
    | cons j up ih => simp only [Forest.address, ih, blockForest_entry]
  exact same _ _

/-- The effect on the store of `bmap` of a mapped block number: past the single indirect range
the data block is passed to `log_write`. -/
def touched (d : Discipline) (bn addr : Nat) (s : Store) : Except Stop Store :=
  if bn < NDIRECT + NINDIRECT then .ok s
  else match d.write s.log addr with
    | .ok log => .ok (s.logged addr log)
    | .error reason => .error reason

/-- Releases are not checked, or no change is unrecorded. -/
def MayRelease (d : Discipline) (s : Store) : Prop := d.strict = false ∨ ∀ b, s.unlogged b = false

/-- A block is released. -/
theorem MayRelease.one {d : Discipline} {s : Store} (released : MayRelease d s) (b : Nat) :
    d.strict = false ∨ s.unlogged b = false := released.imp id fun settled => settled b

/-- `log_write` leaves nothing unrecorded. -/
theorem MayRelease.logged {d : Discipline} {s : Store} (released : MayRelease d s) (addr : Nat) (log : Log) :
    MayRelease d (s.logged addr log) := by
  refine released.imp id fun settled b => ?_
  show Function.update s.unlogged addr false b = false
  by_cases here : b = addr
  · rw [here, Function.update_self]
  · rw [Function.update_of_ne here]
    exact settled b

section Mapped

variable {sb : Superblock} {d : Discipline} {s : Store} {halt : Stop → Prop}

/-- A filled inode slot is loaded as it is. -/
theorem wp_loadSlot_occupied {ip : Inode} {i : Slot} {post : Inode × Nat → Store → Prop}
    (occupied : ip.addrs i ≠ 0) :
    wp (Store.handler d) (loadSlot sb ip i) post halt s ↔ post (ip, ip.addrs i) s := by
  rw [loadSlot, if_neg occupied, wp_pure]

/-- A filled entry of an index block is loaded as it is. -/
theorem wp_loadEntry_occupied (released : MayRelease d s) {logged : Bool} {addr i : Nat}
    {post : Nat → Store → Prop} (occupied : (s.blocks addr).word i ≠ 0) :
    wp (Store.handler d) (loadEntry sb logged addr i) post halt s ↔
      post ((s.blocks addr).word i) s := by
  rw [loadEntry, Store.wp_bread, if_neg occupied, Store.wp_brelse (released.one _), wp_pure]

/-- The data block at the end of the doubly and triply indirect ranges is passed to
`log_write`. -/
theorem wp_touchData (released : MayRelease d s) {addr : Nat} {post : Unit → Store → Prop} :
    wp (Store.handler d) (touchData addr) post halt s ↔
      match d.write s.log addr with
      | .ok log => post () (s.logged addr log)
      | .error reason => halt reason := by
  rw [touchData, Store.wp_bread, Store.wp_logWrite]
  cases d.write s.log addr with
  | ok log =>
    simp only []
    rw [Store.wp_brelse_last ((released.logged _ _).one _)]
  | error reason => rfl

/-- The forest of a single inode. -/
abbrev inodeForest (ip : Inode) (blocks : Nat → Block) : Forest (Unit × Slot) Nat Nat :=
  blockForest (fun _ : Unit => ip) blocks

/-- The single indirect range of a mapped file. -/
theorem wp_bmapSingle_mapped (released : MayRelease d s) {ip : Inode} {b : Nat}
    {post : Inode × Nat → Store → Prop}
    (mapped : (inodeForest ip s.blocks).address ((), slotSingle) [b] ≠ 0) :
    wp (Store.handler d) (bmapSingle sb ip b) post halt s ↔
      post (ip, (inodeForest ip s.blocks).address ((), slotSingle) [b]) s := by
  obtain ⟨slot, address⟩ := Forest.address_occupied mapped
  rw [address] at mapped ⊢
  simp only [Forest.address_nil, blockForest_root, blockForest_entry] at slot mapped ⊢
  rw [bmapSingle, wp_bind, wp_loadSlot_occupied slot]
  simp only [wp_bind]
  rw [wp_loadEntry_occupied released mapped, wp_pure]

/-- The doubly indirect range of a mapped file. -/
theorem wp_bmapDouble_mapped (released : MayRelease d s) {ip : Inode} {b : Nat}
    {post : Inode × Nat → Store → Prop}
    (mapped : (inodeForest ip s.blocks).address ((), slotDouble) (doublePath b) ≠ 0) :
    wp (Store.handler d) (bmapDouble sb ip b) post halt s ↔
      match d.write s.log ((inodeForest ip s.blocks).address ((), slotDouble) (doublePath b)) with
      | .ok log => post (ip, (inodeForest ip s.blocks).address ((), slotDouble) (doublePath b))
          (s.logged ((inodeForest ip s.blocks).address ((), slotDouble) (doublePath b)) log)
      | .error reason => halt reason := by
  unfold doublePath at mapped ⊢
  obtain ⟨first, address⟩ := Forest.address_occupied mapped
  obtain ⟨slot, address₁⟩ := Forest.address_occupied first
  rw [address, address₁] at mapped ⊢
  rw [address₁] at first
  simp only [Forest.address_nil, blockForest_root, blockForest_entry] at slot first mapped ⊢
  rw [bmapDouble, wp_bind, wp_loadSlot_occupied slot]
  simp only [wp_bind]
  rw [wp_loadEntry_occupied released first, wp_loadEntry_occupied released mapped,
    wp_touchData released]
  rfl

/-- The triply indirect range of a mapped file. -/
theorem wp_bmapTriple_mapped (released : MayRelease d s) {ip : Inode} {b : Nat}
    {post : Inode × Nat → Store → Prop}
    (mapped : (inodeForest ip s.blocks).address ((), slotTriple) (triplePath b) ≠ 0) :
    wp (Store.handler d) (bmapTriple sb ip b) post halt s ↔
      match d.write s.log ((inodeForest ip s.blocks).address ((), slotTriple) (triplePath b)) with
      | .ok log => post (ip, (inodeForest ip s.blocks).address ((), slotTriple) (triplePath b))
          (s.logged ((inodeForest ip s.blocks).address ((), slotTriple) (triplePath b)) log)
      | .error reason => halt reason := by
  unfold triplePath at mapped ⊢
  obtain ⟨second, address⟩ := Forest.address_occupied mapped
  obtain ⟨first, address₂⟩ := Forest.address_occupied second
  obtain ⟨slot, address₁⟩ := Forest.address_occupied first
  rw [address, address₂, address₁] at mapped ⊢
  rw [address₂, address₁] at second
  rw [address₁] at first
  simp only [Forest.address_nil, blockForest_root, blockForest_entry] at slot first second mapped ⊢
  rw [bmapTriple, wp_bind, wp_loadSlot_occupied slot]
  simp only [wp_bind]
  rw [wp_loadEntry_occupied released first, wp_loadEntry_occupied released second,
    wp_loadEntry_occupied released mapped, wp_touchData released]
  rfl

/-- `bmap` of a mapped block number returns the mapped block; past the single indirect range
it also passes it to `log_write`. -/
theorem wp_bmap_mapped (released : MayRelease d s) {ip : Inode} {bn : Nat} (inside : bn < MAXFILE)
    {post : Inode × Nat → Store → Prop} (mapped : blockAt ip s.blocks bn ≠ 0) :
    wp (Store.handler d) (bmap sb ip bn) post halt s ↔
      match touched d bn (blockAt ip s.blocks bn) s with
      | .ok t => post (ip, blockAt ip s.blocks bn) t
      | .error reason => halt reason := by
  unfold blockAt mapping at mapped ⊢
  unfold bmap touched
  by_cases direct : bn < NDIRECT
  · have quiet : bn < NDIRECT + NINDIRECT := Nat.lt_of_lt_of_le direct (Nat.le_add_right _ _)
    rw [position_direct direct] at mapped ⊢
    rw [dif_pos direct, if_pos quiet, wp_loadSlot_occupied mapped]
    rfl
  · rw [dif_neg direct]
    by_cases single : bn - NDIRECT < NINDIRECT
    · have quiet : bn < NDIRECT + NINDIRECT := by omega
      rw [position_single direct single] at mapped ⊢
      rw [if_pos single, if_pos quiet, wp_bmapSingle_mapped released mapped]
    · have past : ¬bn < NDIRECT + NINDIRECT := by omega
      rw [if_neg single, if_neg past]
      cases Nat.lt_or_ge (bn - NDIRECT - NINDIRECT) (NINDIRECT * NINDIRECT) with
      | inl double =>
        rw [position_double direct single double] at mapped ⊢
        rw [if_pos double, wp_bmapDouble_mapped released mapped]
        simp only []
        cases d.write s.log _ <;> rfl
      | inr beyond =>
        have double := Nat.not_lt.mpr beyond
        rw [position_triple direct single double] at mapped ⊢
        rw [if_neg double, if_pos (triple_range inside), wp_bmapTriple_mapped released mapped]
        simp only []
        cases d.write s.log _ <;> rfl

end Mapped

/-! ## The copy loop -/

/-- The byte of a file at a position. -/
def byteAt (ip : Inode) (blocks : Nat → Block) (i : Nat) : UInt8 :=
  (blocks (blockAt ip blocks (i / BSIZE))).byte (i % BSIZE)

/-- The bytes of a file from a position on. -/
def bytesAt (ip : Inode) (blocks : Nat → Block) (off n : Nat) : List UInt8 :=
  (List.range n).map fun j => byteAt ip blocks (off + j)

/-- Every block that holds a byte below the bound is mapped. -/
def MappedBelow (ip : Inode) (blocks : Nat → Block) (bound : Nat) : Prop :=
  ∀ bn, bn * BSIZE < bound → bn < MAXFILE ∧ blockAt ip blocks bn ≠ 0

/-- Nothing is read past the direct and single indirect ranges. -/
def Quiet (off rest : Nat) : Prop := rest = 0 ∨ off + rest ≤ (NDIRECT + NINDIRECT) * BSIZE

instance (off rest : Nat) : Decidable (Quiet off rest) := inferInstanceAs (Decidable (_ ∨ _))

/-- The bytes of a file up to the end of a block, then those after it. -/
theorem bytesAt_split (ip : Inode) (blocks : Nat → Block) {off rest m : Nat} (part : m ≤ rest)
    (within : off % BSIZE + m ≤ BSIZE) :
    (blocks (blockAt ip blocks (off / BSIZE))).extract (off % BSIZE) m ++
      bytesAt ip blocks (off + m) (rest - m) = bytesAt ip blocks off rest := by
  have whole : rest = m + (rest - m) := by omega
  have first : (blocks (blockAt ip blocks (off / BSIZE))).extract (off % BSIZE) m =
      (List.range m).map fun j => byteAt ip blocks (off + j) := by
    unfold Block.extract
    apply List.map_congr_left
    intro j member
    have below : j < m := List.mem_range.mp member
    have block : (off + j) / BSIZE = off / BSIZE := by
      simp only [BSIZE] at *
      omega
    have index : (off + j) % BSIZE = off % BSIZE + j := by
      simp only [BSIZE] at *
      omega
    rw [byteAt, block, index]
  have second : bytesAt ip blocks (off + m) (rest - m) =
      (List.range (rest - m)).map fun j => byteAt ip blocks (off + (m + j)) := by
    unfold bytesAt
    simp only [Nat.add_assoc]
  rw [first, second]
  conv_rhs => rw [bytesAt, whole, List.range_add, List.map_append, List.map_map]
  rfl

/-- What a reading step may leave: the blocks as they were, and the store itself when nothing
past the single indirect range was read, else more calls of `log_write`. -/
structure ReadEffect (quiet : Prop) (s t : Store) : Prop where
  blocks : t.blocks = s.blocks
  /-- A quiet read changes nothing. -/
  unchanged : quiet → t = s
  /-- Any other read calls `log_write`. -/
  recorded : ¬quiet → s.recorded.length < t.recorded.length

/-- The copy loop over a mapped file returns its bytes; it calls `log_write` exactly when it
reads past the single indirect range, and stops only where `log_write` does. -/
theorem readLoop_spec {sb : Superblock} {d : Discipline} {ip : Inode} {s : Store} (released : MayRelease d s)
    {bound off rest fuel : Nat} (mapped : MappedBelow ip s.blocks bound)
    (inside : off + rest ≤ bound) (enough : rest ≤ fuel) :
    wp (Store.handler d) (readLoop sb ip off rest fuel)
      (fun result t => result = (ip, bytesAt ip s.blocks off rest) ∧ ReadEffect (Quiet off rest) s t)
      (fun reason => ¬Quiet off rest ∧ ∃ log addr, d.write log addr = .error reason) s := by
  induction fuel generalizing off rest s with
  | zero =>
    have none : rest = 0 := by omega
    rw [none, readLoop, wp_pure]
    exact ⟨rfl, rfl, fun _ => rfl, fun loud => absurd (.inl rfl) loud⟩
  | succ fuel ih =>
    rw [readLoop]
    by_cases none : rest = 0
    · rw [if_pos none, none, wp_pure]
      exact ⟨rfl, rfl, fun _ => rfl, fun loud => absurd (.inl rfl) loud⟩
    · rw [if_neg none]
      have block : off / BSIZE * BSIZE ≤ off := Nat.div_mul_le_self off BSIZE
      have bounds := mapped (off / BSIZE) (by omega)
      have within : off % BSIZE + min rest (BSIZE - off % BSIZE) ≤ BSIZE := by
        simp only [BSIZE]
        omega
      have progress : 0 < min rest (BSIZE - off % BSIZE) := by
        simp only [BSIZE]
        omega
      have part : min rest (BSIZE - off % BSIZE) ≤ rest := Nat.min_le_left _ _
      rw [wp_bind, wp_bmap_mapped released bounds.1 bounds.2]
      by_cases direct : off / BSIZE < NDIRECT + NINDIRECT
      · have quiet : Quiet (off + min rest (BSIZE - off % BSIZE)) (rest - min rest (BSIZE - off % BSIZE)) ↔
            Quiet off rest := by
          simp only [Quiet, BSIZE, NDIRECT, NINDIRECT] at *
          omega
        rw [touched, if_pos direct]
        simp only [Store.wp_bread]
        rw [Store.wp_brelse (released.one _), wp_bind]
        have rest_spec := ih released mapped
          (show off + min rest (BSIZE - off % BSIZE) + (rest - min rest (BSIZE - off % BSIZE)) ≤ bound by
            omega) (by omega)
        apply wp_mono rest_spec
        · intro result t after
          obtain ⟨same, effect⟩ := after
          rw [same, wp_pure, bytesAt_split ip s.blocks part within]
          rw [quiet] at effect
          exact ⟨rfl, effect⟩
        · intro reason stopped
          rw [quiet] at stopped
          exact stopped
      · have loud : ¬Quiet off rest := by
          simp only [Quiet, BSIZE, NDIRECT, NINDIRECT] at *
          omega
        rw [touched, if_neg direct]
        cases accepted : d.write s.log (blockAt ip s.blocks (off / BSIZE)) with
        | error reason => exact ⟨loud, _, _, accepted⟩
        | ok log =>
          simp only [Store.wp_bread]
          rw [Store.wp_brelse ((released.logged _ _).one _), wp_bind]
          have rest_spec := ih (released.logged (blockAt ip s.blocks (off / BSIZE)) log) mapped
            (show off + min rest (BSIZE - off % BSIZE) + (rest - min rest (BSIZE - off % BSIZE)) ≤ bound by
              omega) (by omega)
          have longer : s.recorded.length <
              (s.logged (blockAt ip s.blocks (off / BSIZE)) log).recorded.length := by
            simp [Store.logged]
          apply wp_mono rest_spec
          · intro result t after
            obtain ⟨same, effect⟩ := after
            have split := bytesAt_split ip s.blocks part within
            rw [same, wp_pure]
            refine ⟨by rw [← split]; rfl, effect.blocks, fun quiet => absurd quiet loud, fun _ => ?_⟩
            by_cases quiet : Quiet (off + min rest (BSIZE - off % BSIZE))
                (rest - min rest (BSIZE - off % BSIZE))
            · rw [effect.unchanged quiet]
              exact longer
            · exact Nat.lt_trans longer (effect.recorded quiet)
          · exact fun reason stopped => ⟨loud, stopped.2⟩

/-! ## `readi` -/

/-- The read is refused: the offset lies past the end or the sum wraps. -/
def Refused (size off n : Nat) : Prop := size < off ∨ 2 ^ 32 ≤ off + n

instance (size off n : Nat) : Decidable (Refused size off n) :=
  inferInstanceAs (Decidable (_ ∨ _))

/-- The read is refused, reads nothing, or ends within the direct and single indirect ranges. -/
def ReadQuiet (size off n : Nat) : Prop := Refused size off n ∨ Quiet off (min n (size - off))

instance (size off n : Nat) : Decidable (ReadQuiet size off n) :=
  inferInstanceAs (Decidable (_ ∨ _))

/-- The result and the bytes of a read. -/
def readResult (ip : Inode) (blocks : Nat → Block) (off n : Nat) : Int × List UInt8 :=
  if Refused ip.size off n then (-1, [])
  else (↑(min n (ip.size - off)), bytesAt ip blocks off (min n (ip.size - off)))

/-- The test for wrapping is exact. -/
theorem add32_lt_iff {off n : Nat} (off_fits : off < 2 ^ 32) (n_fits : n < 2 ^ 32) :
    add32 off n < off ↔ 2 ^ 32 ≤ off + n := by
  unfold add32
  omega

/-- A file is not a device. -/
theorem not_device {ip : Inode} (regular : ip.type = T_FILE) : ip.type ≠ T_DEV := by
  rw [regular]
  decide

section Readi

variable {sb : Superblock} {devsw : Devsw} {d : Discipline} {ip : Inode} {s : Store} {off n : Nat}

/-- A mapped file is no longer than the largest file. -/
theorem size_le_of_mapped (mapped : MappedBelow ip s.blocks ip.size) : ip.size ≤ MAXFILE * BSIZE := by
  by_contra longer
  have beyond := (mapped MAXFILE (Nat.lt_of_not_le longer)).1
  exact Nat.lt_irrefl _ beyond

/-- `readi` of a mapped file. -/
theorem readi_spec (sb : Superblock) (devsw : Devsw) (released : MayRelease d s) (file : ip.type ≠ T_DEV)
    (mapped : MappedBelow ip s.blocks ip.size) (off_fits : off < 2 ^ 32) (n_fits : n < 2 ^ 32) :
    wp (Store.handler d) (readi sb devsw ip off n)
      (fun result t => result = (ip, readResult ip s.blocks off n) ∧
        ReadEffect (ReadQuiet ip.size off n) s t)
      (fun reason => ¬ReadQuiet ip.size off n ∧ ∃ log addr, d.write log addr = .error reason) s := by
  have wraps := add32_lt_iff off_fits n_fits
  rw [readi, if_neg file]
  by_cases refused : Refused ip.size off n
  · have test : off > ip.size ∨ add32 off n < off := by
      rw [wraps]
      exact refused
    rw [if_pos test, wp_pure, readResult, if_pos refused]
    exact ⟨rfl, rfl, fun _ => rfl, fun loud => absurd (.inl refused) loud⟩
  · have test : ¬(off > ip.size ∨ add32 off n < off) := by
      rw [wraps]
      exact refused
    have sum : add32 off n = off + n := by
      unfold Refused at refused
      unfold add32
      omega
    have clipped : (if add32 off n > ip.size then ip.size - off else n) = min n (ip.size - off) := by
      unfold Refused at refused
      rw [sum]
      split <;> omega
    have quiet : ReadQuiet ip.size off n ↔ Quiet off (min n (ip.size - off)) := by
      unfold ReadQuiet
      exact or_iff_right refused
    have inside : off + min n (ip.size - off) ≤ ip.size := by
      unfold Refused at refused
      omega
    rw [if_neg test]
    simp only [clipped, quiet]
    rw [wp_bind]
    apply wp_mono (readLoop_spec released mapped inside (Nat.le_refl _))
    · intro result t after
      obtain ⟨same, effect⟩ := after
      rw [same, wp_pure, readResult, if_neg refused]
      exact ⟨rfl, effect⟩
    · exact fun _ stopped => stopped

/-- With `log_write` taken as recording only, `readi` leaves everything as it was. -/
def ReadsOnly (sb : Superblock) (devsw : Devsw) (ip : Inode) (off n : Nat) (s : Store) : Prop :=
  ∃ r bytes, Store.exec (recording false) (readi sb devsw ip off n) s = .ok ((ip, r, bytes), s)

/-- `fileread` returns, having called `log_write` on no block and changed no block. -/
def FilereadQuiet (sb : Superblock) (devsw : Devsw) (piperead : Int → Kernel (Int × List UInt8))
    (f : File) (ip : Inode) (n : Int) (s : Store) : Prop :=
  ∃ f' r bytes, Store.exec checked (fileread sb devsw piperead f ip n) s = .ok ((f', ip, r, bytes), s)

/-- `filepread` returns, having called `log_write` on no block and changed no block. -/
def FilepreadQuiet (sb : Superblock) (devsw : Devsw) (piperead : Int → Kernel (Int × List UInt8))
    (f : File) (ip : Inode) (n off : Int) (s : Store) : Prop :=
  ∃ r bytes, Store.exec checked (filepread sb devsw piperead f ip n off) s = .ok ((ip, r, bytes), s)

/-- Under either discipline `readi` returns and leaves the store alone exactly when it is
quiet. -/
theorem readi_unchanged_iff (released : d.strict = false) (regular : ip.type = T_FILE)
    (mapped : MappedBelow ip s.blocks ip.size) (off_fits : off < 2 ^ 32) (n_fits : n < 2 ^ 32) :
    (∃ r bytes, Store.exec d (readi sb devsw ip off n) s = .ok ((ip, r, bytes), s)) ↔
      ReadQuiet ip.size off n := by
  have spec := readi_spec sb devsw (.inl released) (not_device regular) mapped off_fits n_fits
  constructor
  · intro returned
    obtain ⟨r, bytes, returned⟩ := returned
    have effect := (wp_ok spec returned).2
    by_contra loud
    exact Nat.lt_irrefl _ (effect.recorded loud)
  · intro quiet
    cases result : Store.exec d (readi sb devsw ip off n) s with
    | error reason => exact absurd quiet (wp_error spec result).1
    | ok passed =>
      obtain ⟨value, t⟩ := passed
      have after := wp_ok spec result
      rw [after.1, after.2.unchanged quiet]
      exact ⟨_, _, rfl⟩

/-- An `int` passed as a `uint` is a `uint`. -/
theorem toUint_lt (n : Int) : toUint n < 2 ^ 32 := by
  unfold toUint
  omega

/-- On a readable inode file, `fileread` leaves the store alone exactly when its `readi` does. -/
theorem filereadQuiet_iff {piperead : Int → Kernel (Int × List UInt8)} {f : File} {n : Int}
    (readable : f.readable = true) (type : f.type = .inode) :
    FilereadQuiet sb devsw piperead f ip n s ↔
      ∃ r bytes, Store.exec checked (readi sb devsw ip f.off (toUint n)) s = .ok ((ip, r, bytes), s) := by
  have allowed : f.readable ≠ false := by simp [readable]
  unfold FilereadQuiet fileread
  rw [if_neg allowed]
  simp only [type]
  constructor
  · intro returned
    obtain ⟨f', r, bytes, returned⟩ := returned
    obtain ⟨value, t, first, second⟩ := run_bind_eq_ok returned
    cases second
    exact ⟨_, _, first⟩
  · intro returned
    obtain ⟨r, bytes, returned⟩ := returned
    rw [← type]
    exact ⟨_, r, bytes, run_bind_ok returned⟩

/-- On a readable inode file, `filepread` leaves the store alone exactly when its `readi`
does. -/
theorem filepreadQuiet_iff {piperead : Int → Kernel (Int × List UInt8)} {f : File} {n off : Int}
    (readable : f.readable = true) (type : f.type = .inode) :
    FilepreadQuiet sb devsw piperead f ip n off s ↔
      ∃ r bytes, Store.exec checked (readi sb devsw ip (toUint off) (toUint n)) s =
        .ok ((ip, r, bytes), s) := by
  have allowed : f.readable ≠ false := by simp [readable]
  unfold FilepreadQuiet filepread
  rw [if_neg allowed, type]

/-- Reading a mapped file does not write exactly when it is refused, reads nothing or ends
within the direct and single indirect ranges: so for `readi`, for `fileread` at the offset of
the open file and for `filepread` at a given offset. -/
theorem reading_quiet_iff {ip : Inode} {s : Store} (regular : ip.type = T_FILE)
    (mapped : MappedBelow ip s.blocks ip.size) (sb : Superblock) (devsw : Devsw)
    (piperead : Int → Kernel (Int × List UInt8)) :
    (∀ off n, off < 2 ^ 32 → n < 2 ^ 32 →
        (ReadsOnly sb devsw ip off n s ↔ ReadQuiet ip.size off n)) ∧
      (∀ f n, f.readable = true → f.type = .inode → f.off < 2 ^ 32 →
        (FilereadQuiet sb devsw piperead f ip n s ↔ ReadQuiet ip.size f.off (toUint n))) ∧
      ∀ f n off, f.readable = true → f.type = .inode →
        (FilepreadQuiet sb devsw piperead f ip n off s ↔
          ReadQuiet ip.size (toUint off) (toUint n)) := by
  refine ⟨?_, ?_, ?_⟩
  · intro off n off_fits n_fits
    exact readi_unchanged_iff rfl regular mapped off_fits n_fits
  · intro f n readable type off_fits
    rw [filereadQuiet_iff readable type]
    exact readi_unchanged_iff rfl regular mapped off_fits (toUint_lt n)
  · intro f n off readable type
    rw [filepreadQuiet_iff readable type]
    exact readi_unchanged_iff rfl regular mapped (toUint_lt off) (toUint_lt n)

end Readi

/-! ## A file with one doubly indirect block -/

/-- An index block with the consecutive addresses `base, base + 1, ...`. -/
def indexBlock (base count : Nat) : Block :=
  Block.ofFn fun k => if k / 4 < count then UInt8.ofNat ((base + k / 4) / 256 ^ (k % 4)) else 0

/-- On the disk of `mkfs`: blocks 78, 207 and 208 are the index blocks of a file of 139 blocks,
whose blocks are used up to 209. -/
def deepBlocks (b : Nat) : Block :=
  if b = 78 then indexBlock 79 128
  else if b = 207 then indexBlock 208 1
  else if b = 208 then indexBlock 209 1
  else if b = mkfsSuperblock.bmapstart then fun i => if i.val < 26 then 255 else if i.val = 26 then 3 else 0
  else Block.zero

/-- A file of one byte more than the direct and single indirect ranges hold. -/
def deepInode : Inode where
  inum := 2
  type := T_FILE
  major := 0
  minor := 0
  nlink := 1
  size := (NDIRECT + NINDIRECT) * BSIZE + 1
  addrs i := if i.val < NDIRECT then 68 + i.val else if i = slotSingle then 78
    else if i = slotDouble then 207 else 0

/-- No device has functions. -/
def noDevices : Devsw := ⟨fun _ => none, fun _ => none⟩

/-- The store on that disk, with an empty log and no open operation. -/
def deepStore : Store := Store.boot deepBlocks ⟨2, LOGSIZE, 0, false, []⟩

/-- The blocks of the file are mapped. -/
theorem deep_mapped : MappedBelow deepInode deepStore.blocks deepInode.size := by
  intro bn inside
  have bound : bn < 139 := by
    simp only [deepInode, NDIRECT, NINDIRECT, BSIZE] at inside
    omega
  have all : ∀ b, b < 139 → b < MAXFILE ∧ blockAt deepInode deepStore.blocks b ≠ 0 := by decide
  exact all bn bound

/-- Reading its last byte calls `log_write` on block 209, and panics when no operation is
open. -/
theorem reading_writes_deep :
    MappedBelow deepInode deepStore.blocks deepInode.size ∧
      ¬ReadsOnly mkfsSuperblock noDevices deepInode ((NDIRECT + NINDIRECT) * BSIZE) 1 deepStore ∧
      Store.exec checked (fileread mkfsSuperblock noDevices (fun _ => pure (0, []))
        ⟨.inode, true, (NDIRECT + NINDIRECT) * BSIZE⟩ deepInode 1) deepStore =
          .error (.panic "log_write outside of trans") := by
  have recorded : (Store.exec (recording false) (readi mkfsSuperblock noDevices deepInode
      ((NDIRECT + NINDIRECT) * BSIZE) 1) deepStore).map (fun result => result.2.recorded) = .ok [209] := rfl
  refine ⟨deep_mapped, ?_, rfl⟩
  intro quiet
  obtain ⟨r, bytes, returned⟩ := quiet
  rw [returned] at recorded
  have same : deepStore.recorded = [209] := Except.ok.inj recorded
  exact absurd same (by decide)

/-- Reading its first two blocks is quiet. -/
theorem reading_quiet_deep :
    ReadsOnly mkfsSuperblock noDevices deepInode 0 600 deepStore ∧
      FilereadQuiet mkfsSuperblock noDevices (fun _ => pure (0, [])) ⟨.inode, true, 0⟩ deepInode 600
        deepStore := by
  obtain ⟨plain, file, _⟩ :=
    reading_quiet_iff rfl deep_mapped mkfsSuperblock noDevices (fun _ => pure (0, []))
  exact ⟨(plain 0 600 (by decide) (by decide)).mpr (by decide),
    (file ⟨.inode, true, 0⟩ 600 rfl rfl (by decide)).mpr (by decide)⟩

end Xv6
