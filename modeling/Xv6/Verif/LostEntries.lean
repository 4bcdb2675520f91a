import Xv6.Verif.DirectoryRuns
import Xv6.Verif.Forgetting

/-!
# An entry that is lost

A directory of 139 full blocks, one more than the direct and single indirect ranges hold. A new
entry goes into block 139, whose address `bmap` stores into the doubly indirect index without
`log_write`; when the buffer of the index block is recycled the entry cannot be found.
-/

namespace Xv6

open Program

/-! ## Loops that pass over entries -/

section Skipping

variable {σ : Type} {handler : Handler bufSignature σ Stop} {sb : Superblock} {devsw : Devsw} {ip : Inode}
  {name : Chars} {x : σ} {n : Nat}

/-- The first entries are read without a change of state; they are in use and have other names. -/
def Passed (handler : Handler bufSignature σ Stop) (sb : Superblock) (devsw : Devsw) (ip : Inode) (name : Chars)
    (n : Nat) (x : σ) : Prop :=
  ∀ i, i < n → ∃ de, run handler (readi sb devsw ip (direntSize * i) direntSize) x =
    .ok ((ip, (direntSize : Int), de), x) ∧ deInum de ≠ 0 ∧ namecmp name (deName de) ≠ 0

/-- `dirlookup` passes over them. -/
theorem dirlookupFrom_passed (passed : Passed handler sb devsw ip name n x) (inside : direntSize * n ≤ ip.size)
    (fuel : Nat) :
    run handler (dirlookupFrom sb devsw ip name 0 (n + fuel)) x =
      run handler (dirlookupFrom sb devsw ip name (direntSize * n) fuel) x := by
  have unit : direntSize = 16 := rfl
  induction n generalizing fuel with
  | zero => rw [Nat.zero_add, Nat.mul_zero]
  | succ n ih =>
    obtain ⟨de, returned, used, other⟩ := passed n (Nat.lt_succ_self n)
    have below : direntSize * n < ip.size := by
      rw [unit] at inside ⊢
      omega
    rw [Nat.add_right_comm, Nat.add_assoc, ih (fun i low => passed i (Nat.lt_succ_of_lt low)) (Nat.le_of_lt below),
      dirlookupFrom, if_pos below, run_bind_ok returned]
    dsimp only
    rw [if_neg (fun different => different rfl), if_neg used, if_neg other]
    rfl

/-- The second loop of `dirlink` passes over them. -/
theorem emptyDirentFrom_passed (passed : Passed handler sb devsw ip name n x) (inside : direntSize * n ≤ ip.size)
    (fuel : Nat) :
    run handler (emptyDirentFrom sb devsw ip 0 (n + fuel)) x =
      run handler (emptyDirentFrom sb devsw ip (direntSize * n) fuel) x := by
  have unit : direntSize = 16 := rfl
  induction n generalizing fuel with
  | zero => rw [Nat.zero_add, Nat.mul_zero]
  | succ n ih =>
    obtain ⟨de, returned, used, _⟩ := passed n (Nat.lt_succ_self n)
    have below : direntSize * n < ip.size := by
      rw [unit] at inside ⊢
      omega
    rw [Nat.add_right_comm, Nat.add_assoc, ih (fun i low => passed i (Nat.lt_succ_of_lt low)) (Nat.le_of_lt below),
      emptyDirentFrom, if_pos below, run_bind_ok returned]
    dsimp only
    rw [if_neg (fun different => different rfl), if_neg used]
    rfl

end Skipping

/-! ## The directory -/

/-- A byte of its content: entry `j` binds 1 to a name of two characters. -/
def entryByte (i : Nat) : UInt8 :=
  if i % 16 = 0 then 1
  else if i % 16 = 2 then UInt8.ofNat (1 + i / 16 % 100)
  else if i % 16 = 3 then UInt8.ofNat (1 + i / 16 / 100)
  else 0

/-- A block of its content. -/
def entryBlock (bn : Nat) : Block := Block.ofFn fun o => entryByte (BSIZE * bn + o)

/-- Its content. -/
def fullContent : List UInt8 := (List.range (139 * BSIZE)).map entryByte

/-- The disk block of a file block. -/
def fullAddress (bn : Nat) : Nat :=
  if bn < NDIRECT then 68 + bn else if bn < NDIRECT + NINDIRECT then 69 + bn else 209

/-- It is below 210. -/
theorem fullAddress_lt {bn : Nat} (inside : bn < 139) : fullAddress bn < 210 := by
  unfold fullAddress
  split_ifs <;> omega

/-- No block is missing. -/
theorem fullAddress_ne_zero (bn : Nat) : fullAddress bn ≠ 0 := by
  unfold fullAddress
  split_ifs <;> omega

/-- The disk: the index blocks and the free map are those of `deepBlocks`. -/
def fullBlocks (b : Nat) : Block :=
  if 68 ≤ b ∧ b < 78 then entryBlock (b - 68)
  else if 79 ≤ b ∧ b < 207 then entryBlock (b - 69)
  else if b = 209 then entryBlock 138
  else deepBlocks b

/-- Its inode. -/
def fullInode : Inode := { deepInode with type := T_DIR, size := 139 * BSIZE }

theorem NBUF_pos : 0 < NBUF := by decide

/-- The buffer of the last block. -/
def lastBuf : Fin NBUF := ⟨0, NBUF_pos⟩

/-- The machine: block 209 is dirty, as an entry in it was linked since the last commit. -/
def fullMachine (outstanding : Nat) : Machine Unit where
  cache := binit.set lastBuf ⟨true, true, ROOTDEV, 209, none, 0, entryBlock 138⟩
  disk := fullBlocks
  log := ⟨2, LOGSIZE, outstanding, false, [209]⟩

/-- The mounted file system. -/
def fullDirectory : Mounted Unit Unit where
  inodes _ := fullInode
  machine := fullMachine 0

/-- The store that forgets over it. -/
def fullFrail (outstanding : Nat) : Frail where
  held := ∅
  changed := []
  store :=
    { blocks := fullBlocks
      disk := fullBlocks
      dirty := fun b => b == 209
      unlogged := fun _ => false
      log := ⟨2, LOGSIZE, outstanding, false, [209]⟩
      recorded := []
      writes := [] }

/-- Only block 209 is cached. -/
theorem full_caches (outstanding : Nat) {i : Fin NBUF} {b : Nat} :
    ((fullMachine outstanding).cache.buf i).caches b ↔ i = lastBuf ∧ b = 209 := by
  by_cases here : i = lastBuf
  · subst here
    show (ROOTDEV = ROOTDEV ∧ 209 = b) ↔ _
    simp [eq_comm]
  · have other : (fullMachine outstanding).cache.buf i = (binit : Bcache Unit).buf i := Bcache.set_other _ here
    rw [other]
    have free : ¬(0 = ROOTDEV ∧ 0 = b) := by simp [ROOTDEV]
    exact iff_of_false free fun both => here both.1

/-- Nobody refers to a buffer. -/
theorem full_idle (outstanding : Nat) (i : Fin NBUF) :
    ((fullMachine outstanding).cache.buf i).holder = none ∧ ((fullMachine outstanding).cache.buf i).refcnt = 0 := by
  by_cases here : i = lastBuf
  · subst here
    exact ⟨rfl, rfl⟩
  · have other : (fullMachine outstanding).cache.buf i = (binit : Bcache Unit).buf i := Bcache.set_other _ here
    rw [other]
    exact ⟨rfl, rfl⟩

/-- A dirty buffer is that of the last block. -/
theorem full_dirty (outstanding : Nat) {i : Fin NBUF} (dirty : ((fullMachine outstanding).cache.buf i).dirty = true) :
    i = lastBuf := by
  by_contra here
  have other : (fullMachine outstanding).cache.buf i = (binit : Bcache Unit).buf i := Bcache.set_other _ here
  rw [other] at dirty
  contradiction

/-- The cache is well formed. -/
theorem full_wf (outstanding : Nat) : (fullMachine outstanding).cache.Wf where
  nodup := (@binit_wf Unit).nodup
  complete := (@binit_wf Unit).complete
  unique i j b first second := by
    rw [((full_caches outstanding).mp first).1, ((full_caches outstanding).mp second).1]
  referenced i p locked := by
    rw [(full_idle outstanding i).1] at locked
    contradiction
  filled i p locked := by
    rw [(full_idle outstanding i).1] at locked
    contradiction
  dirty_filled i dirty := by
    rw [full_dirty outstanding dirty]
    exact ⟨rfl, rfl⟩

/-- The machine shows the store. -/
theorem full_shows (outstanding : Nat) : (fullFrail outstanding).Shows () (fullMachine outstanding) where
  tallied := by
    refine ⟨full_wf outstanding, fun i => .inl (full_idle outstanding i), ?_, ?_, ?_⟩
    · intro b
      refine ⟨fun member => absurd member (Finset.notMem_empty b), ?_⟩
      rintro ⟨i, locked, _⟩
      rw [(full_idle outstanding i).1] at locked
      contradiction
    · intro i b here
      obtain ⟨rfl, rfl⟩ := (full_caches outstanding).mp here
      exact ⟨fun _ => List.mem_toFinset.mpr List.mem_cons_self, fun _ => rfl⟩
    · intro b member
      have same : b = 209 := by simpa [fullFrail, Frail.ledger] using member
      exact ⟨lastBuf, (full_caches outstanding).mpr ⟨rfl, same⟩⟩
  implements := by
    refine ⟨full_wf outstanding, rfl, rfl, ?_, ?_, ?_, fun _ _ _ => rfl, fun b wrong => absurd wrong Bool.false_ne_true⟩
    · intro i b here _
      obtain ⟨rfl, rfl⟩ := (full_caches outstanding).mp here
      rfl
    · intro i b here
      obtain ⟨rfl, rfl⟩ := (full_caches outstanding).mp here
      rfl
    · intro b dirty
      exact ⟨lastBuf, (full_caches outstanding).mpr ⟨rfl, eq_of_beq dirty⟩⟩

/-! ## Reading it -/

/-- The state in which the first 139 blocks of the file can be read. -/
structure Readable (x : Frail) : Prop where
  held : x.held = ∅
  /-- There is a buffer for one more block. -/
  room : x.store.log.lh.length + 1 < NBUF
  /-- The blocks of the file. -/
  data : ∀ bn, bn < 139 → x.store.blocks (fullAddress bn) = entryBlock bn
  /-- The single indirect block. -/
  single : ∀ i, i < 128 → (x.store.blocks 78).word i = 79 + i
  /-- The doubly indirect block. -/
  double : (x.store.blocks 207).word 0 = 208
  index : (x.store.blocks 208).word 0 = 209
  /-- No change of them is unrecorded. -/
  recorded : ∀ b, b < 210 → x.store.unlogged b = false
  /-- `log_write` absorbs the last block. -/
  absorbed : x.store.log.write 209 = .ok x.store.log
  dirty : x.store.dirty 209 = true

namespace Readable

variable {x : Frail} {α : Type} {post : α → Frail → Prop} {halt : Stop → Prop}

/-- The same state while one buffer is held. -/
def holding (x : Frail) (b : Nat) : Frail := { x with held := {b} }

/-- One buffer more fits. -/
theorem one (readable : Readable x) (held : Finset Nat) (few : held.card ≤ 1) :
    Ledger.Room ⟨held, x.store.log.lh.toFinset⟩ := by
  have marked := List.toFinset_card_le x.store.log.lh
  have room := readable.room
  unfold Ledger.Room
  dsimp only
  omega

/-- `bread`. -/
theorem wp_bread (readable : Readable x) {b : Nat} (inside : b < FSSIZE) {next : Block → Kernel α} :
    wp Frail.handler (bread b >>= next) post halt x ↔
      wp Frail.handler (next (x.store.blocks b)) post halt (holding x b) := by
  have room := readable.one x.held (by rw [readable.held]; exact Nat.zero_le _)
  have free : b ∉ x.held := by
    rw [readable.held]
    exact Finset.notMem_empty b
  apply wp_perform_ok
  show (if _ then _ else _) = _
  rw [if_pos ⟨room, free, inside⟩, readable.held]
  rfl

/-- `brelse` of the buffer that is held. -/
theorem wp_brelse (readable : Readable x) {b : Nat} (known : b < 210) {next : Unit → Kernel α} :
    wp Frail.handler (brelse b >>= next) post halt (holding x b) ↔ wp Frail.handler (next ()) post halt x := by
  have room := readable.one {b} (Nat.le_of_eq (Finset.card_singleton b))
  apply wp_perform_ok
  show (if _ then _ else _) = _
  rw [if_pos ⟨room, Finset.mem_singleton_self b⟩]
  show (if x.store.unlogged b then _ else _) = _
  rw [if_neg (by rw [readable.recorded b known]; exact Bool.false_ne_true)]
  show Except.ok ((), ({ x with held := Finset.erase {b} b } : Frail)) = .ok ((), x)
  rw [Finset.erase_singleton, ← readable.held]

/-- `log_write` of the last block. -/
theorem wp_logWrite (readable : Readable x) {next : Unit → Kernel α} :
    wp Frail.handler (logWrite 209 >>= next) post halt (holding x 209) ↔
      wp Frail.handler (next ()) post halt (holding x 209) := by
  have room := readable.one {209} (Nat.le_of_eq (Finset.card_singleton 209))
  have dirty : Function.update x.store.dirty 209 true = x.store.dirty := by
    rw [← readable.dirty]
    exact Function.update_eq_self _ _
  have recorded : Function.update x.store.unlogged 209 false = x.store.unlogged := by
    rw [← readable.recorded 209 (by decide)]
    exact Function.update_eq_self _ _
  apply wp_perform_ok
  show (if _ then _ else _) = _
  rw [if_pos ⟨room, Finset.mem_singleton_self 209⟩]
  simp only [holding, readable.absorbed, Store.logged, dirty, recorded]

/-- A filled entry of an index block is loaded. -/
theorem wp_loadEntry (readable : Readable x) {logged : Bool} {b i : Nat} (known : b < 210)
    (occupied : (x.store.blocks b).word i ≠ 0) {post : Nat → Frail → Prop} :
    wp Frail.handler (loadEntry mkfsSuperblock logged b i) post halt x ↔ post ((x.store.blocks b).word i) x := by
  have inside : b < FSSIZE := Nat.lt_trans known (by decide)
  rw [loadEntry, readable.wp_bread inside, if_neg occupied, readable.wp_brelse known, wp_pure]

/-- `bmap` of one of the first 139 blocks. -/
theorem wp_bmap (readable : Readable x) {ip : Inode} (addrs : ip.addrs = deepInode.addrs) {bn : Nat}
    (inside : bn < 139) {post : Inode × Nat → Frail → Prop} :
    wp Frail.handler (bmap mkfsSuperblock ip bn) post halt x ↔ post (ip, fullAddress bn) x := by
  have direct : NDIRECT = 10 := rfl
  have entries : NINDIRECT = 128 := rfl
  unfold bmap fullAddress
  by_cases first : bn < NDIRECT
  · have address : ip.addrs ⟨bn, direct_lt first⟩ = 68 + bn := by
      rw [addrs]
      exact if_pos first
    rw [dif_pos first, if_pos first, loadSlot, address, if_neg (by omega), wp_pure]
  · rw [dif_neg first, if_neg first]
    by_cases second : bn - NDIRECT < NINDIRECT
    · have slot : ip.addrs slotSingle = 78 := by
        rw [addrs]
        rfl
      have word := readable.single (bn - NDIRECT) second
      rw [if_pos second, if_pos (by omega), bmapSingle, loadSlot, slot, if_neg (by decide), wp_bind, wp_pure, wp_bind,
        readable.wp_loadEntry (by decide) (by rw [word]; omega), word, wp_pure,
        show 79 + (bn - NDIRECT) = 69 + bn by omega]
    · have last : bn - NDIRECT - NINDIRECT = 0 := by omega
      have slot : ip.addrs slotDouble = 207 := by
        rw [addrs]
        rfl
      rw [if_neg second, last, if_pos (by decide), if_neg (by omega : ¬bn < NDIRECT + NINDIRECT), bmapDouble, loadSlot, slot, if_neg (by decide),
        wp_bind, wp_pure, wp_bind, Nat.zero_div, Nat.zero_mod,
        readable.wp_loadEntry (by decide : 207 < 210) (by rw [readable.double]; decide), readable.double, wp_bind,
        readable.wp_loadEntry (by decide : 208 < 210) (by rw [readable.index]; decide), readable.index, wp_bind,
        touchData, readable.wp_bread (by decide), readable.wp_logWrite]
      show wp Frail.handler (brelse 209 >>= pure) _ halt (holding x 209) ↔ _
      rw [readable.wp_brelse (by decide), wp_pure, wp_pure]

/-- Reading an entry. -/
theorem readi_entry (readable : Readable x) {ip : Inode} (addrs : ip.addrs = deepInode.addrs)
    (file : ip.type ≠ T_DEV) (size : 139 * BSIZE ≤ ip.size) {i : Nat} (low : i < 4448) :
    run Frail.handler (readi mkfsSuperblock noDevices ip (direntSize * i) direntSize) x =
      .ok ((ip, (direntSize : Int), (List.range 16).map fun o => entryByte (16 * i + o)), x) := by
  have unit : direntSize = 16 := rfl
  have block : BSIZE = 512 := rfl
  rw [run_eq_ok_iff]
  have sum : add32 (direntSize * i) direntSize = direntSize * i + direntSize :=
    Nat.mod_eq_of_lt (by rw [unit]; omega)
  have accepted : ¬(direntSize * i > ip.size ∨ add32 (direntSize * i) direntSize < direntSize * i) := by
    rw [sum, unit]
    omega
  have bn : direntSize * i / BSIZE < 139 := by
    rw [unit, block]
    omega
  have part : min direntSize (BSIZE - direntSize * i % BSIZE) = direntSize := by
    rw [unit, block]
    omega
  have bytes : (entryBlock (direntSize * i / BSIZE)).extract (direntSize * i % BSIZE) direntSize =
      (List.range 16).map fun o => entryByte (16 * i + o) := by
    apply List.map_congr_left
    intro o member
    have small : o < 16 := List.mem_range.mp member
    have within : direntSize * i % BSIZE + o < BSIZE := by
      rw [unit, block]
      omega
    have place : BSIZE * (direntSize * i / BSIZE) + (direntSize * i % BSIZE + o) = 16 * i + o := by
      rw [unit, block]
      omega
    rw [entryBlock, Block.byte_ofFn _ within, place]
  have known := fullAddress_lt bn
  rw [readi, if_neg file, if_neg accepted, sum, if_neg (by rw [unit]; omega), wp_bind]
  show wp Frail.handler (readLoop mkfsSuperblock ip (direntSize * i) direntSize (15 + 1)) _ _ x
  rw [readLoop, if_neg (by decide), wp_bind, readable.wp_bmap addrs bn]
  dsimp only
  rw [readable.wp_bread (Nat.lt_trans known (by decide)), readable.wp_brelse known, part, wp_bind, Nat.sub_self,
    readable.data _ bn]
  have rest : readLoop mkfsSuperblock ip (direntSize * i + direntSize) 0 15 = pure (ip, []) := rfl
  rw [rest, wp_pure, wp_pure, wp_pure, List.append_nil, bytes]
  exact ⟨rfl, rfl⟩

/-- The entries are passed over in search of another name. -/
theorem passed (readable : Readable x) {ip : Inode} (addrs : ip.addrs = deepInode.addrs) (file : ip.type ≠ T_DEV)
    (size : 139 * BSIZE ≤ ip.size) : Passed Frail.handler mkfsSuperblock noDevices ip (chars [120]) 4448 x := by
  intro i low
  refine ⟨_, readable.readi_entry addrs file size low, ?_, ?_⟩
  · show (entryByte (16 * i + 0)).toNat + 256 * (entryByte (16 * i + 1)).toNat ≠ 0
    have first : entryByte (16 * i + 0) = 1 := if_pos (by omega)
    rw [first]
    exact Nat.add_one_ne_zero _ ∘ (Nat.add_comm _ _).trans
  · have third : entryByte (16 * i + 2) = UInt8.ofNat (1 + i % 100) := by
      rw [entryByte, if_neg (by omega), if_pos (by omega), show (16 * i + 2) / 16 = i by omega]
    have other : (120 : UInt8) ≠ UInt8.ofNat (1 + i % 100) := by
      intro equal
      have values := congrArg UInt8.toNat equal
      rw [UInt8.toNat_ofNat'] at values
      change 120 = (1 + i % 100) % 2 ^ 8 at values
      omega
    rw [← third] at other
    show strncmp (chars [120]) _ (13 + 1) ≠ 0
    rw [strncmp, if_neg fun both => other both.2]
    intro equal
    exact other (UInt8.toNat_inj.mp (by change ((120 : UInt8).toNat : Int) - (entryByte (16 * i + 2)).toNat = 0 at equal; omega))

end Readable

/-- The first state is readable. -/
theorem full_readable : Readable (fullFrail 1) where
  held := rfl
  room := by decide
  data bn inside := by
    have direct : NDIRECT = 10 := rfl
    have entries : NINDIRECT = 128 := rfl
    show fullBlocks (fullAddress bn) = _
    unfold fullAddress
    split_ifs with first second
    · rw [fullBlocks, if_pos (by omega), Nat.add_sub_cancel_left]
    · rw [fullBlocks, if_neg (by omega), if_pos (by omega), Nat.add_sub_cancel_left]
    · rw [show bn = 138 by omega]
      rfl
  single := by decide +kernel
  double := by decide +kernel
  index := by decide +kernel
  recorded _ _ := rfl
  absorbed := rfl
  dirty := rfl

/-! ## The new entry -/

/-- The inode and the state after the entry was written at the end. -/
def linked : Option (Inode × Frail) :=
  match Frail.exec (writei mkfsSuperblock noDevices fullInode (putDirent 1 (chars [120])) (direntSize * 4448))
    (fullFrail 1) with
  | .ok ((ip, r), y) => if r = direntSize then some (ip, y) else none
  | .error _ => none

/-- What is then known. -/
def EntryLinked (r : Inode × Frail) : Prop :=
  (r.1.type = T_DIR ∧ r.1.size = 139 * BSIZE + direntSize ∧ ∀ i, r.1.addrs i = deepInode.addrs i) ∧
    (r.2.held = ∅ ∧ r.2.store.log.lh.length + 1 < NBUF ∧ ∀ b, b < 210 → r.2.store.unlogged b = false) ∧
    (∀ b ∈ r.2.changed, b < 68 ∨ b = 208 ∨ 210 ≤ b) ∧ (r.2.store.blocks 208).word 0 = 209 ∧
    (209 ∈ r.2.store.log.lh ∧ r.2.store.log.lh.length < LOGSIZE ∧
      r.2.store.log.lh.length < r.2.store.log.size - 1 ∧ 1 ≤ r.2.store.log.outstanding) ∧
    r.2.store.dirty 209 = true

instance (r : Inode × Frail) : Decidable (EntryLinked r) := by unfold EntryLinked; infer_instance

/-- The entry is written, in a state that can be read but for it. -/
theorem linked_readable : ∃ ip y, Frail.exec (dirlink mkfsSuperblock noDevices fullInode (chars [120]) 1) (fullFrail 1) =
      .ok ((ip, 0), y) ∧ linked = some (ip, y) ∧ EntryLinked (ip, y) ∧ Readable y := by
  have some : linked.isSome = true := by decide +kernel
  have facts : linked.all (fun r => decide (EntryLinked r)) = true := by decide +kernel
  obtain ⟨⟨ip, y⟩, here⟩ := Option.isSome_iff_exists.mp some
  rw [here, Option.all_some, decide_eq_true_iff] at facts
  have passed := full_readable.passed (rfl : fullInode.addrs = _) (by decide) (Nat.le_refl _)
  have written : Frail.exec (writei mkfsSuperblock noDevices fullInode (putDirent 1 (chars [120])) (direntSize * 4448))
      (fullFrail 1) = .ok ((ip, direntSize), y) := by
    unfold linked at here
    split at here
    · rename_i r _ returned
      split at here
      · rename_i whole
        obtain ⟨rfl, rfl⟩ := Prod.mk.inj (Option.some.inj here)
        rw [returned, whole]
      · exact absurd here.symm (Option.some_ne_none _)
    · exact absurd here.symm (Option.some_ne_none _)
  refine ⟨ip, y, ?_, here, facts, ?_⟩
  · have fuel : fullInode.size / direntSize + 1 = 4448 + 1 := by decide
    have past : ¬direntSize * 4448 < fullInode.size := by decide
    have search : Frail.exec (dirlookup mkfsSuperblock noDevices fullInode (chars [120])) (fullFrail 1) =
        .ok ((fullInode, none), fullFrail 1) := by
      rw [dirlookup, if_neg (fun different => different rfl), fuel, Frail.exec,
        dirlookupFrom_passed passed (Nat.le_refl _), dirlookupFrom, if_neg past, run_pure]
    have empty : Frail.exec (emptyDirentFrom mkfsSuperblock noDevices fullInode 0 (fullInode.size / direntSize + 1))
        (fullFrail 1) = .ok ((fullInode, direntSize * 4448), fullFrail 1) := by
      rw [fuel, Frail.exec, emptyDirentFrom_passed passed (Nat.le_refl _), emptyDirentFrom, if_neg past, run_pure]
    unfold dirlink
    rw [Frail.exec, run_bind_ok search]
    dsimp only
    rw [run_bind_ok empty]
    dsimp only
    rw [run_bind_ok written]
    dsimp only
    rw [if_neg fun different => different rfl, run_pure]
  · have keeps := Frail.run_keeps written
    obtain ⟨-, ⟨held, room, recorded⟩, changed, index, ⟨member, header, area, opened⟩, dirty⟩ := facts
    have other : ∀ b, b ≠ 208 → 68 ≤ b → b < 210 → y.store.blocks b = fullBlocks b := by
      intro b apart high low
      apply keeps.blocks b
      intro member
      rcases changed b member with before | same | after <;> omega
    refine ⟨held, room, ?_, ?_, ?_, index, recorded, ?_, dirty⟩
    · intro bn inside
      have address := fullAddress_lt inside
      have apart : fullAddress bn ≠ 208 ∧ 68 ≤ fullAddress bn := by
        unfold fullAddress
        split_ifs <;> omega
      rw [other _ apart.1 apart.2 address]
      exact full_readable.data bn inside
    · intro i inside
      rw [other 78 (by decide) (by decide) (by decide)]
      exact full_readable.single i inside
    · rw [other 207 (by decide) (by decide) (by decide)]
      exact full_readable.double
    · rw [Log.write_record header area opened]
      simp only [Log.record, member, ↓reduceIte]

/-- The search behind the first 139 blocks finds nothing. -/
def Lost (r : Inode × Frail) : Prop :=
  match Frail.exec (dirlookupFrom mkfsSuperblock noDevices r.1 (chars [120]) (direntSize * 4448) 2) r.2 with
  | .ok ((_, found), _) => found = none
  | .error _ => False

instance (r : Inode × Frail) : Decidable (Lost r) := by
  unfold Lost
  split <;> infer_instance

/-- `dirlookup` does not find the entry. -/
theorem linked_lost : ∃ ip y ip' z, Frail.exec (dirlink mkfsSuperblock noDevices fullInode (chars [120]) 1)
      (fullFrail 1) = .ok ((ip, 0), y) ∧
    Frail.exec (dirlookup mkfsSuperblock noDevices ip (chars [120])) y = .ok ((ip', none), z) := by
  obtain ⟨ip, y, returned, here, facts, readable⟩ := linked_readable
  have lost : linked.all (fun r => decide (Lost r)) = true := by decide +kernel
  rw [here, Option.all_some, decide_eq_true_iff] at lost
  obtain ⟨⟨dir, size, addrs⟩, -⟩ := facts
  have inside : direntSize * 4448 ≤ ip.size := by
    rw [size]
    decide
  have passed := readable.passed (funext addrs : ip.addrs = _) (by rw [dir]; decide) (Nat.le_trans (by decide) inside)
  have fuel : ip.size / direntSize + 1 = 4448 + 2 := by
    rw [size]
    decide
  unfold Lost at lost
  split at lost
  · rename_i ip' found z searched
    rw [lost] at searched
    refine ⟨ip, y, ip', z, returned, ?_⟩
    rw [dirlookup, if_neg (fun different => different dir), fuel, Frail.exec, dirlookupFrom_passed passed inside]
    exact searched
  · exact lost.elim

/-- A name of two characters. -/
theorem cut_two {s : Chars} {n : Nat} (first : s 0 ≠ 0) (second : s 1 ≠ 0) (ends : s 2 = 0) :
    cut s (n + 3) = [s 0, s 1] := by
  simp [cut, Chars.next, first, second, ends]

/-- A small number plus one is a character. -/
theorem char_ne_zero {j : Nat} (small : j < 100) : UInt8.ofNat (1 + j) ≠ 0 := by
  intro zero
  have values := congrArg UInt8.toNat zero
  rw [UInt8.toNat_ofNat'] at values
  change (1 + j) % 2 ^ 8 = 0 at values
  omega

/-- Every entry is in use, with a name of its own. -/
theorem fullContent_entries {i : Nat} (low : i < 4448) :
    (dirents fullContent)[i]? = some ⟨1, [UInt8.ofNat (1 + i % 100), UInt8.ofNat (1 + i / 100)]⟩ := by
  have unit : direntSize = 16 := rfl
  have length : fullContent.length = 71168 := by
    rw [fullContent, List.length_map, List.length_range]
    rfl
  have slice : (fullContent.drop (direntSize * i)).take direntSize =
      (List.range 16).map fun o => entryByte (16 * i + o) := by
    apply List.ext_getElem?
    intro o
    rw [unit, List.getElem?_take]
    by_cases small : o < 16
    · rw [if_pos small, List.getElem?_drop, fullContent, List.getElem?_map, List.getElem?_map,
        List.getElem?_range small, List.getElem?_range (show 16 * i + o < 139 * BSIZE by simp only [BSIZE]; omega)]
      rfl
    · rw [if_neg small, List.getElem?_eq_none (by simpa using small)]
  have third : entryByte (16 * i + 2) = UInt8.ofNat (1 + i % 100) := by
    rw [entryByte, if_neg (by omega), if_pos (by omega), show (16 * i + 2) / 16 = i by omega]
  have fourth : entryByte (16 * i + 3) = UInt8.ofNat (1 + i / 100) := by
    rw [entryByte, if_neg (by omega), if_neg (by omega), if_pos (by omega), show (16 * i + 3) / 16 = i by omega]
  have fifth : entryByte (16 * i + 4) = 0 := by
    rw [entryByte, if_neg (by omega), if_neg (by omega), if_neg (by omega)]
  rw [getElem?_dirents (by rw [length, unit]; omega), slice, ← third, ← fourth]
  have number : deInum ((List.range 16).map fun o => entryByte (16 * i + o)) = 1 := by
    show (entryByte (16 * i + 0)).toNat + 256 * (entryByte (16 * i + 1)).toNat = 1
    rw [entryByte, if_pos (by omega), entryByte, if_neg (by omega), if_neg (by omega), if_neg (by omega)]
    rfl
  have named : cut (deName ((List.range 16).map fun o => entryByte (16 * i + o))) (11 + 3) =
      [entryByte (16 * i + 2), entryByte (16 * i + 3)] := by
    refine cut_two ?_ ?_ fifth
    · show entryByte (16 * i + 2) ≠ 0
      rw [third]
      exact char_ne_zero (Nat.mod_lt _ (by decide))
    · show entryByte (16 * i + 3) ≠ 0
      rw [fourth]
      exact char_ne_zero (by omega)
  show some (Dirent.mk _ (cut _ (11 + 3))) = _
  rw [number, named]

/-- The directory stores its content. -/
theorem fullDirectory_stores : Stores fullDirectory.view () fullContent := by
  have contents : fullDirectory.view.store.blocks = fullBlocks := (full_shows 0).implements.contents fun _ => rfl
  have mapped : ∀ bn, bn < 139 → blockAt fullInode fullBlocks bn = fullAddress bn := by decide +kernel
  have length : fullContent.length = 139 * BSIZE := by rw [fullContent, List.length_map, List.length_range]
  refine ⟨length.symm, by rw [length]; decide, ?_⟩
  intro i inside
  rw [length] at inside
  have block : i / BSIZE < 139 := Nat.div_lt_of_lt_mul (by rw [Nat.mul_comm]; exact inside)
  have address : fullDirectory.view.mapped () (i / BSIZE) = fullAddress (i / BSIZE) := by
    rw [FsState.mapped, mapping_eq_blockAt, contents]
    exact mapped _ block
  have within : i % BSIZE < BSIZE := Nat.mod_lt _ (by decide)
  have data : fullBlocks (fullAddress (i / BSIZE)) = entryBlock (i / BSIZE) := full_readable.data _ block
  rw [fileByte_eq, address, contents, data, entryBlock, Block.byte_ofFn _ within, Nat.div_add_mod, fullContent,
    List.getElem?_map, List.getElem?_range inside]
  exact ⟨fullAddress_ne_zero _, rfl⟩

end Xv6
