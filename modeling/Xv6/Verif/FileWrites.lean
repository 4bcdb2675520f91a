import Xv6.FileWrite
import Xv6.Verif.Files
import Xv6.Verif.Initial

/-!
# What `pwrite` writes

`filepwrite` writes every piece of its buffer at the same offset, so a piece lands on the one
before it. What is left in the file is known for every buffer, and it is the buffer just when the
buffer is a single piece, or when the file was long enough and the bytes happen to agree.
-/

namespace Xv6

open Program Splice

/-! ## Pieces at one offset -/

/-- The file after the pieces of a buffer have been written at the same offset. -/
def pieces (file : List UInt8) (off : Nat) (buf : List UInt8) : Nat → List UInt8
  | 0 => file
  | fuel + 1 =>
    if buf.length = 0 then file
    else pieces (splice file off (buf.take (min buf.length maxPiece))) off (buf.drop (min buf.length maxPiece)) fuel

/-- The last position of a buffer of `n` bytes that lies as far in its piece as the position `j` of
the first piece. -/
def lastAt (n j : Nat) : Nat := j + maxPiece * ((n - 1 - j) / maxPiece)

/-- Pieces make a file only longer, and not beyond the first of them. -/
theorem length_pieces {file buf : List UInt8} {off fuel : Nat} (inside : off ≤ file.length) (enough : buf.length ≤ fuel) :
    (pieces file off buf fuel).length = max file.length (off + min buf.length maxPiece) := by
  induction fuel generalizing file buf with
  | zero =>
    show file.length = _
    omega
  | succ fuel ih =>
    rw [pieces]
    by_cases none : buf.length = 0
    · rw [if_pos none]
      omega
    · have piece : (buf.take (min buf.length maxPiece)).length = min buf.length maxPiece := by
        rw [List.length_take]
        omega
      have longer := length_splice (buf.take (min buf.length maxPiece)) inside
      have positive : 0 < maxPiece := by decide
      rw [if_neg none, ih (by omega) (by rw [List.length_drop]; omega), longer, piece, List.length_drop]
      omega

/-- The bytes after the pieces: in the range of the first piece those of the last piece that covers
them, and the old ones elsewhere. -/
theorem getElem?_pieces {file buf : List UInt8} {off fuel : Nat} (inside : off ≤ file.length)
    (enough : buf.length ≤ fuel) (i : Nat) :
    (pieces file off buf fuel)[i]? =
      if off ≤ i ∧ i < off + min buf.length maxPiece then buf[lastAt buf.length (i - off)]? else file[i]? := by
  have size : maxPiece = 1536 := rfl
  induction fuel generalizing file buf with
  | zero =>
    rw [if_neg (by omega)]
    rfl
  | succ fuel ih =>
    rw [pieces]
    by_cases none : buf.length = 0
    · rw [if_pos none, if_neg (by omega)]
    · rw [if_neg none]
      have piece : (buf.take (min buf.length maxPiece)).length = min buf.length maxPiece := by
        rw [List.length_take]
        omega
      have longer := length_splice (buf.take (min buf.length maxPiece)) inside
      rw [ih (by omega) (by rw [List.length_drop]; omega), List.length_drop]
      by_cases covered : off ≤ i ∧ i < off + min (buf.length - min buf.length maxPiece) maxPiece
      · -- a later piece covers the position
        have first : off ≤ i ∧ i < off + min buf.length maxPiece := by omega
        have same : min buf.length maxPiece + lastAt (buf.length - min buf.length maxPiece) (i - off) =
            lastAt buf.length (i - off) := by
          unfold lastAt
          rw [size] at covered ⊢
          have steps : (buf.length - 1 - (i - off)) / 1536 =
              (buf.length - min buf.length 1536 - 1 - (i - off)) / 1536 + 1 := by omega
          rw [steps]
          omega
        rw [if_pos covered, if_pos first, List.getElem?_drop, same]
      · rw [if_neg covered]
        by_cases first : off ≤ i ∧ i < off + min buf.length maxPiece
        · have only : lastAt buf.length (i - off) = i - off := by
            unfold lastAt
            rw [size] at covered first ⊢
            have none : (buf.length - 1 - (i - off)) / 1536 = 0 := by omega
            rw [none]
            omega
          rw [if_pos first, only, getElem?_splice_within inside first.1 (by rw [piece]; exact first.2),
            List.getElem?_take, if_pos (by omega)]
        · rw [if_neg first]
          by_cases before : i < off
          · exact getElem?_splice_before inside before
          · exact getElem?_splice_after inside (by rw [piece]; omega)

/-- When the pieces leave what one write would: the buffer is one piece, or the file reaches to its
end and every position of it holds the right byte already or gets it from the last piece there. -/
def Unspoiled (file : List UInt8) (off : Nat) (buf : List UInt8) : Prop :=
  buf.length ≤ maxPiece ∨
    off + buf.length ≤ file.length ∧
      ∀ j < buf.length, buf[j]? = if j < maxPiece then buf[lastAt buf.length j]? else file[off + j]?

/-- The condition is exact. -/
theorem pieces_eq_splice_iff {file buf : List UInt8} {off fuel : Nat} (inside : off ≤ file.length)
    (enough : buf.length ≤ fuel) : pieces file off buf fuel = splice file off buf ↔ Unspoiled file off buf := by
  have size : maxPiece = 1536 := rfl
  have alone : ∀ j < buf.length, buf.length ≤ maxPiece → lastAt buf.length j = j := by
    intro j low short
    unfold lastAt
    rw [size] at short ⊢
    have none : (buf.length - 1 - j) / 1536 = 0 := by omega
    rw [none]
    omega
  constructor
  · intro same
    by_cases short : buf.length ≤ maxPiece
    · exact .inl short
    · refine .inr ⟨?_, ?_⟩
      · have lengths := congrArg List.length same
        rw [length_pieces inside enough, length_splice buf inside] at lengths
        omega
      · intro j low
        have byte := congrArg (fun list : List UInt8 => list[off + j]?) same
        simp only [getElem?_pieces inside enough] at byte
        rw [getElem?_splice_within inside (by omega) (by omega), Nat.add_sub_cancel_left] at byte
        rw [← byte]
        by_cases first : j < maxPiece
        · rw [if_pos first, if_pos (by omega)]
        · rw [if_neg first, if_neg (by omega)]
  · intro unspoiled
    apply List.ext_getElem?
    intro i
    rw [getElem?_pieces inside enough]
    by_cases before : i < off
    · rw [if_neg (by omega), getElem?_splice_before inside before]
    · by_cases within : i < off + buf.length
      · rw [getElem?_splice_within inside (by omega) within]
        rcases unspoiled with short | ⟨_, bytes⟩
        · rw [if_pos (by omega), alone _ (by omega) short]
        · rw [bytes (i - off) (by omega)]
          by_cases first : i - off < maxPiece
          · rw [if_pos (by omega), if_pos first]
          · rw [if_neg (by omega), if_neg first]
            congr 1
            omega
      · rw [if_neg (by omega), getElem?_splice_after inside (by omega)]

/-! ## `filepwrite` -/

section Pwrite

variable {ι : Type} [DecidableEq ι] {sb : Superblock} {nmeta : Nat} {s : FsState ι} {files : ι → List UInt8} {k : ι}
  {off : Nat}

omit [DecidableEq ι] in
/-- A file system represents one family of byte arrays only. -/
theorem Represents.unique {files' : ι → List UInt8} (first : Represents sb nmeta s files)
    (second : Represents sb nmeta s files') : files = files' := by
  funext k
  have lengths : (files k).length = (files' k).length := (first.size k).symm.trans (second.size k)
  apply List.ext_getElem?
  intro i
  by_cases inside : i < (files k).length
  · rw [(first.bytes k i inside).2, (second.bytes k i (lengths ▸ inside)).2]
  · rw [List.getElem?_eq_none (by omega), List.getElem?_eq_none (by omega)]

/-- Every piece is written, at the same offset, and no change is left unrecorded. -/
theorem filepwriteLoop_spec (devsw : Devsw) (layout : Layout sb nmeta) (represents : Represents sb nmeta s files)
    (settled : Settled true s.store) {rest : List UInt8} {fuel : Nat} (inside : off ≤ (files k).length)
    (shallow : Quiet off rest.length) (enough : rest.length ≤ fuel) :
    wp (Store.handler (recording true)) (filepwriteLoop sb devsw (s.inodes k) off rest fuel)
      (fun result store => result.2 = [] ∧
        Represents sb nmeta ⟨Function.update s.inodes k result.1, store⟩
          (Function.update files k (pieces (files k) off rest fuel)))
      outOfBlocks s.store := by
  have largest : (NDIRECT + NINDIRECT) * BSIZE < MAXFILE * BSIZE := by decide
  have bounded : MAXFILE * BSIZE < 2 ^ 31 := by decide
  induction fuel generalizing s files rest with
  | zero =>
    have empty : rest = [] := List.eq_nil_of_length_eq_zero (Nat.le_zero.mp enough)
    rw [filepwriteLoop, wp_pure, pieces, Function.update_eq_self, Function.update_eq_self]
    exact ⟨empty, represents⟩
  | succ fuel ih =>
    rw [filepwriteLoop, pieces]
    by_cases none : rest.length = 0
    · rw [if_pos none, if_pos none, wp_pure, Function.update_eq_self, Function.update_eq_self]
      exact ⟨List.eq_nil_of_length_eq_zero none, represents⟩
    · rw [if_neg none, if_neg none, wp_bind]
      have positive : 0 < maxPiece := by decide
      have room : off + rest.length ≤ (NDIRECT + NINDIRECT) * BSIZE := shallow.resolve_left none
      have piece : (rest.take (min rest.length maxPiece)).length = min rest.length maxPiece := by
        rw [List.length_take]
        omega
      have accepted : Accepts (files k).length off (rest.take (min rest.length maxPiece)).length := by
        rw [piece]
        exact ⟨inside, by omega, by omega⟩
      refine wp_mono (writei_spec devsw layout represents (by omega) (by omega) accepted settled fun _ => by omega) ?_
        fun _ h => h
      intro result store after
      obtain ⟨written, length, recorded⟩ := after
      rw [piece] at length
      have accepts : ¬ result.2 < 0 := by omega
      have whole : ¬ result.2 ≠ ((min rest.length maxPiece : Nat) : Int) := fun other => other length
      simp only [if_neg accepts, if_neg whole]
      have longer := length_splice (rest.take (min rest.length maxPiece)) inside
      have left : (rest.drop (min rest.length maxPiece)).length = rest.length - min rest.length maxPiece :=
        List.length_drop
      have roomLeft : off + (rest.drop (min rest.length maxPiece)).length ≤ (NDIRECT + NINDIRECT) * BSIZE := by omega
      have later := ih written recorded (by rw [Function.update_self]; omega) (.inr roomLeft) (by omega)
      simp only [Function.update_self, Function.update_idem] at later
      exact later

/-- `filepwrite` returns the length of the buffer and leaves no change that `log_write` has not seen, the file
is the old one with the buffer at the offset, and `filepread` of the same length and offset on the inode open for
reading returns the buffer, whatever transactions are open then. The code leaves `f->off`. -/
def Pwrites (sb : Superblock) (nmeta : Nat) (devsw : Devsw) (pipewrite : List UInt8 → Kernel Int)
    (piperead : Int → Kernel (Int × List UInt8)) (f : WritableFile) (s : FsState ι) (files : ι → List UInt8) (k : ι)
    (buf : List UInt8) (off : Nat) : Prop :=
  ∃ ip store, Store.exec (recording true) (filepwrite sb devsw pipewrite f (s.inodes k) buf off) s.store =
      .ok ((ip, (buf.length : Int)), store) ∧
    Represents sb nmeta ⟨Function.update s.inodes k ip, store⟩
      (Function.update files k (splice (files k) off buf)) ∧
    ∀ log, ∃ ip' store', Store.exec checked
      (filepread sb devsw piperead { f.toFile with readable := true } ip buf.length off) { store with log } =
        .ok ((ip', (buf.length : Int), buf), store')

/-- Outside a transaction, what returns has passed nothing to `log_write`. -/
theorem closed_records {α : Type} {code : Kernel α} {x y : Store} {value : α} (closed : x.log.outstanding < 1)
    (returned : Store.exec checked code x = .ok (value, y)) : y.recorded = x.recorded := by
  have amid : RunsAmid (Store.handler checked) (fun _ _ => False) code x value y := .of_run code returned
  refine (amid.invariant (fun z => z.log = x.log ∧ z.recorded = x.recorded) ?_ (fun _ _ _ => False.elim) ⟨rfl, rfl⟩).2
  intro op z answer w same answered
  cases op with
  | logWrite blockno =>
    dsimp only [Store.handler] at answered
    split at answered
    · rename_i accepted
      have opened := (Log.write_ok accepted).2.2.1
      rw [same.1] at opened
      omega
    · cases answered
  | bread blockno =>
    cases answered
    exact same
  | modify blockno update =>
    cases answered
    exact same
  | bwrite blockno =>
    cases answered
    exact same
  | brelse blockno =>
    cases answered
    exact same

/-- `filepread` returns the bytes at the offset of a file that holds them, whatever the log holds, exactly when
it ends within the direct and single indirect ranges. -/
theorem filepread_back_iff (devsw : Devsw) (piperead : Int → Kernel (Int × List UInt8)) {ip : Inode} {store : Store}
    {buf : List UInt8} (represents : Represents sb nmeta ⟨Function.update s.inodes k ip, store⟩
      (Function.update files k (splice (files k) off buf)))
    {f : File} (readable : f.readable = true) (type : f.type = .inode) (inside : off ≤ (files k).length)
    (room : off + buf.length ≤ MAXFILE * BSIZE) :
    (∀ log, ∃ ip' store', Store.exec checked (filepread sb devsw piperead f ip buf.length off) { store with log } =
      .ok ((ip', (buf.length : Int), buf), store')) ↔ Quiet off buf.length := by
  have largest : MAXFILE * BSIZE < 2 ^ 31 := by decide
  have start : toUint (off : Int) = off := by
    unfold toUint
    omega
  have count : toUint (buf.length : Int) = buf.length := by
    unfold toUint
    omega
  have opened : ¬ f.readable = false := by
    rw [readable]
    decide
  have off_fits : off < 2 ^ 32 := by omega
  have n_fits : buf.length < 2 ^ 32 := by omega
  have length := length_splice buf inside
  have accepted : ¬ Refused (splice (files k) off buf).length off buf.length := by
    unfold Refused
    omega
  have all : min buf.length ((splice (files k) off buf).length - off) = buf.length := by omega
  have slice : ((splice (files k) off buf).drop off).take buf.length = buf := by
    apply List.ext_getElem?
    intro i
    rw [List.getElem?_take]
    by_cases low : i < buf.length
    · rw [if_pos low, List.getElem?_drop, getElem?_splice_within inside (by omega) (by omega),
        Nat.add_sub_cancel_left]
    · rw [if_neg low, List.getElem?_eq_none (by omega)]
  have stores := represents.stores k
  have regular := represents.regular k
  have mapped := stores.mappedBelow
  have bytes := stores.read off buf.length
  have size := stores.size
  simp only [Function.update_self] at regular mapped bytes size
  simp only [if_neg accepted, all, slice] at bytes
  have spec : ∀ log, _ := fun log => readi_spec (s := { store with log }) (d := checked) sb devsw (.inl rfl)
    (not_device regular) mapped off_fits n_fits
  have quiet : ReadQuiet ip.size off buf.length ↔ Quiet off buf.length := by
    unfold ReadQuiet
    rw [size, all]
    exact or_iff_right accepted
  simp only [quiet] at spec
  have code : filepread sb devsw piperead f ip buf.length off = readi sb devsw ip off buf.length := by
    rw [filepread, if_neg opened, type, start, count]
  rw [code]
  constructor
  · intro back
    -- with no transaction open, `log_write` cannot have returned
    obtain ⟨ip', store', returned⟩ := back { store.log with outstanding := 0 }
    by_contra loud
    have effect := (wp_ok (spec _) returned).2
    have more := effect.recorded loud
    rw [closed_records Int.zero_lt_one returned] at more
    exact Nat.lt_irrefl _ more
  · intro short log
    cases result : Store.exec checked (readi sb devsw ip off buf.length) { store with log } with
    | error reason => exact absurd short (wp_error (spec log) result).1
    | ok passed =>
      obtain ⟨value, store'⟩ := passed
      have same := (wp_ok (spec log) result).1
      rw [bytes] at same
      rw [same]
      exact ⟨ip, store', rfl⟩

/-- What `filepwrite` does within the direct and single indirect ranges: the pieces of the buffer end up at the
offset. -/
theorem filepwrite_spec (devsw : Devsw) (pipewrite : List UInt8 → Kernel Int) (layout : Layout sb nmeta)
    (represents : Represents sb nmeta s files) (settled : Settled true s.store) {f : WritableFile}
    (writable : f.writable = true) (type : f.type = .inode) {buf : List UInt8} (inside : off ≤ (files k).length)
    (shallow : Quiet off buf.length) :
    wp (Store.handler (recording true)) (filepwrite sb devsw pipewrite f (s.inodes k) buf off)
      (fun result store => result.2 = (buf.length : Int) ∧
        Represents sb nmeta ⟨Function.update s.inodes k result.1, store⟩
          (Function.update files k (pieces (files k) off buf buf.length)))
      outOfBlocks s.store := by
  have largest : MAXFILE * BSIZE < 2 ^ 31 := by decide
  have short := represents.short k
  have start : toUint (off : Int) = off := by
    unfold toUint
    omega
  have opened : ¬ f.writable = false := by
    rw [writable]
    decide
  rw [filepwrite, if_neg opened, type, start]
  show wp _ (filepwriteLoop sb devsw (s.inodes k) off buf buf.length >>= _) _ _ _
  rw [wp_bind]
  refine wp_mono (filepwriteLoop_spec devsw layout represents settled inside shallow (Nat.le_refl _)) ?_ fun _ h => h
  intro result store after
  obtain ⟨empty, written⟩ := after
  rw [wp_pure, empty]
  exact ⟨rfl, written⟩

/-- From a store without unrecorded changes, `filepwrite` writes what it was given and `filepread` reads it back
just when the buffer ends within the direct and single indirect ranges and its pieces, all written at one offset,
leave what one write would, unless the disk is full. -/
theorem filepwrite_writes_iff (devsw : Devsw) (pipewrite : List UInt8 → Kernel Int)
    (piperead : Int → Kernel (Int × List UInt8)) (layout : Layout sb nmeta)
    (represents : Represents sb nmeta s files) (settled : ∀ b, s.store.unlogged b = false) {f : WritableFile}
    (writable : f.writable = true) (type : f.type = .inode) (buf : List UInt8) (inside : off ≤ (files k).length)
    (room : off + buf.length ≤ MAXFILE * BSIZE) :
    Store.exec (recording true) (filepwrite sb devsw pipewrite f (s.inodes k) buf off) s.store =
        .error (.panic "balloc: out of blocks") ∨
      (Pwrites sb nmeta devsw pipewrite piperead f s files k buf off ↔
        Quiet off buf.length ∧ Unspoiled (files k) off buf) := by
  by_cases shallow : Quiet off buf.length
  · have spec := filepwrite_spec devsw pipewrite layout represents (fun _ => settled) writable type inside shallow
    cases result : Store.exec (recording true) (filepwrite sb devsw pipewrite f (s.inodes k) buf off) s.store with
    | error reason =>
      have stopped : reason = _ := wp_error spec result
      rw [stopped]
      exact .inl rfl
    | ok passed =>
      obtain ⟨⟨ip, r⟩, store⟩ := passed
      obtain ⟨length, written⟩ := wp_ok spec result
      change r = _ at length
      subst length
      right
      rw [← pieces_eq_splice_iff inside (Nat.le_refl _)]
      constructor
      · rintro ⟨ip', store', returned, expected, _⟩
        rw [returned] at result
        cases result
        have same := congrFun (written.unique expected) k
        rw [Function.update_self, Function.update_self] at same
        exact ⟨shallow, same⟩
      · rintro ⟨_, same⟩
        rw [same] at written
        have back := filepread_back_iff devsw piperead written (f := { f.toFile with readable := true }) rfl type inside room
        exact ⟨ip, store, result, written, back.mpr shallow⟩
  · refine .inr (iff_of_false ?_ fun both => shallow both.1)
    rintro ⟨ip, store, _, expected, back⟩
    exact shallow ((filepread_back_iff devsw piperead expected (f := { f.toFile with readable := true }) rfl type inside
      room).mp back)

end Pwrite

/-- An inode file open for reading and writing. -/
def openBoth : WritableFile where
  type := .inode
  readable := true
  off := 0
  writable := true

/-- The small disk holds two empty files. -/
theorem small_represents : Represents smallSuperblock 6 smallState fun _ => [] :=
  represents_empty (fun _ _ => rfl) (fun _ => rfl) (fun _ => rfl) (fun k => k.isLt) small_owned.meta_used

/-- Three bytes at the start of an empty file. -/
theorem filepwrite_writes_three :
    Store.exec (recording true) (filepwrite smallSuperblock noDevices (fun _ => pure (-1)) openBoth
        (smallState.inodes 0) [1, 2, 3] (0 : Nat)) smallState.store = .error (.panic "balloc: out of blocks") ∨
      (Pwrites smallSuperblock 6 noDevices (fun _ => pure (-1)) (fun _ => pure (-1, [])) openBoth smallState
        (fun _ => []) 0 [1, 2, 3] 0 ↔ Quiet 0 [1, 2, 3].length ∧ Unspoiled [] 0 [1, 2, 3]) :=
  filepwrite_writes_iff noDevices _ _ small_layout small_represents (fun _ => rfl) rfl rfl [1, 2, 3] (Nat.le_refl 0)
    (by decide)

set_option maxRecDepth 20000 in
/-- One byte more than a piece, at the start of an empty file: the call returns, but the second piece
lands on the first byte. -/
theorem filepwrite_spoils_long :
    (∃ passed, Store.exec (recording true) (filepwrite smallSuperblock noDevices (fun _ => pure (-1)) openBoth
        (smallState.inodes 0) (List.replicate 1537 1) (0 : Nat)) smallState.store = .ok passed) ∧
      ¬ Pwrites smallSuperblock 6 noDevices (fun _ => pure (-1)) (fun _ => pure (-1, [])) openBoth smallState
        (fun _ => []) 0 (List.replicate 1537 1) 0 := by
  refine ⟨?_, ?_⟩
  · have returns : (match Store.exec (recording true) (filepwrite smallSuperblock noDevices (fun _ => pure (-1))
        openBoth (smallState.inodes 0) (List.replicate 1537 1) (0 : Nat)) smallState.store with
      | .ok _ => true
      | .error _ => false) = true := by decide +kernel
    split at returns
    · rename_i passed same
      exact ⟨passed, same⟩
    · contradiction
  · rintro ⟨ip, store, returned, expected, _⟩
    have shallow : Quiet 0 (List.replicate 1537 (1 : UInt8)).length := by
      rw [List.length_replicate]
      decide
    have spec := filepwrite_spec noDevices (fun _ => pure (-1)) small_layout small_represents (fun _ _ => rfl)
      (f := openBoth) rfl rfl (k := 0) (Nat.le_refl 0) shallow
    have same := congrFun ((wp_ok spec returned).2.unique expected) 0
    rw [Function.update_self, Function.update_self] at same
    have lengths := congrArg List.length same
    rw [length_pieces (Nat.le_refl 0) (Nat.le_refl _), length_splice _ (Nat.le_refl 0), List.length_replicate] at lengths
    exact absurd lengths (by decide)

end Xv6
