import Mathlib.Algebra.BigOperators.Group.Finset.Basic
import Mathlib.Algebra.Order.BigOperators.Group.Finset
import Mathlib.Data.Fintype.BigOperators
import Xv6.Lib.Runs
import Xv6.Verif.FileWrites

/-!
# Writing through a shared open file

Any number of callers of `filewrite` on one `struct file`, each piece of each of them an atomic step. The
pieces are appended to the file in the order of the steps, and `f->off` is the size of the file after each
of them.
-/

namespace Xv6

open Program Splice

variable {ι κ : Type}

/-- Callers of `filewrite` in the loop on one open file. -/
structure Writers (ι κ : Type) where
  /-- The open file. -/
  file : WritableFile
  /-- The file system. -/
  fs : FsState ι
  /-- The buffer of each call. -/
  addr : κ → List UInt8
  /-- `i`: the bytes of it that are written. -/
  i : κ → Nat
  /-- What the call returned. -/
  result : κ → Option Int

/-- One step of a caller: it writes its next piece, or leaves the loop. -/
def writersStep [DecidableEq ι] [DecidableEq κ] (sb : Superblock) (devsw : Devsw) (k : ι) (x : Writers ι κ) (c : κ) :
    Except Stop (Writers ι κ) :=
  let rest := (x.addr c).drop (x.i c)
  if rest.length = 0 then
    .ok { x with result := Function.update x.result c (some (if x.i c = (x.addr c).length then (x.addr c).length else -1)) }
  else
    match Store.exec (recording true) (filewritePiece sb devsw x.file (x.fs.inodes k) rest) x.fs.store with
    | .error reason => .error reason
    | .ok ((f, ip, r), store) =>
      let y := { x with file := f, fs := ⟨Function.update x.fs.inodes k ip, store⟩ }
      if r < 0 then .ok { y with result := Function.update x.result c (some (-1)) }
      else if r ≠ min rest.length maxPiece then .error (.panic "short filewrite")
      else .ok { y with i := Function.update x.i c (x.i c + r.toNat) }

/-- A caller that has not returned takes a step. -/
def writes [DecidableEq ι] [DecidableEq κ] (sb : Superblock) (devsw : Devsw) (k : ι) (x : Writers ι κ) (c : κ)
    (y : Writers ι κ) : Prop := x.result c = none ∧ writersStep sb devsw k x c = .ok y

/-! ## One piece -/

section Pieces

variable [DecidableEq ι] {sb : Superblock} {nmeta : Nat} {s : FsState ι} {files : ι → List UInt8} {k : ι}

/-- A piece that is written at the end of the file, within the direct and single indirect ranges, is appended,
and `f->off` follows. -/
theorem filewritePiece_appends (devsw : Devsw) (layout : Layout sb nmeta) (represents : Represents sb nmeta s files)
    (settled : Settled true s.store) {f : WritableFile} (at_end : f.off = (files k).length) {rest : List UInt8}
    (some_bytes : rest.length ≠ 0)
    (room : (files k).length + min rest.length maxPiece ≤ (NDIRECT + NINDIRECT) * BSIZE) :
    wp (Store.handler (recording true)) (filewritePiece sb devsw f (s.inodes k) rest)
      (fun result store => result.1 = { f with off := f.off + min rest.length maxPiece } ∧
        result.2.2 = (min rest.length maxPiece : Nat) ∧
        Represents sb nmeta ⟨Function.update s.inodes k result.2.1, store⟩
          (Function.update files k (files k ++ rest.take (min rest.length maxPiece))) ∧ Settled true store)
      outOfBlocks s.store := by
  have largest : (NDIRECT + NINDIRECT) * BSIZE < MAXFILE * BSIZE := by decide
  have bounded : MAXFILE * BSIZE < 2 ^ 31 := by decide
  have positive : 0 < maxPiece := by decide
  have piece : (rest.take (min rest.length maxPiece)).length = min rest.length maxPiece := by
    rw [List.length_take]
    omega
  have accepted : Accepts (files k).length (files k).length (rest.take (min rest.length maxPiece)).length := by
    rw [piece]
    exact ⟨Nat.le_refl _, by omega, by omega⟩
  rw [filewritePiece, wp_bind, at_end]
  refine wp_mono (writei_spec devsw layout represents (by omega) (by omega) accepted settled fun _ => by omega) ?_
    fun _ h => h
  intro result store after
  obtain ⟨written, length, recorded⟩ := after
  rw [piece] at length
  rw [splice_end] at written
  have grows : 0 < result.2 := by omega
  have sum : add32 (files k).length result.2.toNat = (files k).length + min rest.length maxPiece := by
    rw [length, Int.toNat_natCast]
    unfold add32
    omega
  rw [wp_pure, if_pos grows, sum]
  exact ⟨rfl, length, written, recorded⟩

end Pieces

/-! ## Runs -/

/-- After some steps, the file is the old one with some pieces appended, which in order are what each
caller has written of its buffer so far. -/
structure AppendsPieces [DecidableEq ι] [DecidableEq κ] [Fintype κ] (sb : Superblock) (nmeta : Nat) (k : ι)
    (files : ι → List UInt8) (addr : κ → List UInt8) (steps : List κ) (x : Writers ι κ)
    (pieces : List (κ × List UInt8)) : Prop where
  fs : Represents sb nmeta x.fs (Function.update files k (files k ++ pieces.flatMap Prod.snd))
  settled : Settled true x.fs.store
  /-- `f->off` is the size. -/
  off : x.file.off = (files k ++ pieces.flatMap Prod.snd).length
  buffers : x.addr = addr
  /-- The pieces of a caller are what it has written. -/
  order : ∀ c, (pieces.filter fun piece => piece.1 = c).flatMap Prod.snd = (addr c).take (x.i c)
  /-- No caller writes more than its buffer. -/
  bounded : ∀ c, x.i c ≤ (addr c).length
  /-- How much is written. -/
  total : (pieces.flatMap Prod.snd).length = ∑ c, x.i c
  /-- A caller that has returned has written its buffer and returned the length of it. -/
  returned : ∀ c r, x.result c = some r → x.i c = (addr c).length ∧ r = (addr c).length
  /-- A caller that has not has written one piece in each of its steps. -/
  running : ∀ c, x.result c = none →
    x.i c = min (addr c).length (maxPiece * steps.count c) ∧ ∀ m < steps.count c, maxPiece * m < (addr c).length

section Runs

variable [DecidableEq ι] [DecidableEq κ] [Fintype κ] {sb : Superblock} {nmeta : Nat} {k : ι} {files : ι → List UInt8}
  {addr : κ → List UInt8} {steps : List κ} {x y : Writers ι κ} {pieces : List (κ × List UInt8)} {c : κ}

omit [DecidableEq ι] in
/-- The sum of the counters when one of them moves. -/
theorem sum_moved (i : κ → Nat) (c : κ) (more : Nat) :
    ∑ q, Function.update i c (i c + more) q = ∑ q, i q + more := by
  rw [Finset.sum_update_of_mem (Finset.mem_univ c), ← Finset.add_sum_erase _ i (Finset.mem_univ c),
    Finset.sdiff_singleton_eq_erase]
  omega

/-- A caller that has written its buffer leaves the loop. -/
theorem AppendsPieces.leave (appended : AppendsPieces sb nmeta k files addr steps x pieces) (devsw : Devsw)
    (written : x.i c = (addr c).length) :
    ∃ z, writersStep sb devsw k x c = .ok z ∧ AppendsPieces sb nmeta k files addr (steps ++ [c]) z pieces := by
  have empty : ((x.addr c).drop (x.i c)).length = 0 := by
    rw [List.length_drop, appended.buffers, written, Nat.sub_self]
  refine ⟨_, if_pos empty, ⟨appended.fs, appended.settled, appended.off, appended.buffers, appended.order, appended.bounded, appended.total,
    ?_, ?_⟩⟩
  · intro q r returned
    dsimp only at returned
    by_cases here : q = c
    · subst here
      rw [Function.update_self, appended.buffers, if_pos written] at returned
      cases returned
      exact ⟨written, rfl⟩
    · rw [Function.update_of_ne here] at returned
      exact appended.returned q r returned
  · intro q running
    dsimp only at running
    have other : q ≠ c := by
      rintro rfl
      rw [Function.update_self] at running
      cases running
    rw [Function.update_of_ne other] at running
    have uncounted : (steps ++ [c]).count q = steps.count q := by
      rw [List.count_append, List.count_singleton, if_neg (by simpa using Ne.symm other), Nat.add_zero]
    rw [uncounted]
    exact appended.running q running

/-- A caller with bytes left appends its next piece, unless there is no free block. -/
theorem AppendsPieces.write (appended : AppendsPieces sb nmeta k files addr steps x pieces) (devsw : Devsw) (layout : Layout sb nmeta)
    (room : (files k).length + ∑ c, (addr c).length ≤ (NDIRECT + NINDIRECT) * BSIZE) (running : x.result c = none)
    (left : x.i c ≠ (addr c).length) :
    writersStep sb devsw k x c = .error (.panic "balloc: out of blocks") ∨
      ∃ z piece, writersStep sb devsw k x c = .ok z ∧
        AppendsPieces sb nmeta k files addr (steps ++ [c]) z (pieces ++ [(c, piece)]) := by
  have size : maxPiece = 1536 := rfl
  have bound := appended.bounded c
  obtain ⟨written, before⟩ := appended.running c running
  have count : ((addr c).drop (x.i c)).length = (addr c).length - x.i c := List.length_drop
  generalize amount : min ((addr c).drop (x.i c)).length maxPiece = m at *
  have small : x.i c + m ≤ (addr c).length := by omega
  have sum : ∑ q, x.i q + m ≤ ∑ q, (addr q).length := by
    rw [← sum_moved x.i c m]
    refine Finset.sum_le_sum fun q _ => ?_
    by_cases here : q = c
    · rw [here, Function.update_self]
      exact small
    · rw [Function.update_of_ne here]
      exact appended.bounded q
  have some_bytes : ((addr c).drop (x.i c)).length ≠ 0 := by omega
  have at_end := appended.off
  have length := appended.total
  have spec := filewritePiece_appends devsw layout appended.fs appended.settled (f := x.file) (k := k)
    (by rw [Function.update_self]; exact at_end) some_bytes
    (by rw [Function.update_self, List.length_append, amount]; omega)
  rw [Function.update_self, Function.update_idem, List.append_assoc, amount] at spec
  cases ran : Store.exec (recording true) (filewritePiece sb devsw x.file (x.fs.inodes k) ((addr c).drop (x.i c)))
      x.fs.store with
  | error reason =>
    have stopped : reason = _ := wp_error spec ran
    left
    unfold writersStep
    rw [appended.buffers, if_neg some_bytes, ran, stopped]
  | ok passed =>
    obtain ⟨⟨f, ip, r⟩, store⟩ := passed
    obtain ⟨file, result, represents, recorded⟩ := wp_ok spec ran
    dsimp only at file result represents recorded
    right
    have accepts : ¬r < 0 := by omega
    have whole : ¬r ≠ min ((addr c).drop (x.i c)).length maxPiece := by
      rw [amount]
      exact fun other => other result
    have bytes : r.toNat = m := by
      rw [result]
      exact Int.toNat_natCast m
    have taken : writersStep sb devsw k x c = .ok { x with
        file := f, fs := ⟨Function.update x.fs.inodes k ip, store⟩, i := Function.update x.i c (x.i c + m) } := by
      unfold writersStep
      rw [appended.buffers, if_neg some_bytes, ran]
      dsimp only
      rw [if_neg accepts, if_neg whole, bytes]
    refine ⟨_, ((addr c).drop (x.i c)).take m, taken, ?_⟩
    have piece : (((addr c).drop (x.i c)).take m).length = m := by
      rw [List.length_take]
      omega
    have joined : (pieces ++ [(c, ((addr c).drop (x.i c)).take m)]).flatMap Prod.snd =
        pieces.flatMap Prod.snd ++ ((addr c).drop (x.i c)).take m := by
      rw [List.flatMap_append, List.flatMap_singleton]
    constructor
    · rw [joined]
      exact represents
    · exact recorded
    · rw [joined, ← List.append_assoc, List.length_append, piece, ← at_end, file]
    · exact appended.buffers
    · intro q
      dsimp only
      rw [List.filter_append, List.flatMap_append, appended.order q]
      by_cases here : q = c
      · subst here
        rw [Function.update_self, List.take_add]
        simp
      · rw [Function.update_of_ne here]
        simp [Ne.symm here]
    · intro q
      dsimp only
      by_cases here : q = c
      · subst here
        rw [Function.update_self]
        exact small
      · rw [Function.update_of_ne here]
        exact appended.bounded q
    · rw [joined, List.length_append, piece, length]
      exact (sum_moved x.i c m).symm
    · intro q value returned
      have other : q ≠ c := by
        rintro rfl
        rw [running] at returned
        cases returned
      dsimp only
      rw [Function.update_of_ne other]
      exact appended.returned q value returned
    · intro q still
      dsimp only
      by_cases here : q = c
      · subst here
        have counted : (steps ++ [q]).count q = steps.count q + 1 := by
          rw [List.count_append, List.count_singleton_self]
        rw [Function.update_self, counted, size] at *
        refine ⟨by omega, fun j below => ?_⟩
        by_cases last : j = steps.count q
        · subst last
          omega
        · exact before j (by omega)
      · have uncounted : (steps ++ [c]).count q = steps.count q := by
          rw [List.count_append, List.count_singleton, if_neg (by simpa using Ne.symm here), Nat.add_zero]
        rw [Function.update_of_ne here, uncounted]
        exact appended.running q still

/-- Whatever a caller does next, it is done or there is no free block. -/
theorem AppendsPieces.step (appended : AppendsPieces sb nmeta k files addr steps x pieces) (devsw : Devsw)
    (layout : Layout sb nmeta) (room : (files k).length + ∑ c, (addr c).length ≤ (NDIRECT + NINDIRECT) * BSIZE)
    (running : x.result c = none) : writersStep sb devsw k x c = .error (.panic "balloc: out of blocks") ∨
      ∃ z pieces', writersStep sb devsw k x c = .ok z ∧ AppendsPieces sb nmeta k files addr (steps ++ [c]) z pieces' := by
  by_cases written : x.i c = (addr c).length
  · obtain ⟨z, left, after⟩ := appended.leave devsw written
    exact .inr ⟨z, pieces, left, after⟩
  · rcases appended.write devsw layout room running written with full | ⟨z, piece, wrote, after⟩
    · exact .inl full
    · exact .inr ⟨z, _, wrote, after⟩

/-- Every run appends pieces. -/
theorem AppendsPieces.run (devsw : Devsw) (layout : Layout sb nmeta) (represents : Represents sb nmeta x.fs files)
    (settled : Settled true x.fs.store) (at_end : x.file.off = (files k).length)
    (begun : ∀ c, x.i c = 0 ∧ x.result c = none)
    (room : (files k).length + ∑ c, (x.addr c).length ≤ (NDIRECT + NINDIRECT) * BSIZE) (run : Run (writes sb devsw k) x steps y) :
    ∃ pieces, AppendsPieces sb nmeta k files x.addr steps y pieces := by
  refine Run.history (fun steps y => ∃ pieces, AppendsPieces sb nmeta k files x.addr steps y pieces) ?_ ?_ run
  · refine ⟨[], ⟨?_, settled, ?_, rfl, ?_, ?_, ?_, ?_, ?_⟩⟩
    · rw [List.flatMap_nil, List.append_nil, Function.update_eq_self]
      exact represents
    · rw [List.flatMap_nil, List.append_nil]
      exact at_end
    · intro c
      rw [(begun c).1]
      rfl
    · intro c
      rw [(begun c).1]
      exact Nat.zero_le _
    · rw [Finset.sum_eq_zero fun c _ => (begun c).1]
      rfl
    · intro c r returned
      rw [(begun c).2] at returned
      cases returned
    · intro c _
      rw [(begun c).1, List.count_nil, Nat.mul_zero, Nat.min_zero]
      exact ⟨rfl, fun m below => absurd below (Nat.not_lt_zero m)⟩
  · intro before t c u _ appended taken
    obtain ⟨pieces, appended⟩ := appended
    rcases appended.step devsw layout room taken.1 with full | ⟨z, pieces', stepped, after⟩
    · rw [taken.2] at full
      cases full
    · rw [taken.2] at stepped
      cases stepped
      exact ⟨pieces', after⟩

end Runs

/-! ## One caller -/

section Alone

variable [DecidableEq ι] {sb : Superblock} {nmeta : Nat} {s : FsState ι} {files : ι → List UInt8} {k : ι}

/-- What `filewrite` does at the end of a file: the buffer is appended. -/
theorem filewriteLoop_appends (devsw : Devsw) (layout : Layout sb nmeta) (represents : Represents sb nmeta s files)
    (settled : Settled true s.store) {f : WritableFile} (at_end : f.off = (files k).length) {rest : List UInt8}
    {fuel : Nat} (room : (files k).length + rest.length ≤ (NDIRECT + NINDIRECT) * BSIZE) (enough : rest.length ≤ fuel) :
    wp (Store.handler (recording true)) (filewriteLoop sb devsw f (s.inodes k) rest fuel)
      (fun result store => result.1 = { f with off := f.off + rest.length } ∧ result.2.2 = [] ∧
        Represents sb nmeta ⟨Function.update s.inodes k result.2.1, store⟩
          (Function.update files k (files k ++ rest)))
      outOfBlocks s.store := by
  induction fuel generalizing s files rest f with
  | zero =>
    have empty : rest = [] := List.eq_nil_of_length_eq_zero (Nat.le_zero.mp enough)
    rw [filewriteLoop, wp_pure, empty, List.append_nil, Function.update_eq_self, Function.update_eq_self]
    exact ⟨rfl, rfl, represents⟩
  | succ fuel ih =>
    rw [filewriteLoop]
    by_cases none : rest.length = 0
    · have empty : rest = [] := List.eq_nil_of_length_eq_zero none
      rw [if_pos none, wp_pure, empty, List.append_nil, Function.update_eq_self, Function.update_eq_self]
      exact ⟨rfl, rfl, represents⟩
    · have positive : 0 < maxPiece := by decide
      rw [if_neg none, wp_bind]
      refine wp_mono (filewritePiece_appends devsw layout represents settled at_end none (by omega)) ?_ fun _ h => h
      intro result store after
      obtain ⟨file, length, written, recorded⟩ := after
      have accepts : ¬result.2.2 < 0 := by omega
      have whole : ¬result.2.2 ≠ ((min rest.length maxPiece : Nat) : Int) := fun other => other length
      have piece : (rest.take (min rest.length maxPiece)).length = min rest.length maxPiece := by
        rw [List.length_take]
        omega
      have left : (rest.drop (min rest.length maxPiece)).length = rest.length - min rest.length maxPiece :=
        List.length_drop
      have longer : (files k ++ rest.take (min rest.length maxPiece)).length =
          (files k).length + min rest.length maxPiece := by rw [List.length_append, piece]
      simp only [if_neg accepts, if_neg whole]
      have next : result.1.off = (Function.update files k (files k ++ rest.take (min rest.length maxPiece)) k).length := by
        rw [Function.update_self, longer, file, at_end]
      have roomLeft : (Function.update files k (files k ++ rest.take (min rest.length maxPiece)) k).length +
          (rest.drop (min rest.length maxPiece)).length ≤ (NDIRECT + NINDIRECT) * BSIZE := by
        rw [Function.update_self, longer, left]
        omega
      have later := ih written recorded next roomLeft (by omega)
      simp only [Function.update_self, Function.update_idem, List.append_assoc, List.take_append_drop] at later
      refine wp_mono later ?_ fun _ h => h
      intro final store' done
      obtain ⟨last, empty, represents'⟩ := done
      refine ⟨?_, empty, represents'⟩
      rw [last, file, left]
      have sum : f.off + min rest.length maxPiece + (rest.length - min rest.length maxPiece) = f.off + rest.length := by
        omega
      rw [sum]

/-- `filewrite` of one caller and one `writei` of its whole buffer have the same result. -/
theorem filewrite_writei (devsw : Devsw) (pipewrite : List UInt8 → Kernel Int) (layout : Layout sb nmeta)
    (represents : Represents sb nmeta s files) (settled : Settled true s.store) {f : WritableFile}
    (writable : f.writable = true) (type : f.type = .inode) (at_end : f.off = (files k).length) {buf : List UInt8}
    (room : (files k).length + buf.length ≤ (NDIRECT + NINDIRECT) * BSIZE)
    {f' : WritableFile} {ip ip' : Inode} {r r' : Int} {store store' : Store}
    (wrote : Store.exec (recording true) (filewrite sb devsw pipewrite f (s.inodes k) buf) s.store =
      .ok ((f', ip, r), store))
    (whole : Store.exec (recording true) (writei sb devsw (s.inodes k) buf f.off) s.store = .ok ((ip', r'), store')) :
    r = r' ∧ r = buf.length ∧ f' = { f with off := f.off + buf.length } ∧ ∃ files',
      Represents sb nmeta ⟨Function.update s.inodes k ip, store⟩ files' ∧
      Represents sb nmeta ⟨Function.update s.inodes k ip', store'⟩ files' := by
  have largest : (NDIRECT + NINDIRECT) * BSIZE < MAXFILE * BSIZE := by decide
  have bounded : MAXFILE * BSIZE < 2 ^ 31 := by decide
  have opened : ¬f.writable = false := by
    rw [writable]
    decide
  have accepted : Accepts (files k).length (files k).length buf.length := ⟨Nat.le_refl _, by omega, by omega⟩
  have off_fits : (files k).length < 2 ^ 32 := by omega
  have length_fits : buf.length < 2 ^ 32 := by omega
  have direct := writei_spec devsw layout represents off_fits length_fits accepted settled fun _ => room
  rw [splice_end, ← at_end] at direct
  obtain ⟨after, length, _⟩ := wp_ok direct whole
  have spec : wp (Store.handler (recording true)) (filewrite sb devsw pipewrite f (s.inodes k) buf)
      (fun result store => result.1 = { f with off := f.off + buf.length } ∧ result.2.2 = (buf.length : Int) ∧
        Represents sb nmeta ⟨Function.update s.inodes k result.2.1, store⟩ (Function.update files k (files k ++ buf)))
      outOfBlocks s.store := by
    rw [filewrite, if_neg opened, type]
    show wp _ (filewriteLoop sb devsw f (s.inodes k) buf buf.length >>= _) _ _ _
    rw [wp_bind]
    refine wp_mono (filewriteLoop_appends devsw layout represents settled at_end room (Nat.le_refl _)) ?_ fun _ h => h
    intro result store done
    obtain ⟨file, empty, represents'⟩ := done
    rw [wp_pure, empty, ← type]
    exact ⟨file, rfl, represents'⟩
  obtain ⟨file, result, represents'⟩ := wp_ok spec wrote
  exact ⟨result.trans length.symm, result, file, _, represents', after⟩

end Alone

/-! ## All callers -/

/-- In every interleaving of callers of `filewrite` at the end of a file that stays within the direct and single
indirect ranges, from a store without unrecorded changes: no change is left unrecorded; a caller can go on unless
there is no free block, it has returned once it has taken a step for each piece and one more, and it returns the
length of its buffer; the file is the old one with the pieces of all callers, those of each caller in the order of
its buffer; `f->off` is the size; and a caller alone has the result of one `writei`. -/
theorem shared_writes_append [DecidableEq ι] [DecidableEq κ] [Fintype κ] {sb : Superblock} {nmeta : Nat} {k : ι}
    {files : ι → List UInt8} {steps : List κ} {x y : Writers ι κ} (devsw : Devsw)
    (pipewrite : List UInt8 → Kernel Int) (layout : Layout sb nmeta) (represents : Represents sb nmeta x.fs files)
    (settled : ∀ b, x.fs.store.unlogged b = false) (writable : x.file.writable = true) (type : x.file.type = .inode)
    (at_end : x.file.off = (files k).length) (begun : ∀ c, x.i c = 0 ∧ x.result c = none)
    (room : (files k).length + ∑ c, (x.addr c).length ≤ (NDIRECT + NINDIRECT) * BSIZE) (run : Run (writes sb devsw k) x steps y) :
    (∀ b, y.fs.store.unlogged b = false) ∧
    (∀ c, y.result c = none → writersStep sb devsw k y c = .error (.panic "balloc: out of blocks") ∨
      ∃ z, writersStep sb devsw k y c = .ok z) ∧
    (∀ c pieces, (x.addr c).length ≤ maxPiece * pieces → pieces < steps.count c → y.result c ≠ none) ∧
    (∀ c r, y.result c = some r → r = (x.addr c).length) ∧
    (∃ pieces : List (κ × List UInt8),
      Represents sb nmeta y.fs (Function.update files k (files k ++ pieces.flatMap Prod.snd)) ∧
      y.file.off = (files k ++ pieces.flatMap Prod.snd).length ∧
      ∀ c, (pieces.filter fun piece => piece.1 = c).flatMap Prod.snd <+: x.addr c ∧
        (y.result c ≠ none → (pieces.filter fun piece => piece.1 = c).flatMap Prod.snd = x.addr c)) ∧
    ∀ c f' ip ip' r r' store store',
      Store.exec (recording true) (filewrite sb devsw pipewrite x.file (x.fs.inodes k) (x.addr c)) x.fs.store =
        .ok ((f', ip, r), store) →
      Store.exec (recording true) (writei sb devsw (x.fs.inodes k) (x.addr c) x.file.off) x.fs.store =
        .ok ((ip', r'), store') →
      r = r' ∧ r = (x.addr c).length ∧ f' = { x.file with off := x.file.off + (x.addr c).length } ∧ ∃ files',
        Represents sb nmeta ⟨Function.update x.fs.inodes k ip, store⟩ files' ∧
        Represents sb nmeta ⟨Function.update x.fs.inodes k ip', store'⟩ files' := by
  obtain ⟨pieces, appended⟩ := AppendsPieces.run devsw layout represents (fun _ => settled) at_end begun room run
  refine ⟨appended.settled rfl, fun c running => ?_, fun c m enough taken running => ?_, fun c r returned => (appended.returned c r returned).2,
    ⟨pieces, appended.fs, appended.off, fun c => ⟨?_, fun returned => ?_⟩⟩, ?_⟩
  · rcases appended.step devsw layout room running with full | ⟨z, _, stepped, _⟩
    · exact .inl full
    · exact .inr ⟨z, stepped⟩
  · exact absurd ((appended.running c running).2 m taken) (Nat.not_lt.mpr enough)
  · rw [appended.order c]
    exact List.take_prefix _ _
  · obtain ⟨r, returned⟩ := Option.ne_none_iff_exists'.mp returned
    rw [appended.order c, (appended.returned c r returned).1, List.take_length]
  · intro c f' ip ip' r r' store store' wrote whole
    have single : (x.addr c).length ≤ ∑ q, (x.addr q).length :=
      Finset.single_le_sum (f := fun q => (x.addr q).length) (fun _ _ => Nat.zero_le _) (Finset.mem_univ c)
    exact filewrite_writei devsw pipewrite layout represents (fun _ => settled) writable type at_end (by omega) wrote
      whole

/-- Two callers on the first of the two empty files. -/
def twoWriters : Writers (Fin 2) (Fin 2) where
  file := openBoth
  fs := smallState
  addr c := if c = 0 then [1, 2, 3] else [4]
  i _ := 0
  result _ := none

/-- What a step that does not stop leaves. -/
theorem writersStep_taken {stepped : Except Stop (Writers (Fin 2) (Fin 2))} (taken : stepped.isOk = true) :
    ∃ y, stepped = .ok y := by
  cases stepped with
  | error reason => contradiction
  | ok y => exact ⟨y, rfl⟩

/-- One step of the first caller. -/
theorem shared_writes_append_first : ∃ y, Run (writes smallSuperblock noDevices 0) twoWriters [(0 : Fin 2)] y ∧
    ∃ pieces : List (Fin 2 × List UInt8),
      Represents smallSuperblock 6 y.fs (Function.update (fun _ => []) 0 ([] ++ pieces.flatMap Prod.snd)) := by
  have taken : (writersStep smallSuperblock noDevices 0 twoWriters (0 : Fin 2)).isOk = true := by decide +kernel
  obtain ⟨y, stepped⟩ := writersStep_taken taken
  have run : Run (writes smallSuperblock noDevices 0) twoWriters [(0 : Fin 2)] y := .cons ⟨rfl, stepped⟩ (.nil y)
  obtain ⟨_, _, _, _, ⟨pieces, represents, _⟩, _⟩ := shared_writes_append noDevices (fun _ => pure (-1)) small_layout
    small_represents (fun _ => rfl) rfl rfl rfl (fun _ => ⟨rfl, rfl⟩) (by decide) run
  exact ⟨y, run, pieces, represents⟩

/-- Two empty files on a disk without a free block. -/
def fullState : FsState (Fin 2) where
  inodes k := emptyInode k.val
  store := Store.boot (fun b _ => if b = 5 then 255 else 0) smallLog

/-- On a full disk the first piece panics. -/
theorem shared_writes_full : Represents smallSuperblock 6 fullState (fun _ => []) ∧
    writersStep smallSuperblock noDevices 0 { twoWriters with fs := fullState } (0 : Fin 2) =
      .error (.panic "balloc: out of blocks") := by
  have meta_used : ∀ b, b < 6 → b < smallSuperblock.size → Used smallSuperblock fullState.store.blocks b := by
    unfold Used
    decide
  refine ⟨represents_empty (fun _ _ => rfl) (fun _ => rfl) (fun _ => rfl) (fun k => k.isLt) meta_used, ?_⟩
  have stopped : (match writersStep smallSuperblock noDevices 0 { twoWriters with fs := fullState } (0 : Fin 2) with
    | .error reason => decide (reason = .panic "balloc: out of blocks")
    | .ok _ => false) = true := by decide +kernel
  split at stopped
  · rename_i reason same
    rw [same, of_decide_eq_true stopped]
  · contradiction

end Xv6
