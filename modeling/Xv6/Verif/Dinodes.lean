import Xv6.Fs
import Mathlib.Data.List.FinRange

/-!
# Inode slots

An inode block holds `IPB` inodes in slots of sixteen words. What `iupdate` stores in a slot is
what `ilock` reads from it, and no other slot changes.
-/

namespace Xv6

/-- The fields of an inode fit those of `struct dinode`. -/
structure Inode.Fits (ip : Inode) : Prop where
  /-- `short type`. -/
  type : -32768 ≤ ip.type ∧ ip.type < 32768
  /-- `short major`. -/
  major : -32768 ≤ ip.major ∧ ip.major < 32768
  /-- `short minor`. -/
  minor : -32768 ≤ ip.minor ∧ ip.minor < 32768
  /-- `short nlink`. -/
  nlink : -32768 ≤ ip.nlink ∧ ip.nlink < 32768
  /-- `uint size`. -/
  size : ip.size < 2 ^ 32
  /-- `uint addrs[]`. -/
  addrs : ∀ i, ip.addrs i < 2 ^ 32

/-- The bits of a `short` are sixteen. -/
theorem shortBits_lt (value : Int) : shortBits value < 65536 := by
  unfold shortBits
  omega

/-- A `short` is read back from its bits. -/
theorem toShort_shortBits {value : Int} (fits : -32768 ≤ value ∧ value < 32768) :
    toShort (shortBits value) = value := by
  unfold toShort shortBits
  split <;> omega

/-- A `short` is a `short`. -/
theorem toShort_fits {bits : Nat} (small : bits < 65536) :
    -32768 ≤ toShort bits ∧ toShort bits < 32768 := by
  unfold toShort
  split <;> omega

/-- What is read from a slot fits one. -/
theorem getDinode_fits (inum : Nat) (data : Block) : (getDinode inum data).Fits where
  type := toShort_fits (Nat.mod_lt _ (by decide))
  major := toShort_fits (Nat.div_lt_of_lt_mul (data.word_lt _))
  minor := toShort_fits (Nat.mod_lt _ (by decide))
  nlink := toShort_fits (Nat.div_lt_of_lt_mul (data.word_lt _))
  size := data.word_lt _
  addrs _ := data.word_lt _

/-- The loop over `addrs` leaves every word alone that is no address of the slot. -/
theorem word_storeAddrs_ne (addrs : Fin (NDIRECT + 3) → Nat) (base j : Nat)
    (list : List (Fin (NDIRECT + 3))) (data : Block) (apart : ∀ i ∈ list, j ≠ base + i.val) :
    (list.foldl (fun data i => data.setWord (base + i.val) (addrs i)) data).word j = data.word j := by
  induction list generalizing data with
  | nil => rfl
  | cons i rest ih =>
    rw [List.foldl_cons, ih _ fun k member => apart k (List.mem_cons_of_mem _ member)]
    exact data.word_setWord_ne _ (apart i List.mem_cons_self)

/-- The loop over `addrs` stores each address at its word. -/
theorem word_storeAddrs {addrs : Fin (NDIRECT + 3) → Nat} (fits : ∀ i, addrs i < 2 ^ 32) {base : Nat}
    {list : List (Fin (NDIRECT + 3))} (distinct : list.Nodup) (data : Block) {i : Fin (NDIRECT + 3)}
    (member : i ∈ list) (inside : base + i.val < Block.words) :
    (list.foldl (fun data i => data.setWord (base + i.val) (addrs i)) data).word (base + i.val) =
      addrs i := by
  induction list generalizing data with
  | nil => exact absurd member List.not_mem_nil
  | cons k rest ih =>
    obtain ⟨fresh, distinct⟩ := List.nodup_cons.mp distinct
    rw [List.foldl_cons]
    by_cases later : i ∈ rest
    · exact ih distinct _ later
    · have here : i = k := (List.mem_cons.mp member).resolve_right later
      subst here
      have apart : ∀ k ∈ rest, base + i.val ≠ base + k.val := by
        intro k below same
        have equal : i = k := Fin.ext (Nat.add_left_cancel same)
        rw [equal] at later
        exact later below
      rw [word_storeAddrs_ne addrs base _ rest _ apart]
      exact data.word_setWord_same inside (fits i)

/-- The words of a slot lie in its block. -/
theorem slot_word_lt {inum i : Nat} (small : i < 16) : 16 * (inum % IPB) + i < Block.words := by
  have slot : inum % IPB < IPB := Nat.mod_lt _ (by decide)
  simp only [IPB, Block.words, BSIZE] at slot ⊢
  omega

/-- A word outside a slot stays when the slot is written. -/
theorem word_putDinode_ne (ip : Inode) (data : Block) {j : Nat}
    (outside : j < 16 * (ip.inum % IPB) ∨ 16 * (ip.inum % IPB) + 16 ≤ j) :
    (putDinode ip data).word j = data.word j := by
  unfold putDinode
  dsimp only
  rw [word_storeAddrs_ne ip.addrs (16 * (ip.inum % IPB) + 3) j]
  · rw [Block.word_setWord_ne _ _ (by omega), Block.word_setWord_ne _ _ (by omega),
      Block.word_setWord_ne _ _ (by omega)]
  · intro i _
    have small := i.isLt
    simp only [NDIRECT] at small
    omega

/-- The words of a slot after it is written. -/
theorem word_putDinode {ip : Inode} (fits : ip.Fits) (data : Block) :
    (putDinode ip data).word (16 * (ip.inum % IPB)) = shortBits ip.type + 65536 * shortBits ip.major ∧
      (putDinode ip data).word (16 * (ip.inum % IPB) + 1) =
        shortBits ip.minor + 65536 * shortBits ip.nlink ∧
      (putDinode ip data).word (16 * (ip.inum % IPB) + 2) = ip.size ∧
      ∀ i, (putDinode ip data).word (16 * (ip.inum % IPB) + 3 + i.val) = ip.addrs i := by
  have type := shortBits_lt ip.type
  have major := shortBits_lt ip.major
  have minor := shortBits_lt ip.minor
  have nlink := shortBits_lt ip.nlink
  have apart : ∀ j, j < 16 * (ip.inum % IPB) + 3 → ∀ i ∈ List.finRange (NDIRECT + 3),
      j ≠ 16 * (ip.inum % IPB) + 3 + i.val := by
    intro j low i _
    omega
  unfold putDinode
  dsimp only
  refine ⟨?_, ?_, ?_, ?_⟩
  · rw [word_storeAddrs_ne _ _ _ _ _ (apart _ (by omega)), Block.word_setWord_ne _ _ (by omega),
      Block.word_setWord_ne _ _ (by omega)]
    exact Block.word_setWord_same _ (slot_word_lt (i := 0) (by decide)) (by omega)
  · rw [word_storeAddrs_ne _ _ _ _ _ (apart _ (by omega)), Block.word_setWord_ne _ _ (by omega)]
    exact Block.word_setWord_same _ (slot_word_lt (by decide)) (by omega)
  · rw [word_storeAddrs_ne _ _ _ _ _ (apart _ (by omega))]
    exact Block.word_setWord_same _ (slot_word_lt (by decide)) fits.size
  · intro i
    have small := i.isLt
    simp only [NDIRECT] at small
    apply word_storeAddrs fits.addrs (List.nodup_finRange _) _ (List.mem_finRange i)
    rw [Nat.add_assoc]
    exact slot_word_lt (by omega)

/-- What is stored in a slot is read back from it. -/
theorem getDinode_putDinode {ip : Inode} (fits : ip.Fits) (data : Block) :
    getDinode ip.inum (putDinode ip data) = ip := by
  obtain ⟨first, second, size, addrs⟩ := word_putDinode fits data
  have type := shortBits_lt ip.type
  have minor := shortBits_lt ip.minor
  unfold getDinode
  rw [first, second, size]
  have low : ∀ a b : Nat, a < 65536 → (a + 65536 * b) % 65536 = a := by
    intro a b small
    omega
  have high : ∀ a b : Nat, a < 65536 → (a + 65536 * b) / 65536 = b := by
    intro a b small
    omega
  rw [low _ _ type, high _ _ type, low _ _ minor, high _ _ minor, toShort_shortBits fits.type,
    toShort_shortBits fits.major, toShort_shortBits fits.minor, toShort_shortBits fits.nlink]
  simp only [addrs]

/-- Storing in a slot changes no other slot of its block. -/
theorem getDinode_putDinode_ne (ip : Inode) (data : Block) {inum : Nat}
    (other : inum % IPB ≠ ip.inum % IPB) :
    getDinode inum (putDinode ip data) = getDinode inum data := by
  have same : ∀ i, i < 16 → (putDinode ip data).word (16 * (inum % IPB) + i) =
      data.word (16 * (inum % IPB) + i) := by
    intro i small
    apply word_putDinode_ne
    omega
  have first := same 0 (by decide)
  rw [Nat.add_zero] at first
  unfold getDinode
  rw [first, same 1 (by decide), same 2 (by decide)]
  congr 1
  funext i
  have small := i.isLt
  simp only [NDIRECT] at small
  rw [Nat.add_assoc]
  exact same _ (by omega)

/-- Two inode numbers in one slot of one block are equal. -/
theorem inum_eq_of_slot {sb : Superblock} {i j : Nat} (block : IBLOCK i sb = IBLOCK j sb)
    (slot : i % IPB = j % IPB) : i = j := by
  have high : i / IPB = j / IPB := Nat.add_right_cancel block
  rw [← Nat.div_add_mod i IPB, ← Nat.div_add_mod j IPB, high, slot]

end Xv6
