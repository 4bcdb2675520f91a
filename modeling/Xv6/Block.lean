import Mathlib.Data.List.GetD
import Mathlib.Data.Nat.Bitwise
import Mathlib.Tactic.Ring
import Mathlib.Tactic.NormNum

/-!
# Disk blocks

A block is its `BSIZE` bytes. The kernel reads the same bytes in three ways: as file content,
as an array of little-endian 32-bit words (index blocks, the log header, inode slots) and as
an array of bits (the free map). Each reading has its own update, and the laws here say what
an update does to the same reading.
-/

namespace Xv6

/-- `fs.h`: block size in bytes. -/
def BSIZE : Nat := 512

/-- The bytes of one block; `struct buf` holds them as `uchar data[BSIZE]`. -/
def Block : Type := Fin BSIZE → UInt8

namespace Block

/-- The block of `memset(data, 0, BSIZE)`. -/
def zero : Block := fun _ => 0

instance : Inhabited Block := ⟨zero⟩

/-- The byte at an offset; offsets past the end read as zero and are never used. -/
def byte (data : Block) (offset : Nat) : UInt8 :=
  if h : offset < BSIZE then data ⟨offset, h⟩ else 0

/-- Blocks with the same bytes are equal. -/
@[ext] theorem ext {left right : Block}
    (same : ∀ offset, offset < BSIZE → left.byte offset = right.byte offset) : left = right := by
  funext i
  have h := same i.val i.isLt
  simpa only [byte, i.isLt, ↓reduceDIte] using h

@[simp] theorem byte_zero (offset : Nat) : zero.byte offset = 0 := by
  simp [byte, zero]

/-- Build a block from a function of the offset. -/
def ofFn (f : Nat → UInt8) : Block := fun i => f i.val

theorem byte_ofFn (f : Nat → UInt8) {offset : Nat} (h : offset < BSIZE) :
    (ofFn f).byte offset = f offset := by
  simp [byte, ofFn, h]

/-! ## File content -/

/-- `memmove(data + offset, src, length)`. -/
def splice (data : Block) (offset : Nat) (src : List UInt8) : Block :=
  ofFn fun i => if offset ≤ i ∧ i < offset + src.length then src.getD (i - offset) 0 else data.byte i

/-- `memmove(dst, data + offset, length)`. -/
def extract (data : Block) (offset length : Nat) : List UInt8 :=
  (List.range length).map fun i => data.byte (offset + i)

@[simp] theorem extract_length (data : Block) (offset length : Nat) :
    (data.extract offset length).length = length := by
  simp [extract]

/-- A spliced byte is the source byte inside the range and the old byte outside. -/
theorem byte_splice (data : Block) (offset : Nat) (src : List UInt8) {i : Nat} (h : i < BSIZE) :
    (data.splice offset src).byte i =
      if offset ≤ i ∧ i < offset + src.length then src.getD (i - offset) 0 else data.byte i :=
  byte_ofFn _ h

/-! ## Words -/

/-- The number of words in a block, `BSIZE / sizeof(uint)`. -/
def words : Nat := BSIZE / 4

/-- `((uint*)data)[i]`, little-endian. -/
def word (data : Block) (i : Nat) : Nat :=
  (data.byte (4 * i)).toNat + 256 * (data.byte (4 * i + 1)).toNat +
    65536 * (data.byte (4 * i + 2)).toNat + 16777216 * (data.byte (4 * i + 3)).toNat

/-- `((uint*)data)[i] = value`, little-endian. -/
def setWord (data : Block) (i value : Nat) : Block :=
  ofFn fun k => if k / 4 = i then UInt8.ofNat (value / 256 ^ (k % 4)) else data.byte k

@[simp] theorem word_zero (i : Nat) : zero.word i = 0 := by
  simp [word]

/-- The block with given words, little-endian. -/
def ofWords (value : Nat → Nat) : Block :=
  ofFn fun k => UInt8.ofNat (value (k / 4) / 256 ^ (k % 4))

/-- The words of a block built from them. -/
theorem word_ofWords {value : Nat → Nat} {i : Nat} (inside : i < words) (fits : value i < 2 ^ 32) :
    (ofWords value).word i = value i := by
  have byte : ∀ k, k < 4 →
      ((ofWords value).byte (4 * i + k)).toNat = value i / 256 ^ k % 256 := by
    intro k small
    have bound : 4 * i + k < BSIZE := by
      simp only [words, BSIZE] at inside ⊢
      omega
    rw [ofWords, byte_ofFn _ bound, show (4 * i + k) / 4 = i by omega,
      show (4 * i + k) % 4 = k by omega]
    rfl
  have b0 := byte 0 (by decide)
  have b1 := byte 1 (by decide)
  have b2 := byte 2 (by decide)
  have b3 := byte 3 (by decide)
  rw [Nat.add_zero] at b0
  unfold word
  rw [b0, b1, b2, b3]
  norm_num
  omega

/-- Every word is an unsigned 32-bit number. -/
theorem word_lt (data : Block) (i : Nat) : data.word i < 2 ^ 32 := by
  have b0 := (data.byte (4 * i)).toNat_lt
  have b1 := (data.byte (4 * i + 1)).toNat_lt
  have b2 := (data.byte (4 * i + 2)).toNat_lt
  have b3 := (data.byte (4 * i + 3)).toNat_lt
  simp only [word]
  omega

/-- The bytes of the word that was stored. -/
theorem byte_setWord_same (data : Block) {i k : Nat} (value : Nat) (inside : i < words)
    (small : k < 4) :
    ((data.setWord i value).byte (4 * i + k)).toNat = value / 256 ^ k % 256 := by
  have bound : 4 * i + k < BSIZE := by
    simp only [words, BSIZE] at inside ⊢
    omega
  rw [setWord, byte_ofFn _ bound, if_pos (by omega : (4 * i + k) / 4 = i),
    show (4 * i + k) % 4 = k by omega]
  rfl

/-- The bytes of every other word stay. -/
theorem byte_setWord_ne (data : Block) {i offset : Nat} (value : Nat) (other : offset / 4 ≠ i) :
    (data.setWord i value).byte offset = data.byte offset := by
  by_cases h : offset < BSIZE
  · rw [setWord, byte_ofFn _ h, if_neg other]
  · simp [byte, h]

/-- A stored 32-bit word is read back. -/
theorem word_setWord_same (data : Block) {i value : Nat} (inside : i < words)
    (fits : value < 2 ^ 32) : (data.setWord i value).word i = value := by
  have b0 := byte_setWord_same data value inside (k := 0) (by decide)
  have b1 := byte_setWord_same data value inside (k := 1) (by decide)
  have b2 := byte_setWord_same data value inside (k := 2) (by decide)
  have b3 := byte_setWord_same data value inside (k := 3) (by decide)
  simp only [word]
  rw [show 4 * i = 4 * i + 0 by omega, b0, show 4 * i + 0 + 1 = 4 * i + 1 by omega, b1,
    show 4 * i + 0 + 2 = 4 * i + 2 by omega, b2, show 4 * i + 0 + 3 = 4 * i + 3 by omega, b3]
  norm_num
  omega

/-- Storing a word changes no other word. -/
theorem word_setWord_ne (data : Block) {i j : Nat} (value : Nat) (other : j ≠ i) :
    (data.setWord i value).word j = data.word j := by
  simp only [word]
  rw [byte_setWord_ne data value (by omega), byte_setWord_ne data value (by omega),
    byte_setWord_ne data value (by omega), byte_setWord_ne data value (by omega)]

/-! ## Bits -/

/-- `1 << (i % 8)`. -/
def mask (i : Nat) : UInt8 := 1 <<< UInt8.ofNat (i % 8)

/-- `(data[i/8] & (1 << (i % 8))) != 0`. -/
def bit (data : Block) (i : Nat) : Bool := data.byte (i / 8) &&& mask i != 0

/-- `data[i/8] |= 1 << (i % 8)`. -/
def setBit (data : Block) (i : Nat) : Block :=
  ofFn fun k => if k = i / 8 then data.byte k ||| mask i else data.byte k

/-- `data[i/8] &= ~(1 << (i % 8))`. -/
def clearBit (data : Block) (i : Nat) : Block :=
  ofFn fun k => if k = i / 8 then data.byte k &&& ~~~(mask i) else data.byte k

/-- The mask is the single bit `i % 8`. -/
theorem mask_toNat (i : Nat) : (mask i).toNat = 2 ^ (i % 8) := by
  have small : i % 8 < 8 := Nat.mod_lt _ (by decide)
  unfold mask
  rw [UInt8.toNat_shiftLeft, UInt8.toNat_ofNat', Nat.mod_eq_of_lt (show i % 8 < 2 ^ 8 by omega),
    Nat.mod_eq_of_lt small, show (1 : UInt8).toNat = 1 from rfl, Nat.one_shiftLeft]
  exact Nat.mod_eq_of_lt (Nat.pow_lt_pow_right (by decide) small)

/-- A masked byte is nonzero exactly when the bit is set. -/
theorem and_mask_ne_zero (value : UInt8) (i : Nat) :
    (value &&& mask i != 0) = value.toNat.testBit (i % 8) := by
  have image : (value &&& mask i).toNat =
      (value.toNat.testBit (i % 8)).toNat * 2 ^ (i % 8) := by
    rw [UInt8.toNat_and, mask_toNat, Nat.and_two_pow]
  rw [Bool.eq_iff_iff, bne_iff_ne, ne_eq, ← UInt8.toNat_inj, image]
  cases value.toNat.testBit (i % 8) <;> simp

/-- The bit reading in terms of the byte's number. -/
theorem bit_testBit (data : Block) (i : Nat) :
    data.bit i = (data.byte (i / 8)).toNat.testBit (i % 8) := and_mask_ne_zero _ _

@[simp] theorem bit_zero (i : Nat) : zero.bit i = false := by
  simp [bit_testBit]

/-- Setting a bit sets this bit and no other. -/
theorem bit_setBit (data : Block) {i j : Nat} (inside : j < 8 * BSIZE) :
    (data.setBit i).bit j = (decide (j = i) || data.bit j) := by
  have bound : j / 8 < BSIZE := by omega
  rw [bit_testBit, bit_testBit, setBit, byte_ofFn _ bound]
  by_cases same : j / 8 = i / 8
  · rw [if_pos same, UInt8.toNat_or, mask_toNat, Nat.testBit_or, Nat.testBit_two_pow]
    have equal : (i % 8 = j % 8) ↔ j = i := by omega
    by_cases h : j = i <;> simp [h, equal, Bool.or_comm]
  · rw [if_neg same]
    have other : j ≠ i := by rintro rfl; exact same rfl
    simp [other]

/-- Clearing a bit clears this bit and no other. -/
theorem bit_clearBit (data : Block) {i j : Nat} (inside : j < 8 * BSIZE) :
    (data.clearBit i).bit j = (decide (j ≠ i) && data.bit j) := by
  have bound : j / 8 < BSIZE := by omega
  rw [bit_testBit, bit_testBit, clearBit, byte_ofFn _ bound]
  by_cases same : j / 8 = i / 8
  · rw [if_pos same]
    have complement : (~~~(mask i)).toNat.testBit (j % 8) = decide (j ≠ i) := by
      have small : j % 8 < 8 := Nat.mod_lt _ (by decide)
      have equal : (i % 8 = j % 8) ↔ j = i := by omega
      rw [← UInt8.toNat_toBitVec, UInt8.toBitVec_not, BitVec.testBit_toNat,
        BitVec.getLsbD_not, ← BitVec.testBit_toNat, UInt8.toNat_toBitVec, mask_toNat,
        Nat.testBit_two_pow]
      simp [small, equal]
    rw [UInt8.toNat_and, Nat.testBit_and, complement, Bool.and_comm]
  · rw [if_neg same]
    have other : j ≠ i := by rintro rfl; exact same rfl
    simp [other]

end Block

end Xv6
