import Xv6.MemMove

/-!
# Overlapping moves

What the two copying loops leave behind. Copying downwards moves a range that lies below its
target and copying upwards one that lies above it. Copying upwards into a target that starts
inside the source reads back the bytes it has written, so it repeats the first bytes of the
source over the whole target.
-/

namespace Xv6

/-! ## Single bytes -/

/-- The stored byte is read back. -/
@[simp] theorem Bytes.store_same (m : Bytes) (addr : Nat) (b : UInt8) : m.store addr b addr = b := by
  simp [Bytes.store]

/-- Every other byte is as before. -/
theorem Bytes.store_other (m : Bytes) {addr a : Nat} (b : UInt8) (different : a ≠ addr) :
    m.store addr b a = m a := by
  simp [Bytes.store, different]

/-- Inside of the address space the addition is exact. -/
theorem add32_small {p n : Nat} (fits : p + n < 2 ^ 32) : add32 p n = p + n :=
  Nat.mod_eq_of_lt fits

/-- The pointer before the end of a nonempty range, also when the end is the end of memory. -/
theorem before32_add32 {p n : Nat} (fits : p + (n + 1) ≤ 2 ^ 32) :
    before32 (add32 p (n + 1)) = p + n := by
  unfold before32 add32
  omega

/-! ## Copying upwards -/

/-- One round of the upward loop. -/
theorem copyUp_succ (m : Bytes) {d s n : Nat} (target : d + (n + 1) ≤ 2 ^ 32)
    (source : s + (n + 1) ≤ 2 ^ 32) :
    copyUp m d s (n + 1) = copyUp (m.store d (m s)) (d + 1) (s + 1) n := by
  cases n with
  | zero => rfl
  | succ n =>
    have targetNext : add32 d 1 = d + 1 := add32_small (by omega)
    have sourceNext : add32 s 1 = s + 1 := add32_small (by omega)
    rw [copyUp, targetNext, sourceNext]

/-- The upward loop changes the target range alone. -/
theorem copyUp_outside {n : Nat} (m : Bytes) {d s a : Nat} (target : d + n ≤ 2 ^ 32)
    (source : s + n ≤ 2 ^ 32) (outside : a < d ∨ d + n ≤ a) : copyUp m d s n a = m a := by
  induction n generalizing m d s with
  | zero => rfl
  | succ n step =>
    rw [copyUp_succ m target source, step _ (by omega) (by omega) (by omega)]
    apply Bytes.store_other
    omega

/-- A target that does not start above the source gets every byte of the source. -/
theorem copyUp_below {n : Nat} (m : Bytes) {d s j : Nat} (target : d + n ≤ 2 ^ 32)
    (source : s + n ≤ 2 ^ 32) (below : d ≤ s) (inside : j < n) :
    copyUp m d s n (d + j) = m (s + j) := by
  induction n generalizing m d s j with
  | zero => omega
  | succ n step =>
    rw [copyUp_succ m target source]
    cases j with
    | zero =>
      rw [copyUp_outside _ (by omega) (by omega) (by omega)]
      simp
    | succ j =>
      have moved := step (m.store d (m s)) (d := d + 1) (s := s + 1) (j := j)
        (by omega) (by omega) (by omega) (by omega)
      rw [show d + (j + 1) = d + 1 + j by omega, moved, Bytes.store_other _ _ (by omega)]
      rw [show s + (j + 1) = s + 1 + j by omega]

/-- A position after one at the end of a period starts the period again. -/
theorem succ_mod_period {k p : Nat} (positive : 0 < p) :
    (k + 1) % p = if k % p + 1 = p then 0 else k % p + 1 := by
  have small := Nat.mod_lt k positive
  rw [Nat.add_mod]
  by_cases single : p = 1
  · subst single
    simp [Nat.mod_one]
  · rw [Nat.mod_eq_of_lt (show 1 < p by omega)]
    by_cases wraps : k % p + 1 = p
    · rw [if_pos wraps, wraps, Nat.mod_self]
    · rw [if_neg wraps, Nat.mod_eq_of_lt (by omega)]

/-- A target that starts above the source gets the bytes before it over and over. -/
theorem copyUp_above {n : Nat} (m : Bytes) {d s j : Nat} (target : d + n ≤ 2 ^ 32)
    (source : s + n ≤ 2 ^ 32) (above : s < d) (inside : j < n) :
    copyUp m d s n (d + j) = m (s + j % (d - s)) := by
  induction n generalizing m d s j with
  | zero => omega
  | succ n step =>
    rw [copyUp_succ m target source]
    cases j with
    | zero =>
      rw [copyUp_outside _ (by omega) (by omega) (by omega)]
      simp
    | succ j =>
      have moved := step (m.store d (m s)) (d := d + 1) (s := s + 1) (j := j)
        (by omega) (by omega) (by omega) (by omega)
      have small := Nat.mod_lt j (show 0 < d - s by omega)
      rw [show d + (j + 1) = d + 1 + j by omega, moved, Nat.add_sub_add_right,
        succ_mod_period (show 0 < d - s by omega)]
      by_cases wraps : j % (d - s) + 1 = d - s
      · -- The byte read here is the one this round has written.
        rw [if_pos wraps, show s + 1 + j % (d - s) = d by omega]
        simp
      · rw [if_neg wraps, Bytes.store_other _ _ (by omega)]
        rw [show s + 1 + j % (d - s) = s + (j % (d - s) + 1) by omega]

/-! ## Copying downwards -/

/-- One round of the downward loop. -/
theorem copyDown_succ (m : Bytes) {d s n : Nat} (target : d + (n + 1) ≤ 2 ^ 32)
    (source : s + (n + 1) ≤ 2 ^ 32) :
    copyDown m (add32 d (n + 1)) (add32 s (n + 1)) (n + 1) =
      copyDown (m.store (d + n) (m (s + n))) (add32 d n) (add32 s n) n := by
  rw [copyDown, before32_add32 target, before32_add32 source, add32_small (by omega),
    add32_small (by omega)]

/-- The downward loop changes the target range alone. -/
theorem copyDown_outside {n : Nat} (m : Bytes) {d s a : Nat} (target : d + n ≤ 2 ^ 32)
    (source : s + n ≤ 2 ^ 32) (outside : a < d ∨ d + n ≤ a) :
    copyDown m (add32 d n) (add32 s n) n a = m a := by
  induction n generalizing m with
  | zero => rfl
  | succ n step =>
    rw [copyDown_succ m target source, step _ (by omega) (by omega) (by omega)]
    apply Bytes.store_other
    omega

/-- A target that starts above the source gets every byte of the source. -/
theorem copyDown_above {n : Nat} (m : Bytes) {d s j : Nat} (target : d + n ≤ 2 ^ 32)
    (source : s + n ≤ 2 ^ 32) (above : s < d) (inside : j < n) :
    copyDown m (add32 d n) (add32 s n) n (d + j) = m (s + j) := by
  induction n generalizing m with
  | zero => omega
  | succ n step =>
    rw [copyDown_succ m target source]
    by_cases last : j = n
    · subst last
      rw [copyDown_outside _ (by omega) (by omega) (by omega)]
      simp
    · rw [step _ (by omega) (by omega) (by omega)]
      apply Bytes.store_other
      omega

/-! ## The two functions -/

/-- `m'` is `m` with the `n` bytes at `src` moved to `dst`. -/
structure Moved (m : Bytes) (dst src n : Nat) (m' : Bytes) : Prop where
  /-- The target holds what the source held. -/
  bytes : ∀ j < n, m' (dst + j) = m (src + j)
  /-- All other bytes are unchanged. -/
  frame : ∀ a, a < dst ∨ dst + n ≤ a → m' a = m a

/-- There is one such memory. -/
theorem Moved.unique {m : Bytes} {dst src n : Nat} {m₁ m₂ : Bytes} (left : Moved m dst src n m₁)
    (right : Moved m dst src n m₂) : m₁ = m₂ := by
  funext a
  by_cases outside : a < dst ∨ dst + n ≤ a
  · rw [left.frame a outside, right.frame a outside]
  · have inside : a - dst < n := by omega
    have position : a = dst + (a - dst) := by omega
    rw [position, left.bytes _ inside, right.bytes _ inside]

/-- The kernel's `memmove` moves the bytes, overlapping or not. -/
theorem StringC.memmove_moved (m : Bytes) {dst src n : Nat} (source : src + n ≤ 2 ^ 32)
    (target : dst + n ≤ 2 ^ 32) : Moved m dst src n (StringC.memmove m dst src n).1 := by
  unfold StringC.memmove
  by_cases down : src < dst ∧ dst < add32 src n
  · rw [if_pos down]
    constructor
    · intro j inside
      exact copyDown_above m target source down.1 inside
    · intro a outside
      exact copyDown_outside m target source outside
  · rw [if_neg down]
    change Moved m dst src n (copyUp m dst src n)
    constructor
    · intro j inside
      by_cases above : src < dst
      · -- Neither range ends beyond memory, so the source ends below the target.
        have sourceEnd : add32 src n = src + n := add32_small (by omega)
        have apart : src + n ≤ dst := by
          rw [sourceEnd] at down
          omega
        rw [copyUp_above m target source above inside, Nat.mod_eq_of_lt (by omega)]
      · exact copyUp_below m target source (by omega) inside
    · intro a outside
      exact copyUp_outside m target source outside

/-- The `n` bytes at `s` repeat the first `period` of them. -/
def Repeats (m : Bytes) (s period n : Nat) : Prop := ∀ j < n, m (s + j) = m (s + j % period)

/-- The arguments on which the user library's `memmove` moves the bytes: a length that is
positive as a signed number, and a target that does not start inside the source, unless the
source repeats itself at that distance; or a longer length and a target equal to the source
already. -/
def Ulib.Movable (m : Bytes) (dst src n : Nat) : Prop :=
  if n < 2 ^ 31 then src < dst → dst < src + n → Repeats m src (dst - src) n
  else ∀ j < n, m (dst + j) = m (src + j)

/-- The user library's `memmove` moves the bytes on exactly these arguments. -/
theorem Ulib.memmove_moved_iff (m : Bytes) {dst src n : Nat} (source : src + n ≤ 2 ^ 32)
    (target : dst + n ≤ 2 ^ 32) (word : n < 2 ^ 32) :
    Moved m dst src n (Ulib.memmove m dst src (signed32 n)).1 ↔ Ulib.Movable m dst src n := by
  unfold Ulib.memmove Ulib.Movable signed32
  by_cases positive : n < 2 ^ 31
  · rw [if_pos positive, if_pos positive, Int.toNat_natCast]
    change Moved m dst src n (copyUp m dst src n) ↔ _
    constructor
    · intro moved above inside j bound
      rw [← moved.bytes j bound, copyUp_above m target source above bound]
    · intro repeats
      constructor
      · intro j bound
        by_cases above : src < dst
        · rw [copyUp_above m target source above bound]
          by_cases overlap : dst < src + n
          · exact (repeats above overlap j bound).symm
          · rw [Nat.mod_eq_of_lt (by omega)]
        · exact copyUp_below m target source (by omega) bound
      · intro a outside
        exact copyUp_outside m target source outside
  · rw [if_neg positive, if_neg positive, Int.toNat_of_nonpos (by omega)]
    constructor
    · intro moved
      exact moved.bytes
    · intro same
      exact ⟨same, fun a outside => rfl⟩

/-- Both `memmove` functions move the bytes, and agree, on exactly the arguments that the user
library's can move. -/
theorem memmove_moves_iff (m : Bytes) (dst src n : Nat) (source : src + n ≤ 2 ^ 32)
    (target : dst + n ≤ 2 ^ 32) (word : n < 2 ^ 32) :
    (Moved m dst src n (StringC.memmove m dst src n).1 ∧
      Moved m dst src n (Ulib.memmove m dst src (signed32 n)).1 ∧
      StringC.memmove m dst src n = Ulib.memmove m dst src (signed32 n)) ↔
      Ulib.Movable m dst src n := by
  have kernel := StringC.memmove_moved m source target
  rw [← Ulib.memmove_moved_iff m source target word]
  constructor
  · intro both
    exact both.2.1
  · intro user
    have memories := kernel.unique user
    have pointers : (StringC.memmove m dst src n).2 = dst := by
      unfold StringC.memmove
      split <;> rfl
    exact ⟨kernel, user, Prod.ext memories pointers⟩

/-- The equivalence at two ranges that do not overlap. -/
theorem memmove_moves_iff_apart :
    let m : Bytes := fun a => UInt8.ofNat a
    (Moved m 104 100 4 (StringC.memmove m 104 100 4).1 ∧
      Moved m 104 100 4 (Ulib.memmove m 104 100 (signed32 4)).1 ∧
      StringC.memmove m 104 100 4 = Ulib.memmove m 104 100 (signed32 4)) ↔
      Ulib.Movable m 104 100 4 :=
  memmove_moves_iff _ 104 100 4 (by decide) (by decide) (by decide)

/-- Moving three bytes up by one in a user program writes the first of them three times. -/
theorem user_memmove_overwrites_source :
    ¬ ∀ (m : Bytes) (dst src n : Nat), src + n ≤ 2 ^ 32 → dst + n ≤ 2 ^ 32 → n < 2 ^ 32 →
      Moved m dst src n (StringC.memmove m dst src n).1 ∧
      Moved m dst src n (Ulib.memmove m dst src (signed32 n)).1 ∧
      StringC.memmove m dst src n = Ulib.memmove m dst src (signed32 n) := by
  intro always
  obtain ⟨_, user, _⟩ := always (fun a => UInt8.ofNat a) 101 100 3 (by decide) (by decide)
    (by decide)
  have second := user.bytes 1 (by decide)
  revert second
  decide

end Xv6
