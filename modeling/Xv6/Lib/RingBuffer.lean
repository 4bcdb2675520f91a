import Mathlib.Data.Nat.ModEq
import Mathlib.Logic.Function.Basic

/-!
# Ring buffers with wrapping counters

A queue stored in a ring of cells between two counters that only grow, modulo a bound. A
counter names the cell of its remainder by the ring's size, so the size must divide the bound;
and full and empty are told apart by the difference of the counters, so the size must be below
the bound.
-/

namespace RingBuffer

variable {α : Type} {cells : Nat → α} {size modulus head tail : Nat} {queue : List α}

/-- The cells between the counters hold the queue, oldest first. -/
structure Holds (cells : Nat → α) (size modulus head tail : Nat) (queue : List α) : Prop where
  /-- The reading counter is reduced. -/
  head_lt : head < modulus
  /-- The writing counter is as far ahead as the queue is long. -/
  tail_eq : tail = (head + queue.length) % modulus
  /-- The queue fits in the ring. -/
  fits : queue.length ≤ size
  /-- Each element lies in the cell its counter names. -/
  stored : ∀ i, (inside : i < queue.length) → cells ((head + i) % modulus % size) = queue[i]

/-- A new ring holds nothing. -/
theorem Holds.empty (reduced : head < modulus) : Holds cells size modulus head head [] where
  head_lt := reduced
  tail_eq := by
    show head = (head + 0) % modulus
    rw [Nat.add_zero, Nat.mod_eq_of_lt reduced]
  fits := Nat.zero_le _
  stored := by
    intro i inside
    exact absurd inside (Nat.not_lt_zero i)

/-- The cell of a counter does not depend on how often the counter has wrapped. -/
theorem cell_of_wrapped (divides : size ∣ modulus) (count : Nat) :
    count % modulus % size = count % size := Nat.mod_mod_of_dvd count divides

/-- Counters that are ahead by less than the bound differ when the distances do. -/
theorem ahead_injective {a b : Nat} (left : a < modulus) (right : b < modulus)
    (same : (head + a) % modulus = (head + b) % modulus) : a = b := by
  have congruent : head + a ≡ head + b [MOD modulus] := same
  have distances : a ≡ b [MOD modulus] := Nat.ModEq.add_left_cancel' head congruent
  exact distances.eq_of_lt_of_lt left right

/-- The counters agree when the queue is empty, and only then. -/
theorem Holds.head_eq_tail (holds : Holds cells size modulus head tail queue) (small : size < modulus) :
    head = tail ↔ queue = [] := by
  have reduced : (head + 0) % modulus = head := by
    rw [Nat.add_zero, Nat.mod_eq_of_lt holds.head_lt]
  constructor
  · intro same
    have equal : (head + 0) % modulus = (head + queue.length) % modulus := by
      rw [reduced, ← holds.tail_eq]
      exact same
    have none : 0 = queue.length :=
      ahead_injective (by omega) (Nat.lt_of_le_of_lt holds.fits small) equal
    exact List.eq_nil_of_length_eq_zero none.symm
  · intro none
    rw [holds.tail_eq, none]
    exact reduced.symm

/-- The writing counter is a whole ring ahead when the queue fills the ring, and only then. -/
theorem Holds.tail_eq_full (holds : Holds cells size modulus head tail queue) (small : size < modulus) :
    tail = (head + size) % modulus ↔ queue.length = size := by
  constructor
  · intro same
    rw [holds.tail_eq] at same
    exact ahead_injective (Nat.lt_of_le_of_lt holds.fits small) small same
  · intro full
    rw [holds.tail_eq, full]

/-- Cells less than a ring apart are different. -/
theorem cell_ne {i j : Nat} (divides : size ∣ modulus) (apart : i < j) (near : j < size) :
    (head + i) % modulus % size ≠ (head + j) % modulus % size := by
  rw [cell_of_wrapped divides, cell_of_wrapped divides]
  intro same
  have equal : i = j := ahead_injective (Nat.lt_trans apart near) near same
  omega

/-- Writing a cell at the writing counter appends to a queue that does not fill the ring. -/
theorem Holds.push (holds : Holds cells size modulus head tail queue) (divides : size ∣ modulus)
    (room : queue.length < size) (x : α) :
    Holds (Function.update cells (tail % size) x) size modulus head ((tail + 1) % modulus) (queue ++ [x]) where
  head_lt := holds.head_lt
  tail_eq := by
    rw [holds.tail_eq, List.length_append, List.length_singleton, Nat.mod_add_mod, Nat.add_assoc]
  fits := by
    rw [List.length_append, List.length_singleton]
    omega
  stored := by
    intro i inside
    rw [List.length_append, List.length_singleton] at inside
    by_cases last : i = queue.length
    · subst last
      rw [holds.tail_eq, Function.update_self, List.getElem_concat_length rfl]
    · have earlier : i < queue.length := by omega
      have other : (head + i) % modulus % size ≠ tail % size := by
        rw [holds.tail_eq]
        exact cell_ne divides earlier room
      rw [Function.update_of_ne other, List.getElem_append_left earlier]
      exact holds.stored i earlier

/-- The reading counter names the cell of the oldest element. -/
theorem Holds.front {x : α} {rest : List α} (holds : Holds cells size modulus head tail (x :: rest)) :
    cells (head % size) = x := by
  have first := holds.stored 0 (Nat.zero_lt_succ _)
  rw [Nat.add_zero, Nat.mod_eq_of_lt holds.head_lt] at first
  exact first

/-- Advancing the reading counter drops the oldest element. -/
theorem Holds.pop {x : α} {rest : List α} (holds : Holds cells size modulus head tail (x :: rest)) :
    Holds cells size modulus ((head + 1) % modulus) tail rest where
  head_lt := Nat.mod_lt _ (Nat.zero_lt_of_lt holds.head_lt)
  tail_eq := by
    rw [holds.tail_eq, List.length_cons, Nat.mod_add_mod, Nat.add_assoc, Nat.add_comm 1]
  fits := Nat.le_of_succ_le holds.fits
  stored := by
    intro i inside
    have next := holds.stored (i + 1) (Nat.succ_lt_succ inside)
    rw [Nat.mod_add_mod, Nat.add_assoc, Nat.add_comm 1]
    exact next

/-- One step back from a counter that is ahead. -/
theorem back_one (positive : 0 < modulus) (ahead : Nat) :
    ((head + (ahead + 1)) % modulus + modulus - 1) % modulus = (head + ahead) % modulus := by
  have wraps : (head + (ahead + 1)) % modulus + modulus - 1 + 1 ≡ head + ahead + 1 [MOD modulus] := by
    rw [Nat.sub_add_cancel (by omega)]
    show ((head + (ahead + 1)) % modulus + modulus) % modulus = _
    rw [Nat.add_mod_right, Nat.mod_mod, Nat.add_assoc]
  exact Nat.ModEq.add_right_cancel' 1 wraps

/-- The cell before the writing counter holds the newest element. -/
theorem Holds.back {x : α} (holds : Holds cells size modulus head tail (queue ++ [x])) :
    cells ((tail + modulus - 1) % modulus % size) = x := by
  have last := holds.stored queue.length (by simp)
  rw [holds.tail_eq, List.length_append, List.length_singleton,
    back_one (Nat.zero_lt_of_lt holds.head_lt), last]
  simp

/-- Taking the writing counter back drops the newest element. -/
theorem Holds.unpush {x : α} (holds : Holds cells size modulus head tail (queue ++ [x])) :
    Holds cells size modulus head ((tail + modulus - 1) % modulus) queue where
  head_lt := holds.head_lt
  tail_eq := by
    rw [holds.tail_eq, List.length_append, List.length_singleton,
      back_one (Nat.zero_lt_of_lt holds.head_lt)]
  fits := by
    have fits := holds.fits
    rw [List.length_append] at fits
    omega
  stored := by
    intro i inside
    rw [holds.stored i (by simp; omega), List.getElem_append_left inside]

/-- A counter in the middle ends the first part of the queue. -/
theorem Holds.before {first second : List α}
    (holds : Holds cells size modulus head tail (first ++ second)) :
    Holds cells size modulus head ((head + first.length) % modulus) first where
  head_lt := holds.head_lt
  tail_eq := rfl
  fits := by
    have fits := holds.fits
    rw [List.length_append] at fits
    omega
  stored := by
    intro i inside
    rw [holds.stored i (by simp; omega), List.getElem_append_left inside]

/-- A counter in the middle begins the second part of the queue. -/
theorem Holds.after {first second : List α}
    (holds : Holds cells size modulus head tail (first ++ second)) :
    Holds cells size modulus ((head + first.length) % modulus) tail second where
  head_lt := Nat.mod_lt _ (Nat.zero_lt_of_lt holds.head_lt)
  tail_eq := by
    rw [holds.tail_eq, List.length_append, Nat.mod_add_mod, Nat.add_assoc]
  fits := by
    have fits := holds.fits
    rw [List.length_append] at fits
    omega
  stored := by
    intro i inside
    have whole := holds.stored (first.length + i) (by simp; omega)
    rw [Nat.mod_add_mod, Nat.add_assoc, whole,
      List.getElem_append_right (Nat.le_add_right _ _)]
    congr 1
    omega

/-- The elements between two counters, oldest first. -/
def contents (cells : Nat → α) (size modulus head tail : Nat) : List α :=
  (List.range ((tail + modulus - head) % modulus)).map fun i => cells ((head + i) % modulus % size)

/-- The difference of the counters is the number of elements. -/
theorem Holds.length_eq (holds : Holds cells size modulus head tail queue) (small : size < modulus) :
    (tail + modulus - head) % modulus = queue.length := by
  have positive : 0 < modulus := Nat.zero_lt_of_lt holds.head_lt
  have tailReduced : tail < modulus := by
    rw [holds.tail_eq]
    exact Nat.mod_lt _ positive
  have distance : (head + (tail + modulus - head) % modulus) % modulus = (head + queue.length) % modulus := by
    have cancel : head + (tail + modulus - head) = tail + modulus := by
      have bound := holds.head_lt
      omega
    rw [Nat.add_mod_mod, cancel, Nat.add_mod_right, Nat.mod_eq_of_lt tailReduced]
    exact holds.tail_eq
  exact ahead_injective (Nat.mod_lt _ positive) (Nat.lt_of_le_of_lt holds.fits small) distance

/-- A ring that holds a queue has that queue as its contents. -/
theorem Holds.contents_eq (holds : Holds cells size modulus head tail queue) (small : size < modulus) :
    contents cells size modulus head tail = queue := by
  apply List.ext_getElem
  · rw [contents, List.length_map, List.length_range, holds.length_eq small]
  · intro i _ inside
    simp only [contents, List.getElem_map, List.getElem_range]
    exact holds.stored i inside

end RingBuffer
