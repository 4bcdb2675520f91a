import Mathlib.Logic.Function.Basic

/-!
# Sequences of atomic writes

The effect of a list of single-cell writes on a memory, in order. A cell no write names keeps
its value; a cell whose writes all carry one value holds it as soon as one of them is done.
-/

namespace Writes

variable {κ β : Type} [DecidableEq κ]

/-- Carry out the writes in order. -/
def apply (memory : κ → β) (writes : List (κ × β)) : κ → β :=
  writes.foldl (fun memory write => Function.update memory write.1 write.2) memory

/-- No write. -/
@[simp] theorem apply_nil (memory : κ → β) : apply memory [] = memory := rfl

/-- The first write goes before the others. -/
theorem apply_cons (memory : κ → β) (write : κ × β) (rest : List (κ × β)) :
    apply memory (write :: rest) = apply (Function.update memory write.1 write.2) rest := rfl

/-- One list of writes after the other. -/
theorem apply_append (memory : κ → β) (before after : List (κ × β)) :
    apply memory (before ++ after) = apply (apply memory before) after := List.foldl_append

/-- A last write. -/
theorem apply_snoc (memory : κ → β) (before : List (κ × β)) (cell : κ) (value : β) :
    apply memory (before ++ [(cell, value)]) = Function.update (apply memory before) cell value := by
  rw [apply_append]
  rfl

/-- A cell that no write names keeps its value. -/
theorem apply_other {memory : κ → β} {writes : List (κ × β)} {cell : κ}
    (other : ∀ write ∈ writes, write.1 ≠ cell) : apply memory writes cell = memory cell := by
  induction writes generalizing memory with
  | nil => rfl
  | cons write rest ih =>
    have apart := other write List.mem_cons_self
    rw [apply_cons, ih fun w member => other w (List.mem_cons_of_mem _ member),
      Function.update_of_ne (Ne.symm apart)]

/-- A cell whose writes all carry one value holds this value once it is written. -/
theorem apply_same {memory : κ → β} {writes : List (κ × β)} {cell : κ} {value : β}
    (same : ∀ write ∈ writes, write.1 = cell → write.2 = value) :
    apply memory writes cell = value ∨
      (apply memory writes cell = memory cell ∧ ∀ write ∈ writes, write.1 ≠ cell) := by
  induction writes generalizing memory with
  | nil => exact .inr ⟨rfl, fun _ member => absurd member List.not_mem_nil⟩
  | cons write rest ih =>
    have later := @ih (Function.update memory write.1 write.2)
      fun w member => same w (List.mem_cons_of_mem _ member)
    rw [apply_cons]
    rcases later with written | ⟨kept, others⟩
    · exact .inl written
    · by_cases here : write.1 = cell
      · have stored := same write List.mem_cons_self here
        refine .inl ?_
        rw [kept, ← here, Function.update_self, stored]
      · refine .inr ⟨by rw [kept, Function.update_of_ne (Ne.symm here)], ?_⟩
        intro w member
        rcases List.mem_cons.mp member with rfl | later
        · exact here
        · exact others w later

omit [DecidableEq κ] in
/-- A prefix of the writes of two lists is a prefix of the first or runs into the second. -/
theorem take_append_cases (before after : List (κ × β)) (k : Nat) :
    (k ≤ before.length ∧ (before ++ after).take k = before.take k) ∨
      (before.length < k ∧ (before ++ after).take k = before ++ after.take (k - before.length)) := by
  rcases Nat.lt_or_ge before.length k with longer | shorter
  · refine .inr ⟨longer, ?_⟩
    rw [List.take_append, List.take_of_length_le (Nat.le_of_lt longer)]
  · refine .inl ⟨shorter, ?_⟩
    rw [List.take_append_of_le_length shorter]

end Writes
