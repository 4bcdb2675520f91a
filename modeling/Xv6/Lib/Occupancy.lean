import Mathlib.Data.Fintype.Card

/-!
# Occupancy of a table

How many places of a finite table are taken, what taking or releasing one place changes, and
when a free place is left among some of them.
-/

namespace Occupancy

variable {ι κ : Type} [Fintype ι] [Fintype κ]

/-- How many places are taken. -/
def count (taken : ι → Prop) [DecidablePred taken] : Nat := (Finset.univ.filter taken).card

section Counting

variable {taken after : ι → Prop} [DecidablePred taken] [DecidablePred after]

/-- The same places are taken. -/
theorem count_congr (same : ∀ i, after i ↔ taken i) : count after = count taken := by
  unfold count
  rw [Finset.filter_congr fun i _ => same i]

/-- A free place is taken. -/
theorem count_take [DecidableEq ι] {i : ι} (free : ¬taken i) (now : after i)
    (same : ∀ j, j ≠ i → (after j ↔ taken j)) : count after = count taken + 1 := by
  unfold count
  have added : Finset.univ.filter after = insert i (Finset.univ.filter taken) := by
    ext j
    rw [Finset.mem_insert, Finset.mem_filter_univ, Finset.mem_filter_univ]
    by_cases here : j = i
    · rw [here]
      exact ⟨fun _ => .inl rfl, fun _ => now⟩
    · rw [same j here]
      exact ⟨.inr, fun member => member.resolve_left here⟩
  rw [added, Finset.card_insert_of_notMem]
  rw [Finset.mem_filter_univ]
  exact free

/-- A taken place is released. -/
theorem count_release [DecidableEq ι] {i : ι} (before : taken i) (free : ¬after i)
    (same : ∀ j, j ≠ i → (after j ↔ taken j)) : count taken = count after + 1 :=
  count_take free before fun j other => (same j other).symm

/-- Fewer places are taken. -/
theorem count_mono (fewer : ∀ i, after i → taken i) : count after ≤ count taken :=
  Finset.card_le_card (Finset.monotone_filter_right _ fun i _ => fewer i)

/-- No place is taken. -/
theorem count_zero : count taken = 0 ↔ ∀ i, ¬taken i := by
  unfold count
  rw [Finset.card_eq_zero, Finset.filter_eq_empty_iff]
  exact ⟨fun none i => none (Finset.mem_univ i), fun none i _ => none i⟩

/-- A free place is not counted. -/
theorem count_lt_card {i : ι} (free : ¬taken i) : count taken < Fintype.card ι :=
  Finset.card_lt_univ_of_notMem (by rwa [Finset.mem_filter_univ])

end Counting

/-- Taken places of one table, mapped to different taken places of another. -/
theorem count_le_count {taken : ι → Prop} {taken' : κ → Prop} [DecidablePred taken] [DecidablePred taken']
    (f : ι → κ) (maps : ∀ i, taken i → taken' (f i))
    (injective : ∀ i j, taken i → taken j → f i = f j → i = j) : count taken ≤ count taken' := by
  refine Finset.card_le_card_of_injOn f ?_ ?_
  · intro i member
    rw [Finset.coe_filter_univ] at member ⊢
    exact maps i member
  · intro i first j second same
    rw [Finset.coe_filter_univ] at first second
    exact injective i j first second same

/-- Where fewer places are taken than some table has, one of that table's places is free. -/
theorem exists_free {taken : ι → Prop} [DecidablePred taken] (f : κ → ι) (injective : Function.Injective f)
    (room : count taken < Fintype.card κ) : ∃ k, ¬taken (f k) := by
  by_contra full
  have all : ∀ k, taken (f k) := fun k => not_not.mp fun free => full ⟨k, free⟩
  have fits : count (fun _ : κ => True) ≤ count taken :=
    count_le_count f (fun k _ => all k) (fun i j _ _ same => injective same)
  have whole : count (fun _ : κ => True) = Fintype.card κ := by
    unfold count
    rw [Finset.filter_true]
    rfl
  omega

end Occupancy
