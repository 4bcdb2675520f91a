import Mathlib.Data.Fintype.Card
import Mathlib.Data.List.Nodup

/-!
# Chains

Nodes linked by one pointer each, from a head to a node without a successor. Walking to the end
of a chain finds its last node, and linking a new node there appends it.
-/

namespace Chain

variable {ν : Type} {next next' : ν → Option ν} {a x y : ν} {head : Option ν} {xs ys : List ν}

/-- Following `next` from `head` visits `xs` and then ends. -/
def Visits (next : ν → Option ν) : Option ν → List ν → Prop
  | head, [] => head = none
  | head, x :: xs => head = some x ∧ Visits next (next x) xs

/-- The node without a successor that is reached from `x`, within so many links. -/
def last (next : ν → Option ν) (x : ν) : Nat → ν
  | 0 => x
  | fuel + 1 =>
    match next x with
    | none => x
    | some y => last next y fuel

/-- Only the successors of the nodes visited matter. -/
theorem Visits.congr (visits : Visits next head xs) (same : ∀ x ∈ xs, next' x = next x) :
    Visits next' head xs := by
  induction xs generalizing head with
  | nil => exact visits
  | cons x xs step =>
    obtain ⟨first, rest⟩ := visits
    refine ⟨first, ?_⟩
    rw [same x List.mem_cons_self]
    exact step rest fun y member => same y (List.mem_cons_of_mem x member)

/-- The walk from the first node ends at the last. -/
theorem Visits.last_eq {fuel : Nat} (visits : Visits next (some a) (xs ++ [x]))
    (enough : xs.length ≤ fuel) : last next a fuel = x := by
  induction xs generalizing a fuel with
  | nil =>
    obtain ⟨first, ends⟩ := visits
    have same : a = x := Option.some.inj first
    subst same
    cases fuel with
    | zero => rfl
    | succ fuel =>
      rw [last]
      rw [show next a = none from ends]
  | cons y xs step =>
    cases fuel with
    | zero => cases enough
    | succ fuel =>
      obtain ⟨first, rest⟩ := visits
      have same : a = y := Option.some.inj first
      subst same
      cases successor : next a with
      | none =>
        rw [successor] at rest
        cases xs with
        | nil => cases rest.1
        | cons z xs => cases rest.1
      | some z =>
        rw [successor] at rest
        rw [last, successor]
        exact step rest (Nat.le_of_succ_le_succ enough)

/-- A node linked behind the last one is visited last. -/
theorem Visits.append [DecidableEq ν] (visits : Visits next head (xs ++ [x])) (new : y ∉ xs ++ [x])
    (distinct : (xs ++ [x]).Nodup) :
    Visits (Function.update (Function.update next y none) x (some y)) head (xs ++ [x] ++ [y]) := by
  have other : y ≠ x := fun same => new (List.mem_append_right _ (List.mem_singleton.mpr same))
  induction xs generalizing head with
  | nil =>
    obtain ⟨first, _⟩ := visits
    refine ⟨first, ?_, ?_⟩
    · rw [Function.update_self]
    · rw [Function.update_of_ne other, Function.update_self]
      rfl
  | cons z xs step =>
    obtain ⟨first, rest⟩ := visits
    rw [List.cons_append, List.nodup_cons] at distinct
    rw [List.cons_append, List.mem_cons, not_or] at new
    refine ⟨first, ?_⟩
    have notLast : z ≠ x := by
      intro same
      exact distinct.1 (List.mem_append_right _ (List.mem_singleton.mpr same))
    rw [Function.update_of_ne notLast, Function.update_of_ne (Ne.symm new.1)]
    exact step rest new.2 distinct.2

end Chain
