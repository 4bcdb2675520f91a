import Mathlib.Data.List.Nodup
import Mathlib.Data.List.Perm.Basic
import Mathlib.Logic.Function.Iterate
import Mathlib.Order.Defs.PartialOrder

/-!
# Circular singly linked lists

Nodes with one pointer, `next`. A list of nodes may be followed to a target, and it is a circuit if
it leads back to its first node. A circuit may begin at any of its nodes, a search along `next` from
any node finds any other, and a part of the nodes may be exchanged without the others.
-/

namespace Circuit

variable {ν : Type} {next next' : ν → ν} {xs ys : List ν} {a x y t : ν}

/-- Following `next` visits the nodes `xs` and then reaches the target. -/
def Follow (next : ν → ν) : List ν → ν → Prop
  | [], _ => True
  | x :: xs, t => next x = xs.headD t ∧ Follow next xs t

/-- Following `next` from the first node visits the other nodes and leads back to the first. -/
def Closed (next : ν → ν) (x : ν) (xs : List ν) : Prop := Follow next (x :: xs) x

/-! ## Parts of a list -/

/-- The first node of two lists one after the other. -/
theorem headD_append (xs ys : List ν) (t : ν) : (xs ++ ys).headD t = xs.headD (ys.headD t) := by
  cases xs <;> rfl

/-- A list is followed part by part. -/
theorem follow_append : Follow next (xs ++ ys) t ↔ Follow next xs (ys.headD t) ∧ Follow next ys t := by
  induction xs with
  | nil => exact ⟨fun follow => ⟨trivial, follow⟩, fun both => both.2⟩
  | cons x xs ih =>
    show next x = (xs ++ ys).headD t ∧ Follow next (xs ++ ys) t ↔
      (next x = xs.headD (ys.headD t) ∧ Follow next xs (ys.headD t)) ∧ Follow next ys t
    rw [ih, headD_append, and_assoc]

/-- Only the pointers of the nodes matter. -/
theorem Follow.congr (follow : Follow next xs t) (same : ∀ x ∈ xs, next' x = next x) :
    Follow next' xs t := by
  induction xs with
  | nil => trivial
  | cons x xs ih =>
    refine ⟨(same x (List.mem_cons_self ..)).trans follow.1, ih follow.2 ?_⟩
    exact fun y member => same y (List.mem_cons_of_mem x member)

/-- The nodes after one of the nodes are exchanged, and what leads there and away stays. -/
theorem Follow.exchange {front mid mid' back : List ν}
    (follow : Follow next (front ++ (x :: mid ++ back)) t)
    (same : ∀ y ∈ front ++ back, next' y = next y)
    (new : Follow next' (x :: mid') (back.headD t)) :
    Follow next' (front ++ (x :: mid' ++ back)) t := by
  obtain ⟨before, rest⟩ := follow_append.mp follow
  obtain ⟨_, after⟩ := follow_append.mp rest
  refine follow_append.mpr ⟨?_, follow_append.mpr ⟨new, ?_⟩⟩
  · exact before.congr fun y member => same y (List.mem_append_left _ member)
  · exact after.congr fun y member => same y (List.mem_append_right _ member)

/-- The pointer of a node between two parts of a list. -/
theorem Follow.next_eq (follow : Follow next (xs ++ x :: ys) t) : next x = ys.headD t :=
  (follow_append.mp follow).2.1

/-! ## Circuits -/

/-- A circuit may begin at any of its nodes. -/
theorem Closed.rotate (closed : Closed next x (xs ++ y :: ys)) : Closed next y (ys ++ x :: xs) := by
  have whole : Follow next ((x :: xs) ++ (y :: ys)) x := closed
  obtain ⟨first, second⟩ := follow_append.mp whole
  show Follow next ((y :: ys) ++ (x :: xs)) y
  exact follow_append.mpr ⟨second, first⟩

/-- A circuit that begins at a given node of it. -/
theorem Closed.from_ (closed : Closed next x xs) (member : a ∈ x :: xs) :
    ∃ ys, Closed next a ys ∧ (a :: ys).Perm (x :: xs) := by
  rcases List.mem_cons.mp member with rfl | later
  · exact ⟨xs, closed, List.Perm.refl _⟩
  · obtain ⟨first, second, rfl⟩ := List.append_of_mem later
    refine ⟨second ++ x :: first, closed.rotate, ?_⟩
    have swap : (a :: second ++ x :: first).Perm (x :: first ++ a :: second) :=
      List.perm_append_comm
    exact swap

/-- The pointers of the nodes are the nodes after the first and the target. -/
theorem Follow.map_eq (follow : Follow next (x :: xs) t) : (x :: xs).map next = xs ++ [t] := by
  induction xs generalizing x with
  | nil => exact congrArg (fun y => [y]) follow.1
  | cons y ys ih =>
    rw [List.map_cons, ih follow.2, follow.1]
    rfl

/-- The pointer of a node is a node. -/
theorem Closed.next_mem (closed : Closed next x xs) (member : a ∈ x :: xs) : next a ∈ x :: xs := by
  have image : next a ∈ (x :: xs).map next := List.mem_map_of_mem member
  rw [Follow.map_eq closed] at image
  exact (List.perm_append_singleton x xs).mem_iff.mp image

/-- No two nodes have one pointer. -/
theorem Closed.injective (closed : Closed next x xs) (distinct : (x :: xs).Nodup) {b : ν}
    (left : a ∈ x :: xs) (right : b ∈ x :: xs) (same : next a = next b) : a = b := by
  have images : ((x :: xs).map next).Nodup := by
    rw [Follow.map_eq closed]
    exact (List.perm_append_singleton x xs).nodup_iff.mpr distinct
  exact List.inj_on_of_nodup_map images left right same

/-- In a circuit whose nodes ascend, the pointer of a node is the next larger node, or it leads
from the largest to the first. -/
theorem Closed.ascends [Preorder ν] (closed : Closed next x xs)
    (sorted : (x :: xs).Pairwise (· < ·)) (member : a ∈ x :: xs) :
    (a < next a ∧ ∀ z ∈ x :: xs, z ≤ a ∨ next a ≤ z) ∨ (next a = x ∧ ∀ z ∈ x :: xs, z ≤ a) := by
  obtain ⟨front, back, split⟩ := List.append_of_mem member
  have whole : Follow next (x :: xs) x := closed
  rw [split] at whole
  have link : next a = back.headD x := whole.next_eq
  rw [split] at sorted ⊢
  obtain ⟨_, after, between⟩ := List.pairwise_append.mp sorted
  have before : ∀ z ∈ front, z ≤ a := fun z inFront =>
    le_of_lt (between z inFront a (List.mem_cons_self ..))
  cases back with
  | nil =>
    refine Or.inr ⟨link, fun z inList => ?_⟩
    rcases List.mem_append.mp inList with inFront | isLast
    · exact before z inFront
    · exact le_of_eq (List.mem_singleton.mp isLast)
  | cons b rest =>
    have isNext : next a = b := link
    obtain ⟨above, later⟩ := List.pairwise_cons.mp after
    refine Or.inl ⟨?_, fun z inList => ?_⟩
    · rw [isNext]
      exact above b (List.mem_cons_self ..)
    · rw [isNext]
      rcases List.mem_append.mp inList with inFront | inBack
      · exact Or.inl (before z inFront)
      · rcases List.mem_cons.mp inBack with rfl | inRest
        · exact Or.inl (le_refl _)
        · rcases List.mem_cons.mp inRest with rfl | beyond
          · exact Or.inr (le_refl _)
          · exact Or.inr (le_of_lt ((List.pairwise_cons.mp later).1 z beyond))

/-! ## Searches -/

/-- The first node along `next` that passes a test, within so many steps. -/
def search (next : ν → ν) (test : ν → Bool) : Nat → ν → Option ν
  | 0, _ => none
  | fuel + 1, a => if test a then some a else search next test fuel (next a)

/-- Nodes that do not pass are left behind. -/
theorem Follow.search_skip {test : ν → Bool} (follow : Follow next xs t)
    (fails : ∀ x ∈ xs, test x = false) (fuel : Nat) :
    search next test (fuel + xs.length) (xs.headD t) = search next test fuel t := by
  induction xs with
  | nil => rfl
  | cons x xs ih =>
    have first : test x = false := fails x (List.mem_cons_self ..)
    have rest := ih follow.2 fun y member => fails y (List.mem_cons_of_mem x member)
    rw [← rest, ← follow.1]
    show search next test (fuel + xs.length + 1) x = _
    rw [search, first]
    rfl

/-- A search from any node of a circuit finds the only node that passes. -/
theorem Closed.search_eq {test : ν → Bool} (closed : Closed next x xs) (start : a ∈ x :: xs)
    (goal : y ∈ x :: xs) (only : ∀ z ∈ x :: xs, test z = true ↔ z = y) {fuel : Nat}
    (enough : (x :: xs).length ≤ fuel) : search next test fuel a = some y := by
  obtain ⟨ys, fromStart, perm⟩ := closed.from_ start
  obtain ⟨front, back, split, first⟩ := List.eq_append_cons_of_mem (perm.mem_iff.mpr goal)
  have follow : Follow next (front ++ y :: back) a := split ▸ fromStart
  have beginning : front.headD y = a := by
    have head := congrArg (fun l => l.headD y) split
    simpa [headD_append] using head.symm
  have fails : ∀ z ∈ front, test z = false := by
    intro z inFront
    have inList : z ∈ x :: xs := by
      apply perm.mem_iff.mp
      rw [split]
      exact List.mem_append_left _ inFront
    rw [Bool.eq_false_iff]
    exact fun passes => first ((only z inList).mp passes ▸ inFront)
  have count : front.length < fuel := by
    have total := congrArg List.length split
    rw [perm.length_eq] at total
    simp only [List.length_append, List.length_cons] at total enough
    omega
  obtain ⟨rest, rfl⟩ := Nat.exists_eq_add_of_lt count
  have skipped := (follow_append.mp follow).1.search_skip fails (rest + 1)
  rw [show (y :: back).headD a = y from rfl, beginning] at skipped
  rw [show front.length + rest + 1 = rest + 1 + front.length by omega, skipped, search,
    (only y goal).mpr rfl]
  rfl

/-- What a search finds is reached along `next`. -/
theorem search_iterate {test : ν → Bool} {fuel : Nat} (found : search next test fuel a = some y) :
    ∃ k, next^[k] a = y := by
  induction fuel generalizing a with
  | zero => exact absurd found (by simp [search])
  | succ fuel ih =>
    rw [search] at found
    by_cases passes : test a = true
    · rw [if_pos passes] at found
      exact ⟨0, Option.some.inj found⟩
    · rw [if_neg passes] at found
      obtain ⟨k, reached⟩ := ih found
      exact ⟨k + 1, reached⟩

/-- A search that finds a node finds it with more steps, too. -/
theorem search_more {test : ν → Bool} {fuel : Nat} (found : search next test fuel a = some y)
    (more : Nat) : search next test (fuel + more) a = some y := by
  induction fuel generalizing a with
  | zero => exact absurd found (by simp [search])
  | succ fuel ih =>
    rw [search] at found
    rw [Nat.add_right_comm, search]
    by_cases passes : test a = true
    · rw [if_pos passes] at found ⊢
      exact found
    · rw [if_neg passes] at found ⊢
      exact ih found

/-- From every node of a circuit every node is reached. -/
theorem Closed.reaches [DecidableEq ν] (closed : Closed next x xs) (start : a ∈ x :: xs)
    (goal : y ∈ x :: xs) : ∃ k, next^[k] a = y := by
  have only : ∀ z ∈ x :: xs, decide (z = y) = true ↔ z = y := fun _ _ => decide_eq_true_iff
  exact search_iterate (closed.search_eq start goal only (Nat.le_refl _))

/-- Along `next` one stays in the circuit. -/
theorem Closed.iterate_mem (closed : Closed next x xs) (start : a ∈ x :: xs) (k : Nat) :
    next^[k] a ∈ x :: xs := by
  induction k generalizing a with
  | zero => exact start
  | succ k ih => exact ih (closed.next_mem start)

end Circuit
