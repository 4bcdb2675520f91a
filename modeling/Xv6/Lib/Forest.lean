import Mathlib.Logic.Function.Basic
import Mathlib.Algebra.Notation.Defs
import Mathlib.Data.List.Nodup

/-!
# Forests of pointers

A forest has named roots and nodes with indexed entries; every root and every entry holds an
address, zero for none. A place is a root with a path of indices, written from the last index
to the first, so that the place above it is the tail. A forest is exclusive when no address
occurs at two places. Grafting an unowned, empty node at a vacant place changes this place
and no other, and keeps the forest exclusive. Listing a tree children first names each of its
addresses, in an exclusive forest once.
-/

/-- Roots of type `ρ`, entries indexed by `κ`, addresses in `α`. -/
structure Forest (ρ κ α : Type) where
  /-- The address at each root. -/
  root : ρ → α
  /-- The address in each entry of a node. -/
  entry : α → κ → α

namespace Forest

variable {ρ κ α : Type} [Zero α] [DecidableEq α]

/-- The address at a place: zero below a zero address. -/
def address (f : Forest ρ κ α) (r : ρ) : List κ → α
  | [] => f.root r
  | k :: up => if f.address r up = 0 then 0 else f.entry (f.address r up) k

/-- The address at a root. -/
@[simp] theorem address_nil (f : Forest ρ κ α) (r : ρ) : f.address r [] = f.root r := rfl

/-- Below a vacant place everything is vacant. -/
theorem address_below_vacant {f : Forest ρ κ α} {r : ρ} {up : List κ} (vacant : f.address r up = 0)
    (k : κ) : f.address r (k :: up) = 0 := by
  rw [address, if_pos vacant]

/-- So is every place under it. -/
theorem address_under_vacant {f : Forest ρ κ α} {r : ρ} {p : List κ} (vacant : f.address r p = 0)
    (q : List κ) : f.address r (q ++ p) = 0 := by
  induction q with
  | nil => exact vacant
  | cons k q above => exact address_below_vacant above k

/-- Below an occupied place stands the entry of its node. -/
theorem address_below {f : Forest ρ κ α} {r : ρ} {up : List κ} (occupied : f.address r up ≠ 0)
    (k : κ) : f.address r (k :: up) = f.entry (f.address r up) k := by
  rw [address, if_neg occupied]

/-- Above an occupied place the node is there, and the place is its entry. -/
theorem address_occupied {f : Forest ρ κ α} {r : ρ} {k : κ} {up : List κ}
    (occupied : f.address r (k :: up) ≠ 0) :
    f.address r up ≠ 0 ∧ f.address r (k :: up) = f.entry (f.address r up) k := by
  have above : f.address r up ≠ 0 := fun vacant => occupied (address_below_vacant vacant k)
  exact ⟨above, address_below above k⟩

/-- Forests with the same roots and the same entries in the nodes that one of them reaches have
the same addresses. -/
theorem address_congr {f g : Forest ρ κ α} {domain : ρ → List κ → Prop}
    (closed : ∀ r k up, domain r (k :: up) → domain r up) (root : ∀ r, g.root r = f.root r)
    (entry : ∀ r k up, domain r (k :: up) → f.address r up ≠ 0 →
      g.entry (f.address r up) k = f.entry (f.address r up) k)
    (r : ρ) (p : List κ) (inside : domain r p) : g.address r p = f.address r p := by
  induction p with
  | nil => exact root r
  | cons k up ih =>
    have above := ih (closed r k up inside)
    by_cases vacant : f.address r up = 0
    · rw [address_below_vacant vacant, address_below_vacant (by rw [above]; exact vacant)]
    · rw [address_below vacant, address_below (by rw [above]; exact vacant), above]
      exact entry r k up inside vacant

/-- No nonzero address occurs at two places of the domain. -/
def Exclusive (f : Forest ρ κ α) (domain : ρ → List κ → Prop) : Prop :=
  ∀ r p r' p', domain r p → domain r' p' → f.address r p ≠ 0 →
    f.address r p = f.address r' p' → r = r' ∧ p = p'

/-- The addresses at and below an address, children first, down to a depth. -/
def postorder (f : Forest ρ κ α) (keys : List κ) : Nat → α → List α
  | 0, a => if a = 0 then [] else [a]
  | depth + 1, a =>
    if a = 0 then [] else (keys.flatMap fun k => f.postorder keys depth (f.entry a k)) ++ [a]

/-- Nothing lies at a vacant address. -/
@[simp] theorem postorder_zero (f : Forest ρ κ α) (keys : List κ) (depth : Nat) :
    f.postorder keys depth 0 = [] := by
  cases depth <;> simp [postorder]

/-- Only addresses are listed. -/
theorem postorder_ne_zero {f : Forest ρ κ α} {keys : List κ} {depth : Nat} {a b : α}
    (member : b ∈ f.postorder keys depth a) : b ≠ 0 := by
  induction depth generalizing a with
  | zero =>
    unfold postorder at member
    split at member
    · exact absurd member List.not_mem_nil
    · rw [List.mem_singleton.mp member]
      assumption
  | succ depth ih =>
    unfold postorder at member
    split at member
    · exact absurd member List.not_mem_nil
    · rcases List.mem_append.mp member with below | here
      · obtain ⟨k, -, child⟩ := List.mem_flatMap.mp below
        exact ih child
      · rw [List.mem_singleton.mp here]
        assumption

/-- The listing names exactly the addresses at the places that lie at or below a place and at
most `depth` under it. -/
theorem mem_postorder {f : Forest ρ κ α} {keys : List κ} {depth : Nat} {r : ρ} {p : List κ} {b : α} :
    b ∈ f.postorder keys depth (f.address r p) ↔
      b ≠ 0 ∧ ∃ q, q.length ≤ depth ∧ (∀ k ∈ q, k ∈ keys) ∧ f.address r (q ++ p) = b := by
  induction depth generalizing p with
  | zero =>
    constructor
    · intro member
      refine ⟨postorder_ne_zero member, [], Nat.le_refl _, by simp, ?_⟩
      unfold postorder at member
      split at member
      · exact absurd member List.not_mem_nil
      · exact (List.mem_singleton.mp member).symm
    · rintro ⟨occupied, q, short, -, rfl⟩
      rw [List.eq_nil_of_length_eq_zero (Nat.le_zero.mp short), List.nil_append] at occupied ⊢
      rw [postorder, if_neg occupied]
      exact List.mem_singleton_self _
  | succ depth ih =>
    by_cases vacant : f.address r p = 0
    · rw [vacant, postorder_zero]
      constructor
      · exact fun member => absurd member List.not_mem_nil
      · rintro ⟨occupied, q, -, -, rfl⟩
        exact absurd (address_under_vacant vacant q) occupied
    · rw [postorder, if_neg vacant, List.mem_append, List.mem_flatMap, List.mem_singleton]
      constructor
      · rintro (⟨k, key, child⟩ | rfl)
        · rw [← address_below vacant k] at child
          obtain ⟨occupied, q, short, inside, same⟩ := ih.mp child
          refine ⟨occupied, q ++ [k], ?_, ?_, ?_⟩
          · rw [List.length_append, List.length_singleton]
            omega
          · intro j member
            rcases List.mem_append.mp member with upper | last
            · exact inside j upper
            · rw [List.mem_singleton.mp last]
              exact key
          · rw [List.append_assoc, List.singleton_append]
            exact same
        · exact ⟨vacant, [], Nat.zero_le _, by simp, rfl⟩
      · rintro ⟨occupied, q, short, inside, same⟩
        rcases List.eq_nil_or_concat' q with rfl | ⟨upper, k, rfl⟩
        · exact .inr same.symm
        · rw [List.length_append, List.length_singleton] at short
          refine .inl ⟨k, inside k (by simp), ?_⟩
          rw [← address_below vacant k]
          apply ih.mpr
          refine ⟨occupied, upper, by omega, fun j member => inside j (by simp [member]), ?_⟩
          rw [List.append_assoc, List.singleton_append] at same
          exact same

/-- In an exclusive forest nothing is listed twice. -/
theorem postorder_nodup {f : Forest ρ κ α} {domain : ρ → List κ → Prop} (exclusive : f.Exclusive domain)
    {keys : List κ} (distinct : keys.Nodup) {depth : Nat} {r : ρ} {p : List κ}
    (inside : ∀ q, q.length ≤ depth → (∀ k ∈ q, k ∈ keys) → domain r (q ++ p)) :
    (f.postorder keys depth (f.address r p)).Nodup := by
  induction depth generalizing p with
  | zero =>
    unfold postorder
    split
    · exact List.nodup_nil
    · exact List.nodup_singleton _
  | succ depth ih =>
    by_cases vacant : f.address r p = 0
    · rw [vacant, postorder_zero]
      exact List.nodup_nil
    · have deeper : ∀ k ∈ keys, ∀ q, q.length ≤ depth → (∀ j ∈ q, j ∈ keys) →
          domain r (q ++ k :: p) := by
        intro k key q short bounded
        have place := inside (q ++ [k]) (by rw [List.length_append, List.length_singleton]; omega) (by
          intro j member
          rcases List.mem_append.mp member with upper | last
          · exact bounded j upper
          · rw [List.mem_singleton.mp last]
            exact key)
        rw [List.append_assoc, List.singleton_append] at place
        exact place
      have child : ∀ k, f.entry (f.address r p) k = f.address r (k :: p) := fun k =>
        (address_below vacant k).symm
      rw [postorder, if_neg vacant]
      simp only [child]
      rw [List.nodup_append]
      refine ⟨List.nodup_flatMap.mpr ⟨fun k key => ih (deeper k key), ?_⟩, List.nodup_singleton _, ?_⟩
      · -- a common address would stand at two places whose paths part at `p`
        refine List.Pairwise.imp_of_mem ?_ distinct
        intro k k' key key' other b left right
        obtain ⟨occupied, q, short, bounded, rfl⟩ := mem_postorder.mp left
        obtain ⟨-, q', short', bounded', same⟩ := mem_postorder.mp right
        have equal := (exclusive _ _ _ _ (deeper k key q short bounded)
          (deeper k' key' q' short' bounded') occupied same.symm).2
        have lengths := congrArg List.length equal
        simp only [List.length_append, List.length_cons] at lengths
        have tails := (List.append_inj equal (by omega)).2
        exact other (List.cons.inj tails).1
      · intro b below a here
        obtain ⟨k, key, member⟩ := List.mem_flatMap.mp below
        obtain ⟨occupied, q, short, bounded, rfl⟩ := mem_postorder.mp member
        rw [List.mem_singleton.mp here]
        intro same
        have equal := (exclusive _ _ _ _ (deeper k key q short bounded)
          (inside [] (Nat.zero_le _) (by simp)) occupied same).2
        have lengths := congrArg List.length equal
        simp only [List.length_append, List.length_cons, List.length_nil] at lengths
        omega

/-- The forest `g` is `f` with the address `fresh` at the place `(r₀, p₀)`: nothing else
changes at the roots and in the nodes that `f` reaches, and the new node is empty. -/
structure Graft (domain : ρ → List κ → Prop) (f g : Forest ρ κ α) (r₀ : ρ) (p₀ : List κ)
    (fresh : α) : Prop where
  /-- The new address is an address. -/
  fresh_ne : fresh ≠ 0
  /-- It occurs nowhere before. -/
  unowned : ∀ r p, domain r p → f.address r p ≠ fresh
  /-- The place has no address before. -/
  vacant : f.address r₀ p₀ = 0
  /-- The place is a root or an entry of a node. -/
  attached : ∀ k up, p₀ = k :: up → f.address r₀ up ≠ 0
  /-- Every other root stays. -/
  root : ∀ r, g.root r = f.root r ∨ r = r₀ ∧ p₀ = []
  /-- The new address at a root. -/
  root_fresh : p₀ = [] → g.root r₀ = fresh
  /-- Every other entry of a reached node stays. -/
  entry : ∀ r k up, domain r (k :: up) → f.address r up ≠ 0 → (r ≠ r₀ ∨ k :: up ≠ p₀) →
    g.entry (f.address r up) k = f.entry (f.address r up) k
  /-- The new address in an entry. -/
  entry_fresh : ∀ k up, p₀ = k :: up → g.entry (f.address r₀ up) k = fresh
  /-- The new node has no entry. -/
  empty : ∀ k, g.entry fresh k = 0

namespace Graft

variable {domain : ρ → List κ → Prop} {f g : Forest ρ κ α} {r₀ : ρ} {p₀ : List κ} {fresh : α}

/-- After a graft every place holds its old address, but for the grafted place. -/
theorem address_cases (graft : Graft domain f g r₀ p₀ fresh)
    (closed : ∀ r k up, domain r (k :: up) → domain r up) (r : ρ) (p : List κ)
    (inside : domain r p) :
    (r = r₀ ∧ p = p₀ ∧ g.address r p = fresh) ∨
      ((r ≠ r₀ ∨ p ≠ p₀) ∧ g.address r p = f.address r p) := by
  induction p with
  | nil =>
    by_cases here : r = r₀ ∧ [] = p₀
    · obtain ⟨rfl, rfl⟩ := here
      exact .inl ⟨rfl, rfl, graft.root_fresh rfl⟩
    · rcases graft.root r with same | ⟨rfl, rfl⟩
      · exact .inr ⟨not_and_or.mp here, same⟩
      · exact absurd ⟨rfl, rfl⟩ here
  | cons k up ih =>
    rcases ih (closed _ _ _ inside) with ⟨rfl, rfl, grafted⟩ | ⟨_, kept⟩
    · -- directly below the graft: vacant before, an entry of the empty node after
      refine .inr ⟨.inr (List.cons_ne_self k up), ?_⟩
      rw [address_below (by rw [grafted]; exact graft.fresh_ne), grafted, graft.empty,
        address_below_vacant graft.vacant]
    · by_cases here : r = r₀ ∧ k :: up = p₀
      · obtain ⟨rfl, rfl⟩ := here
        refine .inl ⟨rfl, rfl, ?_⟩
        rw [address_below (by rw [kept]; exact graft.attached k up rfl), kept]
        exact graft.entry_fresh k up rfl
      · refine .inr ⟨not_and_or.mp here, ?_⟩
        by_cases vacant : f.address r up = 0
        · rw [address_below_vacant vacant, address_below_vacant (by rw [kept]; exact vacant)]
        · rw [address_below vacant, address_below (by rw [kept]; exact vacant), kept]
          exact graft.entry r k up inside vacant (not_and_or.mp here)

/-- The grafted place holds the new address. -/
theorem address_same (graft : Graft domain f g r₀ p₀ fresh)
    (closed : ∀ r k up, domain r (k :: up) → domain r up) (inside : domain r₀ p₀) :
    g.address r₀ p₀ = fresh := by
  rcases graft.address_cases closed r₀ p₀ inside with ⟨_, _, grafted⟩ | ⟨other, _⟩
  · exact grafted
  · rcases other with h | h <;> exact absurd rfl h

/-- Every other place keeps its address. -/
theorem address_other (graft : Graft domain f g r₀ p₀ fresh)
    (closed : ∀ r k up, domain r (k :: up) → domain r up) {r : ρ} {p : List κ}
    (inside : domain r p) (other : r ≠ r₀ ∨ p ≠ p₀) : g.address r p = f.address r p := by
  rcases graft.address_cases closed r p inside with ⟨same, same', _⟩ | ⟨_, kept⟩
  · rcases other with h | h <;> contradiction
  · exact kept

/-- An occupied place keeps its address. -/
theorem address_kept (graft : Graft domain f g r₀ p₀ fresh)
    (closed : ∀ r k up, domain r (k :: up) → domain r up) {r : ρ} {p : List κ}
    (inside : domain r p) (occupied : f.address r p ≠ 0) : g.address r p = f.address r p := by
  apply graft.address_other closed inside
  by_contra h
  simp only [not_or, not_not] at h
  obtain ⟨rfl, rfl⟩ := h
  exact occupied graft.vacant

/-- Grafting keeps the forest exclusive. -/
theorem exclusive (graft : Graft domain f g r₀ p₀ fresh)
    (closed : ∀ r k up, domain r (k :: up) → domain r up) (before : f.Exclusive domain) :
    g.Exclusive domain := by
  intro r p r' p' inside inside' occupied same
  rcases graft.address_cases closed r p inside with ⟨rfl, rfl, left⟩ | ⟨_, left⟩ <;>
    rcases graft.address_cases closed r' p' inside' with ⟨rfl, rfl, right⟩ | ⟨_, right⟩
  · exact ⟨rfl, rfl⟩
  · exact absurd (by rw [← right, ← same, left]) (graft.unowned r' p' inside')
  · exact absurd (by rw [← left, same, right]) (graft.unowned r p inside)
  · rw [left] at occupied same
    rw [right] at same
    exact before r p r' p' inside inside' occupied same

end Graft

end Forest
