import Mathlib.Data.Fintype.Card
import Mathlib.Data.Fintype.Fin
import Mathlib.Data.Nat.ModEq

/-!
# Round robin over a cyclic table

A search that starts after the place chosen last and comes to that place last. As long as the
wanted places stay the same, a search always finds one that was not yet chosen since the start,
until all of them were; so as many searches as there are wanted places choose each exactly once.
-/

namespace RoundRobin

variable {n : Nat} [NeZero n]

/-- The place some steps after the next one, cyclically. -/
def place (cur : Fin n) (k : Nat) : Fin n := Fin.ofNat n (cur + 1 + k)

/-- The places after one, cyclically, that place last. -/
def after (cur : Fin n) : List (Fin n) := (List.range n).map (place cur)

/-- The first wanted place after one. -/
def next (wanted : Fin n → Bool) (cur : Fin n) : Option (Fin n) := (after cur).find? wanted

/-- Steps add up. -/
theorem place_place (cur : Fin n) (i j : Nat) : place (place cur i) j = place cur (i + 1 + j) := by
  apply Fin.ext
  show ((cur + 1 + i) % n + 1 + j) % n = (cur + 1 + (i + 1 + j)) % n
  rw [Nat.add_assoc ((cur + 1 + i) % n), Nat.mod_add_mod]
  congr 1
  omega

/-- Every place is met in one turn. -/
theorem exists_place (cur i : Fin n) : ∃ k < n, place cur k = i := by
  have cur_lt := cur.isLt
  have i_lt := i.isLt
  by_cases later : cur.val < i.val
  · refine ⟨i - (cur + 1), by omega, Fin.ext ?_⟩
    show (cur + 1 + (i.val - (cur + 1))) % n = i
    rw [Nat.add_sub_cancel' later, Nat.mod_eq_of_lt i_lt]
  · refine ⟨i + n - (cur + 1), by omega, Fin.ext ?_⟩
    show (cur + 1 + (i.val + n - (cur + 1))) % n = i
    rw [Nat.add_sub_cancel' (by omega), Nat.add_mod_right, Nat.mod_eq_of_lt i_lt]

/-- No place is met twice in one turn. -/
theorem place_inj {cur : Fin n} {i j : Nat} (low : i < n) (low' : j < n) (same : place cur i = place cur j) :
    i = j := by
  have values : (cur + 1 + i) % n = (cur + 1 + j) % n := congrArg Fin.val same
  have steps : Nat.ModEq n i j := Nat.ModEq.add_left_cancel' _ values
  exact Nat.ModEq.eq_of_lt_of_lt steps low low'

/-- The search returns a wanted place and passes by none. -/
theorem next_eq_some {wanted : Fin n → Bool} {cur i : Fin n} (found : next wanted cur = some i) :
    wanted i = true ∧ ∃ k < n, place cur k = i ∧ ∀ j < k, wanted (place cur j) = false := by
  obtain ⟨here, k, inside, same, passed⟩ := List.find?_eq_some_iff_getElem.mp found
  have low : k < n := by
    rw [after, List.length_map, List.length_range] at inside
    exact inside
  refine ⟨here, k, low, ?_, ?_⟩
  · rw [← same]
    simp only [after, List.getElem_map, List.getElem_range]
  · intro j before
    have skipped := passed j before
    simp only [after, List.getElem_map, List.getElem_range, Bool.not_eq_true'] at skipped
    exact skipped

/-- The search finds a place if one is wanted. -/
theorem next_isSome (wanted : Fin n → Bool) (cur : Fin n) {i : Fin n} (here : wanted i = true) :
    ∃ j, next wanted cur = some j := by
  obtain ⟨k, low, same⟩ := exists_place cur i
  apply Option.isSome_iff_exists.mp
  refine List.find?_isSome.mpr ⟨i, ?_, here⟩
  exact List.mem_map.mpr ⟨k, List.mem_range.mpr low, same⟩

/-- Some searches one after the other from a start: the places chosen so far are the wanted ones among
the first places after the start. -/
structure Round (wanted : Fin n → Bool) (start cur : Fin n) (picks : List (Fin n)) : Prop where
  /-- No place was chosen twice. -/
  nodup : picks.Nodup
  /-- Every place chosen was wanted. -/
  chosen : ∀ i ∈ picks, wanted i = true
  /-- The searches went over some places in order, and the next one goes on from there. -/
  swept : ∃ b ≤ n, (∀ k, place cur k = place start (b + k)) ∧
    ∀ k < n, wanted (place start k) = true → (place start k ∈ picks ↔ k < b)

namespace Round

variable {wanted : Fin n → Bool} {start cur : Fin n} {picks : List (Fin n)}

/-- Nothing was chosen yet. -/
theorem nothing (wanted : Fin n → Bool) (start : Fin n) : Round wanted start start [] where
  nodup := List.nodup_nil
  chosen _ member := nomatch member
  swept := ⟨0, Nat.zero_le _, fun k => by rw [Nat.zero_add], fun k _ _ => by simp⟩

/-- As long as a wanted place was not chosen, the next search chooses such a place. -/
theorem next (round : Round wanted start cur picks) {i : Fin n} (left : wanted i = true ∧ i ∉ picks) :
    ∃ j, RoundRobin.next wanted cur = some j ∧ Round wanted start j (picks ++ [j]) := by
  obtain ⟨b, inside, steps, swept⟩ := round.swept
  obtain ⟨j, found⟩ := next_isSome wanted cur left.1
  obtain ⟨here, k, low, at_k, passed⟩ := next_eq_some found
  rw [steps] at at_k
  -- the place still wanted lies before the end of the turn, so the search stops before it
  obtain ⟨r, r_low, at_r⟩ := exists_place start i
  have unvisited : b ≤ r := by
    by_contra before
    apply left.2
    rw [← at_r]
    exact (swept r r_low (at_r ▸ left.1)).mpr (Nat.lt_of_not_le before)
  have in_turn : b + k < n := by
    by_contra beyond
    have skipped := passed (r - b) (by omega)
    rw [steps, Nat.add_sub_cancel' unvisited, at_r, left.1] at skipped
    cases skipped
  have new : j ∉ picks := by
    intro member
    rw [← at_k] at member here
    have visited := (swept (b + k) in_turn here).mp member
    omega
  refine ⟨j, found, ?_, ?_, b + k + 1, in_turn, ?_, ?_⟩
  · exact List.nodup_append.mpr ⟨round.nodup, List.nodup_singleton j, fun x mem y mem' equal =>
      new (List.mem_singleton.mp mem' ▸ equal ▸ mem)⟩
  · intro x member
    rcases List.mem_append.mp member with old | last
    · exact round.chosen x old
    · rw [List.mem_singleton.mp last]
      exact here
  · intro m
    rw [← at_k, place_place]
  · intro m m_low want
    rw [List.mem_append, swept m m_low want, List.mem_singleton]
    constructor
    · rintro (old | last)
      · omega
      · rw [← at_k] at last
        have same := place_inj m_low in_turn last
        omega
    · intro below
      by_cases old : m < b
      · exact .inl old
      · right
        rw [← at_k]
        by_cases last : m = b + k
        · rw [last]
        · have skipped := passed (m - b) (by omega)
          rw [steps, Nat.add_sub_cancel' (Nat.le_of_not_lt old), want] at skipped
          cases skipped

/-- As long as fewer places were chosen than are wanted, one is left. -/
theorem left (round : Round wanted start cur picks)
    (few : picks.length < (Finset.univ.filter fun i => wanted i = true).card) :
    ∃ i, wanted i = true ∧ i ∉ picks := by
  by_contra none
  have all : (Finset.univ.filter fun i => wanted i = true) ⊆ picks.toFinset := by
    intro i member
    by_contra missing
    exact none ⟨i, (Finset.mem_filter.mp member).2, fun chosen => missing (List.mem_toFinset.mpr chosen)⟩
  have bound := Finset.card_le_card all
  rw [List.toFinset_card_of_nodup round.nodup] at bound
  omega

/-- After as many searches as there are wanted places, every one was chosen. -/
theorem complete (round : Round wanted start cur picks)
    (all : picks.length = (Finset.univ.filter fun i => wanted i = true).card) (i : Fin n) :
    i ∈ picks ↔ wanted i = true := by
  refine ⟨round.chosen i, fun here => ?_⟩
  have same : picks.toFinset = Finset.univ.filter fun i => wanted i = true := by
    apply Finset.eq_of_subset_of_card_le
    · intro j member
      exact Finset.mem_filter.mpr ⟨Finset.mem_univ j, round.chosen j (List.mem_toFinset.mp member)⟩
    · rw [List.toFinset_card_of_nodup round.nodup, all]
  rw [← List.mem_toFinset, same]
  exact Finset.mem_filter.mpr ⟨Finset.mem_univ i, here⟩

end Round

end RoundRobin
