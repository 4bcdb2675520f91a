import Mathlib.Logic.Function.Basic
import Mathlib.Data.List.Basic

/-!
# Maps kept in slots

A list of slots, each empty or holding a key with a value, is a map while no key is in two
slots: looking a key up finds the first slot that holds it. Filling an empty slot or a new one
binds a key that is unbound, and emptying the slot of a key unbinds it; no other key is
concerned.
-/

namespace SlotMap

variable {κ ν : Type}

/-- Slots with their keys and values. -/
abbrev Slots (κ ν : Type) : Type := List (Option (κ × ν))

section Lookup

variable [DecidableEq κ]

/-- The first slot that holds a key: its value and its index. -/
def find (k : κ) : Slots κ ν → Option (ν × Nat)
  | [] => none
  | none :: rest => (find k rest).map fun found => (found.1, found.2 + 1)
  | some held :: rest =>
    if held.1 = k then some (held.2, 0) else (find k rest).map fun found => (found.1, found.2 + 1)

/-- The value bound to a key. -/
def lookup (slots : Slots κ ν) (k : κ) : Option ν := (find k slots).map Prod.fst

end Lookup

/-- No key is in two slots. -/
def Distinct (slots : Slots κ ν) : Prop :=
  ∀ (i j : Nat) (k : κ) (v w : ν), slots[i]? = some (some (k, v)) → slots[j]? = some (some (k, w)) → i = j

section Find

variable [DecidableEq κ] {slots : Slots κ ν} {k : κ} {v : ν} {i : Nat}

/-- What is found is there. -/
theorem find_some (found : find k slots = some (v, i)) : slots[i]? = some (some (k, v)) := by
  induction slots generalizing i with
  | nil => contradiction
  | cons slot rest ih =>
    cases slot with
    | none =>
      obtain ⟨⟨w, j⟩, later, same⟩ := Option.map_eq_some_iff.mp found
      cases same
      exact ih later
    | some held =>
      unfold find at found
      by_cases here : held.1 = k
      · rw [if_pos here] at found
        cases found
        rw [← here]
        rfl
      · rw [if_neg here] at found
        obtain ⟨⟨w, j⟩, later, same⟩ := Option.map_eq_some_iff.mp found
        cases same
        exact ih later

/-- A key that is there is found. -/
theorem find_of_mem (held : slots[i]? = some (some (k, v))) : ∃ found, find k slots = some found := by
  induction slots generalizing i with
  | nil => contradiction
  | cons slot rest ih =>
    cases i with
    | zero =>
      have same : slot = some (k, v) := Option.some.inj held
      rw [same]
      exact ⟨_, if_pos rfl⟩
    | succ j =>
      obtain ⟨found, later⟩ := ih held
      cases slot with
      | none => exact ⟨_, by rw [find, later]; rfl⟩
      | some other =>
        by_cases here : other.1 = k
        · exact ⟨_, if_pos here⟩
        · exact ⟨_, by rw [find, if_neg here, later]; rfl⟩

/-- In distinct slots a key is found exactly where it is. -/
theorem find_eq_some_iff (distinct : Distinct slots) :
    find k slots = some (v, i) ↔ slots[i]? = some (some (k, v)) := by
  constructor
  · exact find_some
  · intro held
    obtain ⟨⟨w, j⟩, found⟩ := find_of_mem held
    have there := find_some found
    have same : i = j := distinct i j k v w held there
    rw [← same, held] at there
    cases there
    rw [found, same]

/-- In distinct slots a key is bound to the value beside it. -/
theorem lookup_eq_some_iff (distinct : Distinct slots) :
    lookup slots k = some v ↔ ∃ i : Nat, slots[i]? = some (some (k, v)) := by
  unfold lookup
  rw [Option.map_eq_some_iff]
  constructor
  · rintro ⟨⟨w, i⟩, found, rfl⟩
    exact ⟨i, find_some found⟩
  · rintro ⟨i, held⟩
    exact ⟨(v, i), (find_eq_some_iff distinct).mpr held, rfl⟩

/-- A key is unbound exactly when no slot holds it. -/
theorem lookup_eq_none_iff :
    lookup slots k = none ↔ ∀ (i : Nat) (v : ν), slots[i]? ≠ some (some (k, v)) := by
  unfold lookup
  rw [Option.map_eq_none_iff]
  constructor
  · intro absent i v held
    obtain ⟨found, here⟩ := find_of_mem held
    rw [absent] at here
    contradiction
  · intro absent
    cases found : find k slots with
    | none => rfl
    | some pair => exact absurd (find_some found) (absent pair.2 pair.1)

end Find

section Update

variable {slots new : Slots κ ν} {k : κ} {v : ν} {i : Nat}

/-- Slots that hold one more key. -/
structure Fills (slots new : Slots κ ν) (i : Nat) (k : κ) (v : ν) : Prop where
  /-- The slot was empty or is new. -/
  vacant : ∀ held, slots[i]? ≠ some (some held)
  /-- It holds the key. -/
  filled : new[i]? = some (some (k, v))
  /-- Every other slot stays. -/
  others : ∀ j, j ≠ i → new[j]? = slots[j]?

/-- Emptying a slot keeps the keys distinct. -/
theorem distinct_clear (distinct : Distinct slots) (i : Nat) : Distinct (slots.set i none) := by
  intro a b c x y left right
  have old : ∀ (j : Nat) (w : ν), (slots.set i none)[j]? = some (some (c, w)) →
      slots[j]? = some (some (c, w)) := by
    intro j w held
    rw [List.getElem?_set] at held
    split at held
    · split at held <;> cases held
    · exact held
  exact distinct a b c x y (old a x left) (old b y right)

variable [DecidableEq κ]

/-- Filling a slot with an unbound key keeps the keys distinct. -/
theorem Fills.distinct (fills : Fills slots new i k v) (distinct : Distinct slots)
    (unbound : lookup slots k = none) : Distinct new := by
  have absent := lookup_eq_none_iff.mp unbound
  intro a b c x y left right
  by_cases here : a = i
  · by_cases there : b = i
    · rw [here, there]
    · rw [here, fills.filled] at left
      cases left
      rw [fills.others b there] at right
      exact absurd right (absent b y)
  · rw [fills.others a here] at left
    by_cases there : b = i
    · rw [there, fills.filled] at right
      cases right
      exact absurd left (absent a x)
    · rw [fills.others b there] at right
      exact distinct a b c x y left right

/-- Filling a slot with an unbound key binds this key and no other. -/
theorem Fills.lookup (fills : Fills slots new i k v) (distinct : Distinct slots)
    (unbound : lookup slots k = none) :
    SlotMap.lookup new = Function.update (SlotMap.lookup slots) k (some v) := by
  have later := fills.distinct distinct unbound
  funext c
  by_cases here : c = k
  · rw [here, Function.update_self, lookup_eq_some_iff later]
    exact ⟨i, fills.filled⟩
  · rw [Function.update_of_ne here]
    apply Option.ext
    intro w
    rw [lookup_eq_some_iff later, lookup_eq_some_iff distinct]
    constructor
    · rintro ⟨j, held⟩
      have other : j ≠ i := by
        rintro rfl
        rw [fills.filled] at held
        cases held
        exact here rfl
      rw [fills.others j other] at held
      exact ⟨j, held⟩
    · rintro ⟨j, held⟩
      have other : j ≠ i := by
        rintro rfl
        exact fills.vacant _ held
      rw [← fills.others j other] at held
      exact ⟨j, held⟩

/-- Emptying the slot of a key unbinds this key and no other. -/
theorem lookup_clear (distinct : Distinct slots) (held : slots[i]? = some (some (k, v))) :
    lookup (slots.set i none) = Function.update (lookup slots) k none := by
  have later := distinct_clear distinct i
  obtain ⟨inside, -⟩ := List.getElem?_eq_some_iff.mp held
  funext c
  apply Option.ext
  intro w
  rw [lookup_eq_some_iff later]
  by_cases here : c = k
  · rw [here, Function.update_self]
    refine ⟨?_, fun absurdity => nomatch absurdity⟩
    rintro ⟨j, left⟩
    by_cases there : j = i
    · rw [there, List.getElem?_set_self inside] at left
      cases left
    · rw [List.getElem?_set_ne (Ne.symm there)] at left
      exact absurd (distinct j i k w v left held) there
  · rw [Function.update_of_ne here, lookup_eq_some_iff distinct]
    constructor
    · rintro ⟨j, left⟩
      by_cases there : j = i
      · rw [there, List.getElem?_set_self inside] at left
        cases left
      · rw [List.getElem?_set_ne (Ne.symm there)] at left
        exact ⟨j, left⟩
    · rintro ⟨j, left⟩
      have there : j ≠ i := by
        rintro rfl
        rw [held] at left
        cases left
        exact here rfl
      exact ⟨j, by rw [List.getElem?_set_ne (Ne.symm there)]; exact left⟩

end Update

end SlotMap
