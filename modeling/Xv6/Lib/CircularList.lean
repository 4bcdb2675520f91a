import Mathlib.Data.List.Nodup
import Mathlib.Logic.Function.Iterate

/-!
# Circular doubly linked lists

Nodes with two pointers, `next` and `prev`, linked in a circle through a head that is no element.
Unlinking an element and inserting one behind the head are the usual stores into the pointers of
the neighbours. A circle that visits a list of elements visits the changed list afterwards, and a
search along either pointer finds what a search of the list finds.
-/

/-- The pointers of all nodes. -/
structure Links (ν : Type) where
  /-- `next` of each node. -/
  next : ν → ν
  /-- `prev` of each node. -/
  prev : ν → ν

namespace Links

variable {ν : Type} {l m : Links ν} {a b c x : ν} {xs ys : List ν}

/-- Following `next` from `a` visits `xs` and then reaches `b`, and `prev` leads back. -/
def Path (l : Links ν) : ν → List ν → ν → Prop
  | a, [], b => l.next a = b ∧ l.prev b = a
  | a, x :: xs, b => l.next a = x ∧ l.prev x = a ∧ Path l x xs b

/-- The nodes `xs` and the head are a circle. -/
structure Cycle (l : Links ν) (head : ν) (xs : List ν) : Prop where
  /-- No node is visited twice, and the head is none of them. -/
  distinct : (head :: xs).Nodup
  /-- The circle. -/
  path : l.Path head xs head

/-- The node from which `next` leaves the path for its end. -/
def final : ν → List ν → ν
  | a, [] => a
  | _, x :: xs => final x xs

/-- The last node of a path is its start or on the path. -/
theorem final_mem (a : ν) (xs : List ν) : final a xs ∈ a :: xs := by
  induction xs generalizing a with
  | nil => exact List.mem_singleton.mpr rfl
  | cons x xs ih => exact List.mem_cons_of_mem a (ih x)

/-- A path goes through each of its nodes. -/
theorem path_append : l.Path a (xs ++ x :: ys) b ↔ l.Path a xs x ∧ l.Path x ys b := by
  induction xs generalizing a with
  | nil =>
    show l.next a = x ∧ l.prev x = a ∧ l.Path x ys b ↔ (l.next a = x ∧ l.prev x = a) ∧ l.Path x ys b
    rw [and_assoc]
  | cons y xs ih =>
    show l.next a = y ∧ l.prev y = a ∧ l.Path y (xs ++ x :: ys) b ↔
      (l.next a = y ∧ l.prev y = a ∧ l.Path y xs x) ∧ l.Path x ys b
    rw [ih, and_assoc, and_assoc]

/-- The end of a path is linked with its last node. -/
theorem Path.ends (path : l.Path a xs b) : l.next (final a xs) = b ∧ l.prev b = final a xs := by
  induction xs generalizing a with
  | nil => exact path
  | cons x xs ih => exact ih path.2.2

/-- The end of a path is replaced. -/
theorem Path.retarget (path : l.Path a xs b) (distinct : (a :: xs).Nodup)
    (next : ∀ y ∈ a :: xs, y ≠ final a xs → m.next y = l.next y) (prev : ∀ y ∈ xs, m.prev y = l.prev y)
    (forth : m.next (final a xs) = c) (back : m.prev c = final a xs) : m.Path a xs c := by
  induction xs generalizing a with
  | nil => exact ⟨forth, back⟩
  | cons x xs ih =>
    obtain ⟨first, link, rest⟩ := path
    rw [List.nodup_cons] at distinct
    have apart : a ≠ final x xs := by
      intro same
      exact distinct.1 (same ▸ final_mem x xs)
    refine ⟨?_, ?_, ?_⟩
    · rw [next a List.mem_cons_self apart]
      exact first
    · rw [prev x List.mem_cons_self]
      exact link
    · apply ih rest distinct.2
      · intro y member
        exact next y (List.mem_cons_of_mem a member)
      · intro y member
        exact prev y (List.mem_cons_of_mem x member)
      · exact forth
      · exact back

/-- A path is kept where its pointers are. -/
theorem Path.congr (path : l.Path a xs b) (next : ∀ y ∈ a :: xs, m.next y = l.next y)
    (prev : ∀ y ∈ xs ++ [b], m.prev y = l.prev y) : m.Path a xs b := by
  induction xs generalizing a with
  | nil =>
    refine ⟨?_, ?_⟩
    · rw [next a List.mem_cons_self]
      exact path.1
    · rw [prev b List.mem_cons_self]
      exact path.2
  | cons x xs ih =>
    refine ⟨?_, ?_, ?_⟩
    · rw [next a List.mem_cons_self]
      exact path.1
    · rw [prev x List.mem_cons_self]
      exact path.2.1
    · apply ih path.2.2
      · intro y member
        exact next y (List.mem_cons_of_mem a member)
      · intro y member
        exact prev y (List.mem_cons_of_mem x member)

/-- Following `next` visits the nodes of a path in order. -/
theorem Path.visits (path : l.Path a xs b) (k : Nat) (inside : k < xs.length) : l.next^[k + 1] a = xs[k] := by
  induction xs generalizing a k with
  | nil => exact absurd inside (Nat.not_lt_zero k)
  | cons x xs ih =>
    rw [Function.iterate_succ_apply, path.1]
    cases k with
    | zero => rfl
    | succ k => exact ih path.2.2 k (Nat.lt_of_succ_lt_succ inside)

/-- Following `next` once more than a path has nodes reaches its end. -/
theorem Path.arrives (path : l.Path a xs b) : l.next^[xs.length + 1] a = b := by
  induction xs generalizing a with
  | nil => exact path.1
  | cons x xs ih =>
    rw [Function.iterate_succ_apply, path.1]
    exact ih path.2.2

/-- On a path `prev` undoes `next`. -/
theorem Path.prev_next (path : l.Path a xs b) {y : ν} (member : y ∈ a :: xs) : l.prev (l.next y) = y := by
  induction xs generalizing a with
  | nil =>
    rw [List.mem_singleton.mp member, path.1]
    exact path.2
  | cons x xs ih =>
    rcases List.mem_cons.mp member with same | later
    · rw [same, path.1]
      exact path.2.1
    · exact ih path.2.2 later

/-- On a path `next` undoes `prev`. -/
theorem Path.next_prev (path : l.Path a xs b) {y : ν} (member : y ∈ xs ++ [b]) : l.next (l.prev y) = y := by
  induction xs generalizing a with
  | nil =>
    rw [List.mem_singleton.mp member, path.2]
    exact path.1
  | cons x xs ih =>
    rcases List.mem_cons.mp member with same | later
    · rw [same, path.2.1]
      exact path.1
    · exact ih path.2.2 later

/-! ## Operations -/

section Operations

variable [DecidableEq ν]

/-- `b->next->prev = b->prev; b->prev->next = b->next;` -/
def unlink (l : Links ν) (b : ν) : Links ν :=
  let l := { l with prev := Function.update l.prev (l.next b) (l.prev b) }
  { l with next := Function.update l.next (l.prev b) (l.next b) }

/-- `b->next = head->next; b->prev = head; head->next->prev = b; head->next = b;` -/
def push (l : Links ν) (head b : ν) : Links ν :=
  let l := { l with next := Function.update l.next b (l.next head) }
  let l := { l with prev := Function.update l.prev b head }
  let l := { l with prev := Function.update l.prev (l.next head) b }
  { l with next := Function.update l.next head b }

/-- Unlinking an element leaves the circle of the others. -/
theorem Cycle.unlink {head : ν} (cycle : l.Cycle head (xs ++ b :: ys)) : (l.unlink b).Cycle head (xs ++ ys) := by
  obtain ⟨distinct, path⟩ := cycle
  obtain ⟨before, after⟩ := path_append.mp path
  obtain ⟨_, back⟩ := before.ends
  have parts : (head :: xs).Nodup ∧ (b :: ys).Nodup ∧ ∀ y ∈ head :: xs, ∀ z ∈ b :: ys, y ≠ z :=
    List.nodup_append.mp (show ((head :: xs) ++ b :: ys).Nodup from distinct)
  obtain ⟨left, right, apart⟩ := parts
  have member := final_mem head xs
  -- the two stores meet the neighbours only
  have stored : (l.unlink b).next = Function.update l.next (final head xs) (l.next b) := by
    have unchanged : Function.update l.prev (l.next b) (l.prev b) b = l.prev b := by
      by_cases same : b = l.next b
      · rw [← same, Function.update_self]
      · exact Function.update_of_ne same _ _
    show Function.update l.next (Function.update l.prev (l.next b) (l.prev b) b) (l.next b) = _
    rw [unchanged, back]
  have next : ∀ y, y ≠ final head xs → (l.unlink b).next y = l.next y := by
    intro y other
    rw [stored]
    exact Function.update_of_ne other _ _
  have forth : (l.unlink b).next (final head xs) = l.next b := by
    rw [stored, Function.update_self]
  have prev : ∀ y, y ≠ l.next b → (l.unlink b).prev y = l.prev y :=
    fun y other => Function.update_of_ne other _ _
  have link : (l.unlink b).prev (l.next b) = final head xs := by
    show Function.update l.prev (l.next b) (l.prev b) (l.next b) = _
    rw [Function.update_self, back]
  refine ⟨?_, ?_⟩
  · show ((head :: xs) ++ ys).Nodup
    rw [List.nodup_append]
    exact ⟨left, (List.nodup_cons.mp right).2, fun y first z second => apart y first z (List.mem_cons_of_mem b second)⟩
  · cases ys with
    | nil =>
      obtain ⟨ends, _⟩ := after
      rw [List.append_nil]
      rw [ends] at forth prev link
      apply before.retarget left (fun y _ other => next y other)
      · intro y inside
        apply prev
        rintro rfl
        exact (List.nodup_cons.mp left).1 inside
      · exact forth
      · exact link
    | cons y ys =>
      obtain ⟨ends, _, rest⟩ := after
      rw [ends] at forth prev link
      rw [path_append]
      have fresh : ∀ z ∈ head :: xs, z ≠ y := by
        intro z inside
        exact apart z inside y (by simp)
      refine ⟨?_, ?_⟩
      · apply before.retarget left (fun z _ other => next z other)
        · intro z inside
          exact prev z (fresh z (List.mem_cons_of_mem head inside))
        · exact forth
        · exact link
      · apply rest.congr
        · intro z inside
          apply next
          rintro rfl
          exact apart _ member _ (List.mem_cons_of_mem b inside) rfl
        · intro z inside
          apply prev
          rintro rfl
          rw [List.mem_append, List.mem_singleton] at inside
          rcases inside with later | first
          · exact (List.nodup_cons.mp (List.nodup_cons.mp right).2).1 later
          · exact fresh head List.mem_cons_self first.symm

/-- A node that is not on the circle is inserted behind the head. -/
theorem Cycle.push {head : ν} (cycle : l.Cycle head xs) (fresh : b ∉ head :: xs) :
    (l.push head b).Cycle head (b :: xs) := by
  obtain ⟨distinct, path⟩ := cycle
  rw [List.mem_cons, not_or] at fresh
  obtain ⟨headNode, outside⟩ := fresh
  obtain ⟨headOut, inner⟩ := List.nodup_cons.mp distinct
  have next : ∀ y, y ≠ head → y ≠ b → (l.push head b).next y = l.next y := by
    intro y other different
    show Function.update (Function.update l.next b (l.next head)) head b y = l.next y
    rw [Function.update_of_ne other, Function.update_of_ne different]
  have first : (l.push head b).next head = b := Function.update_self _ _ _
  have second : (l.push head b).next b = l.next head := by
    show Function.update (Function.update l.next b (l.next head)) head b b = l.next head
    rw [Function.update_of_ne headNode, Function.update_self]
  have pushed : (l.push head b).prev = Function.update (Function.update l.prev b head) (l.next head) b := by
    show Function.update (Function.update l.prev b head) (Function.update l.next b (l.next head) head) b = _
    rw [Function.update_of_ne (Ne.symm headNode)]
  have link : (l.push head b).prev (l.next head) = b := by
    rw [pushed, Function.update_self]
  have prev : ∀ y, y ≠ b → y ≠ l.next head → (l.push head b).prev y = l.prev y := by
    intro y other different
    rw [pushed, Function.update_of_ne different, Function.update_of_ne other]
  have back : b ≠ l.next head → (l.push head b).prev b = head := by
    intro other
    rw [pushed, Function.update_of_ne other, Function.update_self]
  refine ⟨?_, first, ?_, ?_⟩
  · rw [List.nodup_cons, List.mem_cons, not_or, List.nodup_cons]
    exact ⟨⟨Ne.symm headNode, headOut⟩, outside, inner⟩
  · apply back
    cases xs with
    | nil =>
      rw [path.1]
      exact headNode
    | cons x xs =>
      rw [path.1]
      rintro rfl
      exact outside List.mem_cons_self
  · cases xs with
    | nil =>
      obtain ⟨ends, _⟩ := path
      rw [ends] at second link
      exact ⟨second, link⟩
    | cons x xs =>
      obtain ⟨ends, _, rest⟩ := path
      rw [ends] at second link prev
      refine ⟨second, link, ?_⟩
      apply rest.congr
      · intro y inside
        apply next
        · rintro rfl
          exact headOut inside
        · rintro rfl
          exact outside inside
      · intro y inside
        rw [List.mem_append, List.mem_singleton] at inside
        apply prev
        · rintro rfl
          rcases inside with later | same
          · exact outside (List.mem_cons_of_mem x later)
          · exact headNode same
        · rintro rfl
          rcases inside with later | same
          · exact (List.nodup_cons.mp inner).1 later
          · exact headOut (same ▸ List.mem_cons_self)

end Operations

/-! ## The other way round -/

/-- The same nodes with the pointers exchanged. -/
def flip (l : Links ν) : Links ν := ⟨l.prev, l.next⟩

/-- A path is a path back. -/
theorem Path.flip (path : l.Path a xs b) : l.flip.Path b xs.reverse a := by
  induction xs generalizing a with
  | nil => exact ⟨path.2, path.1⟩
  | cons x xs ih =>
    obtain ⟨first, link, rest⟩ := path
    rw [List.reverse_cons, path_append]
    exact ⟨ih rest, link, first⟩

/-- A circle is a circle back. -/
theorem Cycle.flip {head : ν} (cycle : l.Cycle head xs) : l.flip.Cycle head xs.reverse := by
  refine ⟨?_, cycle.path.flip⟩
  rw [List.nodup_cons, List.mem_reverse, List.nodup_reverse]
  exact List.nodup_cons.mp cycle.distinct

/-! ## Searching -/

/-- `for(b = from; b != head; b = next(b)) if(test(b)) return b;` with the answer `none` in the
argument of `some` when the head is reached. -/
def find [DecidableEq ν] (l : Links ν) (head : ν) (test : ν → Bool) : Nat → ν → Option (Option ν)
  | 0, _ => none
  | fuel + 1, b =>
    if b = head then some none
    else if test b then some (some b)
    else l.find head test fuel (l.next b)

/-- A search along a circle ends, and finds what a search of its nodes finds. -/
theorem Cycle.find_eq [DecidableEq ν] {head : ν} (cycle : l.Cycle head xs) (test : ν → Bool) {fuel : Nat}
    (enough : xs.length < fuel) : l.find head test fuel (l.next head) = some (xs.find? test) := by
  have along : ∀ (xs : List ν) (a : ν) (fuel : Nat), l.Path a xs head → head ∉ xs → xs.length < fuel →
      l.find head test fuel (l.next a) = some (xs.find? test) := by
    intro xs
    induction xs with
    | nil =>
      intro a fuel path _ enough
      obtain ⟨fuel, rfl⟩ := Nat.exists_eq_succ_of_ne_zero (Nat.ne_of_gt enough)
      rw [path.1, find, if_pos rfl]
      rfl
    | cons x xs ih =>
      intro a fuel path outside enough
      rw [List.length_cons] at enough
      obtain ⟨fuel, rfl⟩ := Nat.exists_eq_succ_of_ne_zero (show fuel ≠ 0 by omega)
      rw [List.mem_cons, not_or] at outside
      rw [path.1, find, if_neg (Ne.symm outside.1)]
      by_cases hit : test x = true
      · rw [if_pos hit, List.find?_cons_of_pos hit]
      · rw [if_neg hit, List.find?_cons_of_neg hit]
        exact ih x fuel path.2.2 outside.2 (by omega)
  exact along xs head fuel cycle.path (List.nodup_cons.mp cycle.distinct).1 enough

end Links
