import Mathlib.Data.List.Pairwise

/-!
# Lists of extents

Extents are half-open intervals of numbers. A list of them is spaced if each ends before the next
begins, with something between. A further extent that meets none of them has its place between two
of them, where it is put in by itself or joined with one neighbour or both.
-/

/-- The numbers from `start` to before `stop`. -/
structure Extent where
  /-- The first number. -/
  start : Nat
  /-- The number after the last. -/
  stop : Nat
  deriving DecidableEq

namespace Extent

variable {a b c m p r : Extent} {xs front above above' : List Extent}

/-- Two extents have no number in common. -/
def Apart (a b : Extent) : Prop := a.stop ≤ b.start ∨ b.stop ≤ a.start

/-- The extents are in order, and something is between each and the next. -/
def Spaced (xs : List Extent) : Prop := xs.Pairwise fun x y => x.stop < y.start

/-- Being apart is symmetric. -/
theorem Apart.symm (apart : Apart a b) : Apart b a := Or.symm apart

/-- So that any two members of a list of extents apart from each other may be compared. -/
instance : Std.Symm Apart := ⟨fun _ _ => Apart.symm⟩

/-- What is apart from two extents is apart from the two joined. -/
theorem Apart.join (left : Apart c a) (right : Apart c b) (touch : a.stop = b.start)
    (nonempty : c.start < c.stop) : Apart c ⟨a.start, b.stop⟩ := by
  simp only [Apart] at left right ⊢
  omega

/-- What is apart from an extent is apart from its parts. -/
theorem Apart.part (apart : Apart c a) (start : a.start ≤ b.start) (stop : b.stop ≤ a.stop) :
    Apart c b := by
  simp only [Apart] at apart ⊢
  omega

/-- An extent apart from those of a list has its place between them. -/
theorem Spaced.place (spaced : Spaced xs) (proper : ∀ r ∈ xs, r.start ≤ r.stop)
    (apart : ∀ r ∈ xs, Apart b r) :
    ∃ below above, xs = below ++ above ∧ (∀ r ∈ below, r.stop ≤ b.start) ∧
      ∀ r ∈ above, b.stop ≤ r.start := by
  induction xs with
  | nil => exact ⟨[], [], rfl, by simp, by simp⟩
  | cons r xs ih =>
    obtain ⟨first, rest⟩ := List.pairwise_cons.mp spaced
    rcases apart r (List.mem_cons_self ..) with before | after
    · refine ⟨[], r :: xs, rfl, by simp, fun y member => ?_⟩
      rcases List.mem_cons.mp member with rfl | later
      · exact before
      · have gap := first y later
        have := proper r (List.mem_cons_self ..)
        omega
    · obtain ⟨below, above, rfl, lower, upper⟩ := ih rest
        (fun y member => proper y (List.mem_cons_of_mem r member))
        (fun y member => apart y (List.mem_cons_of_mem r member))
      refine ⟨r :: below, above, rfl, fun y member => ?_, upper⟩
      rcases List.mem_cons.mp member with rfl | later
      · exact after
      · exact lower y later

/-- The extents before one of a spaced list end before it. -/
theorem Spaced.front_lt (spaced : Spaced (front ++ p :: above)) (member : r ∈ front) :
    r.stop < p.start :=
  (List.pairwise_append.mp spaced).2.2 r member p (List.mem_cons_self ..)

/-- An extent is put in by itself. -/
theorem Spaced.insert (spaced : Spaced (front ++ p :: above)) (sublist : above'.Sublist above)
    (proper : p.start ≤ p.stop) (gap : p.stop < m.start) (order : m.start ≤ m.stop)
    (before : ∀ r ∈ above', m.stop < r.start) : Spaced (front ++ p :: m :: above') := by
  obtain ⟨lower, upper, between⟩ := List.pairwise_append.mp spaced
  have fromP := List.pairwise_cons.mp upper
  refine List.pairwise_append.mpr ⟨lower, ?_, fun x inFront y inBack => ?_⟩
  · refine List.pairwise_cons.mpr ⟨fun y inBack => ?_, List.pairwise_cons.mpr ⟨before, ?_⟩⟩
    · rcases List.mem_cons.mp inBack with rfl | later
      · exact gap
      · exact fromP.1 y (sublist.subset later)
    · exact fromP.2.sublist sublist
  · have start := spaced.front_lt inFront
    rcases List.mem_cons.mp inBack with rfl | inRest
    · exact start
    · rcases List.mem_cons.mp inRest with rfl | later
      · omega
      · exact between x inFront y (List.mem_cons_of_mem p (sublist.subset later))

/-- An extent is joined to the one before it. -/
theorem Spaced.extend (spaced : Spaced (front ++ p :: above)) (sublist : above'.Sublist above)
    (before : ∀ r ∈ above', m.stop < r.start) :
    Spaced (front ++ ⟨p.start, m.stop⟩ :: above') := by
  obtain ⟨lower, upper, between⟩ := List.pairwise_append.mp spaced
  refine List.pairwise_append.mpr ⟨lower, ?_, fun x inFront y inBack => ?_⟩
  · exact List.pairwise_cons.mpr ⟨before, (List.pairwise_cons.mp upper).2.sublist sublist⟩
  · rcases List.mem_cons.mp inBack with rfl | later
    · exact spaced.front_lt inFront
    · exact between x inFront y (List.mem_cons_of_mem p (sublist.subset later))

/-- An extent is cut at its end. -/
theorem Spaced.shrink (spaced : Spaced (front ++ p :: above)) (start : r.start = p.start)
    (stop : r.stop ≤ p.stop) : Spaced (front ++ r :: above) := by
  obtain ⟨lower, upper, between⟩ := List.pairwise_append.mp spaced
  obtain ⟨first, rest⟩ := List.pairwise_cons.mp upper
  refine List.pairwise_append.mpr ⟨lower, ?_, fun x inFront y inBack => ?_⟩
  · exact List.pairwise_cons.mpr ⟨fun y member => Nat.lt_of_le_of_lt stop (first y member), rest⟩
  · rcases List.mem_cons.mp inBack with rfl | later
    · exact start ▸ spaced.front_lt inFront
    · exact between x inFront y (List.mem_cons_of_mem p later)

/-- One of a spaced list is apart from the others. -/
theorem Spaced.apart (spaced : Spaced (front ++ p :: above)) (member : r ∈ front ++ above) :
    Apart p r := by
  rcases List.mem_append.mp member with inFront | inAbove
  · exact Or.inr (Nat.le_of_lt (spaced.front_lt inFront))
  · have after := (List.pairwise_cons.mp (List.pairwise_append.mp spaced).2.1).1 r inAbove
    exact Or.inl (Nat.le_of_lt after)

end Extent
