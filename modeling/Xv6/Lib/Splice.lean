import Mathlib.Data.List.GetD

/-!
# Splicing a list

Writing a list over another one from an offset on, extending it where the offset plus the
length lies past its end. Offsets past the end are not meant: nothing fills the gap.
-/

namespace Splice

variable {α : Type}

/-- Write `src` over `bytes` from `off` on. -/
def splice (bytes : List α) (off : Nat) (src : List α) : List α :=
  bytes.take off ++ (src ++ bytes.drop (off + src.length))

/-- The length reaches the end of what was written. -/
theorem length_splice {bytes : List α} {off : Nat} (src : List α) (inside : off ≤ bytes.length) :
    (splice bytes off src).length = max bytes.length (off + src.length) := by
  simp only [splice, List.length_append, List.length_take, List.length_drop]
  omega

/-- Writing at the end appends. -/
theorem splice_end (bytes src : List α) : splice bytes bytes.length src = bytes ++ src := by
  have past : bytes.drop (bytes.length + src.length) = [] := List.drop_eq_nil_of_le (Nat.le_add_right _ _)
  rw [splice, List.take_length, past, List.append_nil]

/-- Elements below the offset stay. -/
theorem getElem?_splice_before {bytes src : List α} {off i : Nat} (inside : off ≤ bytes.length)
    (before : i < off) : (splice bytes off src)[i]? = bytes[i]? := by
  have short : i < (bytes.take off).length := by
    rw [List.length_take]
    omega
  rw [splice, List.getElem?_append_left short, List.getElem?_take, if_pos before]

/-- Elements of the written range are those of the source. -/
theorem getElem?_splice_within {bytes src : List α} {off i : Nat} (inside : off ≤ bytes.length)
    (from_off : off ≤ i) (below : i < off + src.length) :
    (splice bytes off src)[i]? = src[i - off]? := by
  have taken : (bytes.take off).length = off := by
    rw [List.length_take]
    omega
  have past : (bytes.take off).length ≤ i := by omega
  rw [splice, List.getElem?_append_right past, taken, List.getElem?_append_left (by omega)]

/-- Elements past the written range stay. -/
theorem getElem?_splice_after {bytes src : List α} {off i : Nat} (inside : off ≤ bytes.length)
    (past : off + src.length ≤ i) : (splice bytes off src)[i]? = bytes[i]? := by
  have taken : (bytes.take off).length = off := by
    rw [List.length_take]
    omega
  have beyond : (bytes.take off).length ≤ i := by omega
  rw [splice, List.getElem?_append_right beyond, taken, List.getElem?_append_right (by omega),
    List.getElem?_drop]
  congr 1
  omega

end Splice
