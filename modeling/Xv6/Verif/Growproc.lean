import Xv6.UserPages
import Xv6.Verif.NewPages

/-!
# `growproc`

Where `growproc` does what its comment says: grow or shrink the memory by `n` bytes, or fail and leave
everything as it was. A size of 0 is also what `allocuvm` and `deallocuvm` return for an error, and a
sum below 0 wraps around.
-/

namespace Xv6

/-- Exactly the pages below `newsz` are mapped, the old ones as they were and the new ones zero. -/
structure Resized (m : Memory) (d sz newsz : Nat) (m' : Memory) : Prop where
  /-- The pages below the new size are mapped. -/
  mapped : ∀ pn < USERPAGES, (m'.mapping d pn).isSome = true ↔ pn * PGSIZE < newsz
  /-- The old ones have the same frames and permissions. -/
  old : ∀ pn < USERPAGES, pn * PGSIZE < sz → pn * PGSIZE < newsz → m'.mapping d pn = m.mapping d pn
  /-- They have the same contents. -/
  contents : ∀ pn < USERPAGES, pn * PGSIZE < sz → pn * PGSIZE < newsz → ∀ w, m.mapping d pn = some w →
    m'.word (w / PGSIZE) = m.word (w / PGSIZE)
  /-- The new ones are zero. -/
  new : ∀ pn < USERPAGES, sz ≤ pn * PGSIZE → ∀ w, m'.mapping d pn = some w → ∀ i, m'.word (w / PGSIZE) i = 0

/-- The user mappings and the contents of the user pages are the same. -/
structure Untouched (m : Memory) (d : Nat) (m' : Memory) : Prop where
  mapping : ∀ pn < USERPAGES, m'.mapping d pn = m.mapping d pn
  contents : ∀ pn < USERPAGES, ∀ w, m.mapping d pn = some w → m'.word (w / PGSIZE) = m.word (w / PGSIZE)

/-- What `growproc` must do: resize if the new size is one of a process and there are enough free
pages, and otherwise fail without a change. -/
def GrowsExactly (m : Memory) (d sz : Nat) (n : Int) (result : Int × Nat) (m' : Memory) : Prop :=
  if 0 ≤ sz + n ∧ sz + n < KERNBASE ∧ pagesNeeded m d (pagesBetween sz (sz + n).toNat) ≤ m.free.length then
    result = (0, (sz + n).toNat) ∧ Resized m d sz (sz + n).toNat m'
  else result = (-1, sz) ∧ Untouched m d m'

section Sizes

variable {k : KernelImage} {m m' : Memory} {d sz newsz : Nat} {n : Int}

/-- Nothing has changed. -/
theorem Untouched.refl (m : Memory) (d : Nat) : Untouched m d m := ⟨fun _ _ => rfl, fun _ _ _ _ => rfl⟩

/-- The frame of a user page is none of the pages that growing changes. -/
theorem Stretched.contents {pages : List Nat} (stretched : Stretched k m d pages m') (own : OwnPages k m d) {pn w : Nat}
    (user : pn < USERPAGES) (mapped : m.mapping d pn = some w) : m'.word (w / PGSIZE) = m.word (w / PGSIZE) := by
  obtain ⟨_, missing, apart, untabled⟩ := own.page pn user w mapped
  exact stretched.kept _ missing apart untabled

/-- A directory that is reverted is untouched. -/
theorem Reverted.untouched (reverted : Reverted k m d m') (own : OwnPages k m d) : Untouched m d m' := by
  refine ⟨fun pn user => reverted.mapping pn (user_inside user), fun pn user w mapped => ?_⟩
  obtain ⟨_, missing, apart, untabled⟩ := own.page pn user w mapped
  exact reverted.kept _ missing apart untabled

/-- Growing over pages that were not mapped resizes. -/
theorem Stretched.resized (stretched : Stretched k m d (pagesBetween sz newsz) m') (own : OwnPages k m d)
    (single : ∀ pn < USERPAGES, (m.mapping d pn).isSome = true ↔ pn * PGSIZE < sz) (larger : sz ≤ newsz) :
    Resized m d sz newsz m' := by
  have outside : ∀ pn, pn * PGSIZE < sz → pn ∉ pagesBetween sz newsz := by
    intro pn below member
    exact absurd ((mem_pagesBetween sz newsz pn).mp member).1 (Nat.not_le.mpr below)
  refine ⟨fun pn user => ?_, fun pn user below _ => ?_, fun pn user _ _ w mapped => stretched.contents own user mapped,
    fun pn user above w mapped i => ?_⟩
  · by_cases new : pn ∈ pagesBetween sz newsz
    · obtain ⟨f, _, mapped, _⟩ := stretched.fresh pn new
      rw [mapped]
      exact ⟨fun _ => ((mem_pagesBetween sz newsz pn).mp new).2, fun _ => rfl⟩
    · rw [stretched.mapping pn (user_inside user) new, single pn user]
      rw [mem_pagesBetween] at new
      omega
  · exact stretched.mapping pn (user_inside user) (outside pn below)
  · by_cases new : pn ∈ pagesBetween sz newsz
    · obtain ⟨f, _, mapped', zero⟩ := stretched.fresh pn new
      rw [mapped] at mapped'
      cases mapped'
      rw [pteWord_frame f (by decide)]
      exact zero i
    · rw [stretched.mapping pn (user_inside user) new] at mapped
      have there := (single pn user).mp (by rw [mapped]; rfl)
      omega

/-- Unmapping the pages from the new size on resizes. -/
theorem OwnPages.resized (own : OwnPages k m d) (user : sz ≤ KERNBASE)
    (single : ∀ pn < USERPAGES, (m.mapping d pn).isSome = true ↔ pn * PGSIZE < sz) (smaller : newsz ≤ sz) :
    Resized m d sz newsz ((pagesBetween newsz sz).foldl (Memory.unmapPage d) m) := by
  have inside : ∀ pn ∈ pagesBetween newsz sz, pn < USERPAGES := pagesBetween_user user
  have mapping : ∀ pn < USERPAGES, ((pagesBetween newsz sz).foldl (Memory.unmapPage d) m).mapping d pn =
      if pn ∈ pagesBetween newsz sz then none else m.mapping d pn := fun pn user =>
    own.unmapPages_mapping inside (pagesBetween_nodup newsz sz) (user_inside user)
  have outside : ∀ pn, pn * PGSIZE < newsz → pn ∉ pagesBetween newsz sz := by
    intro pn below member
    exact absurd ((mem_pagesBetween newsz sz pn).mp member).1 (Nat.not_le.mpr below)
  refine ⟨fun pn user => ?_, fun pn user _ below => ?_, fun pn user _ below w mapped => ?_, fun pn user above w mapped => ?_⟩
  · rw [mapping pn user]
    by_cases gone : pn ∈ pagesBetween newsz sz
    · rw [if_pos gone]
      have above := ((mem_pagesBetween newsz sz pn).mp gone).1
      exact ⟨nofun, fun below => absurd above (Nat.not_le.mpr below)⟩
    · rw [if_neg gone, single pn user]
      rw [mem_pagesBetween] at gone
      omega
  · rw [mapping pn user, if_neg (outside pn below)]
  · obtain ⟨_, _, _, untabled⟩ := own.page pn user w mapped
    refine own.unmapPages_kept inside (fun pn' member w' mapped' same => outside pn below ?_) untabled
    rw [← own.pages pn' (inside pn' member) pn user w' w mapped' mapped same]
    exact member
  · rw [mapping pn user] at mapped
    split at mapped
    · contradiction
    · have there := (single pn user).mp (by rw [mapped]; rfl)
      omega

/-- The size and the memory suffice, and the result is the new size. -/
theorem GrowsExactly.resized {m' : Memory} (allowed : 0 ≤ sz + n ∧ sz + n < KERNBASE)
    (fits : pagesNeeded m d (pagesBetween sz (sz + n).toNat) ≤ m.free.length) (resized : Resized m d sz (sz + n).toNat m') :
    GrowsExactly m d sz n (0, (sz + n).toNat) m' := by
  unfold GrowsExactly
  rw [if_pos ⟨allowed.1, allowed.2, fits⟩]
  exact ⟨rfl, resized⟩

/-- They do not, and the result is -1. -/
theorem GrowsExactly.failed {m' : Memory}
    (unfit : ¬(0 ≤ sz + n ∧ sz + n < KERNBASE ∧ pagesNeeded m d (pagesBetween sz (sz + n).toNat) ≤ m.free.length))
    (untouched : Untouched m d m') : GrowsExactly m d sz n (-1, sz) m' := by
  unfold GrowsExactly
  rw [if_neg unfit]
  exact ⟨rfl, untouched⟩

/-- No pages are needed for a size that is not larger. -/
theorem pagesBetween_empty (smaller : newsz ≤ sz) : pagesBetween sz newsz = [] := by
  refine List.eq_nil_iff_forall_not_mem.mpr fun pn member => ?_
  obtain ⟨above, below⟩ := (mem_pagesBetween sz newsz pn).mp member
  omega

/-! ## The function -/

/-- `growproc` by a positive number of bytes. -/
theorem growproc_grows (own : OwnPages k m d) (stock : Stock k m)
    (single : ∀ pn < USERPAGES, (m.mapping d pn).isSome = true ↔ pn * PGSIZE < sz) (user : sz < KERNBASE)
    (positive : 0 < n) (high : n < 2 ^ 31) :
    Returns k (Vm.growproc d sz n) m (GrowsExactly m d sz n) := by
  have sum : uint (sz + n) = (sz + n).toNat := by
    unfold KERNBASE at user
    unfold uint
    omega
  have positive_sum : (sz + n).toNat ≠ 0 := by omega
  unfold Vm.growproc
  rw [if_pos positive, sum]
  by_cases below : sz + n < KERNBASE
  · have user' : (sz + n).toNat < KERNBASE := by omega
    have absent : ∀ pn ∈ pagesBetween sz (sz + n).toNat, m.mapping d pn = none := by
      intro pn member
      obtain ⟨above, _⟩ := (mem_pagesBetween _ _ _).mp member
      have inside := pagesBetween_user (Nat.le_of_lt user') pn member
      rw [← Option.not_isSome_iff_eq_none, single pn inside]
      exact Nat.not_lt.mpr above
    refine .bind (allocuvm_exact own stock (by omega) user' absent) fun r m' outcome => ?_
    rcases outcome with ⟨fits, rfl, stretched⟩ | ⟨short, rfl, reverted⟩
    · rw [if_neg positive_sum]
      exact Returns.pure (.resized ⟨by omega, below⟩ (Nat.le.intro fits) (stretched.resized own single (by omega)))
    · rw [if_pos rfl]
      exact Returns.pure (.failed (fun all => absurd all.2.2 (Nat.not_le.mpr short)) (reverted.untouched own))
  · have refused : Vm.allocuvm d sz (sz + n).toNat = Pure.pure 0 := by
      unfold Vm.allocuvm
      exact if_pos (by omega)
    rw [refused]
    exact Returns.pure (.failed (fun all => below all.2.1) (.refl m d))

/-- What `growproc` does for a negative number of bytes. -/
theorem growproc_shrinks (own : OwnPages k m d) (user : sz < KERNBASE) (low : -2 ^ 31 ≤ n) (negative : n < 0) :
    Returns k (Vm.growproc d sz n) m fun r m' =>
      m' = (pagesBetween (uint (sz + n)) sz).foldl (Memory.unmapPage d) m ∧
        r = if 0 < sz + n then (0, (sz + n).toNat) else if sz + n < 0 ∧ 0 < sz then (0, sz) else (-1, sz) := by
  unfold Vm.growproc
  rw [if_neg (Int.not_lt.mpr (Int.le_of_lt negative)), if_pos negative]
  refine .bind (deallocuvm_folds own (Nat.le_of_lt user)) fun r m' known => ?_
  obtain ⟨rfl, rfl⟩ := known
  unfold KERNBASE at user
  by_cases positive : 0 < sz + n
  · have sum : uint (sz + n) = (sz + n).toNat := by
      unfold uint
      omega
    rw [sum, if_pos (show (sz + n).toNat < sz by omega), if_neg (by omega), if_pos positive]
    exact Returns.pure ⟨rfl, rfl⟩
  · rw [if_neg positive]
    by_cases zero : sz + n = 0
    · have sum : uint (sz + n) = 0 := by
        rw [zero]
        rfl
      rw [sum, if_pos (show 0 < sz by omega), if_pos rfl, if_neg (by omega)]
      exact Returns.pure ⟨rfl, rfl⟩
    · have above : sz ≤ uint (sz + n) := by
        unfold uint
        omega
      rw [if_neg (Nat.not_lt.mpr above)]
      by_cases empty : sz = 0
      · rw [if_pos empty, if_neg (by omega)]
        exact Returns.pure ⟨rfl, rfl⟩
      · rw [if_neg empty, if_pos (by omega)]
        exact Returns.pure ⟨rfl, rfl⟩

/-- `growproc` resizes exactly, or fails and leaves everything as it was, unless it shrinks a memory that
is not empty to 0 bytes or fewer. -/
theorem growproc_exact_iff (own : OwnPages k m d) (stock : Stock k m)
    (single : ∀ pn < USERPAGES, (m.mapping d pn).isSome = true ↔ pn * PGSIZE < sz) (user : sz < KERNBASE)
    (low : -2 ^ 31 ≤ n) (high : n < 2 ^ 31) :
    (∃ r m', Program.run (Memory.handler k) (Vm.growproc d sz n) m = .ok (r, m') ∧ GrowsExactly m d sz n r m') ↔
      ¬(n < 0 ∧ 0 < sz ∧ sz + n ≤ 0) := by
  constructor
  · rintro ⟨r, m', ran, exactly⟩ ⟨negative, some_bytes, removed⟩
    obtain ⟨r₁, m₁, ran₁, left, result⟩ := (growproc_shrinks own user low negative).ok
    rw [ran] at ran₁
    cases ran₁
    rw [if_neg (Int.not_lt.mpr removed)] at result
    unfold GrowsExactly at exactly
    by_cases wrapped : sz + n < 0
    · rw [if_neg fun all => absurd all.1 (Int.not_le.mpr wrapped)] at exactly
      rw [if_pos ⟨wrapped, some_bytes⟩] at result
      exact absurd (congrArg Prod.fst (exactly.1.symm.trans result)) (show (-1 : Int) ≠ 0 by decide)
    · rw [if_neg fun both => wrapped both.1] at result
      have allowed : 0 ≤ sz + n ∧ sz + n < KERNBASE := by
        unfold KERNBASE
        omega
      have fits : pagesNeeded m d (pagesBetween sz (sz + n).toNat) ≤ m.free.length := by
        rw [pagesBetween_empty (by omega)]
        exact Nat.zero_le _
      rw [if_pos ⟨allowed.1, allowed.2, fits⟩] at exactly
      exact absurd (congrArg Prod.fst (exactly.1.symm.trans result)) (show (0 : Int) ≠ -1 by decide)
  · intro meets
    by_cases positive : 0 < n
    · exact (growproc_grows own stock single user positive high).ok
    · by_cases negative : n < 0
      · obtain ⟨r, m', ran, left, result⟩ := (growproc_shrinks own user low negative).ok
        refine ⟨r, m', ran, ?_⟩
        by_cases some_left : 0 < sz + n
        · have sum : uint (sz + n) = (sz + n).toNat := by
            unfold KERNBASE at user
            unfold uint
            omega
          rw [if_pos some_left] at result
          rw [sum] at left
          rw [result, left]
          refine .resized ⟨Int.le_of_lt some_left, by omega⟩ ?_ (own.resized (Nat.le_of_lt user) single (by omega))
          rw [pagesBetween_empty (by omega)]
          exact Nat.zero_le _
        · have empty : sz = 0 := by omega
          have wrapped : sz ≤ uint (sz + n) := by
            rw [empty]
            exact Nat.zero_le _
          rw [if_neg some_left, if_neg (by omega)] at result
          have kept : pagesBetween (uint (sz + n)) sz = [] := pagesBetween_empty wrapped
          rw [kept] at left
          rw [result, left]
          exact .failed (fun all => absurd all.1 (by omega)) (.refl m d)
      · have zero : n = 0 := by omega
        have same : (sz + n).toNat = sz := by omega
        have kept : pagesBetween sz (sz + n).toNat = [] := pagesBetween_empty (Nat.le_of_eq same)
        have ran : Vm.growproc d sz n = Pure.pure (0, (sz + n).toNat) := by
          unfold Vm.growproc
          rw [if_neg positive, if_neg negative, same]
        refine ⟨(0, (sz + n).toNat), m, ?_, .resized (by omega) ?_ ?_⟩
        · rw [ran]
          rfl
        · rw [kept]
          exact Nat.zero_le _
        · have resized := own.resized (Nat.le_of_lt user) single (Nat.le_refl sz)
          rw [pagesBetween_empty (Nat.le_refl sz)] at resized
          rw [same]
          exact resized

end Sizes

/-! ## Two pages -/

/-- The free pages of the image with two pages. -/
theorem twoPages_stock : Stock smallKernel twoPages := ⟨by decide, by decide⟩

/-- Its pages are those below 8192. -/
theorem twoPages_single : ∀ pn < USERPAGES, (twoPages.mapping 0x110 pn).isSome = true ↔ pn * PGSIZE < 8192 := by
  intro pn _
  rw [twoPages_mapping]
  by_cases first : pn = 0
  · rw [if_pos first, first]
    decide
  · by_cases second : pn = 1
    · rw [if_neg first, if_pos second, second]
      decide
    · rw [if_neg first, if_neg second]
      unfold PGSIZE
      simp
      omega

/-- A page fewer unmaps the second of two pages. -/
theorem growproc_exact_page : ¬((-4096 : Int) < 0 ∧ 0 < 8192 ∧ ((8192 : Nat) : Int) + -4096 ≤ 0) ∧ ∃ r m',
    Program.run (Memory.handler smallKernel) (Vm.growproc 0x110 8192 (-4096)) twoPages = .ok (r, m') ∧
      GrowsExactly twoPages 0x110 8192 (-4096) r m' :=
  ⟨by decide, (growproc_exact_iff twoPages_own twoPages_stock twoPages_single (by decide) (by decide) (by decide)).mpr
    (by decide)⟩

/-- Shrinking to 0 bytes frees both pages and reports an error; the size of the master stays 8192. -/
theorem growproc_empties : ∃ m', Program.run (Memory.handler smallKernel) (Vm.growproc 0x110 8192 (-8192)) twoPages =
      .ok ((-1, 8192), m') ∧ m'.mapping 0x110 0 = none ∧ m'.mapping 0x110 1 = none ∧
    ¬GrowsExactly twoPages 0x110 8192 (-8192) (-1, 8192) m' := by
  obtain ⟨r, m', ran, left, rfl⟩ :=
    (growproc_shrinks twoPages_own (show 8192 < KERNBASE by decide) (show -2 ^ 31 ≤ (-8192 : Int) by decide) (by decide)).ok
  have gone : ∀ pn ∈ [0, 1], m'.mapping 0x110 pn = none := by
    rw [left]
    decide
  refine ⟨m', ran, gone 0 (by decide), gone 1 (by decide), fun exactly => ?_⟩
  unfold GrowsExactly at exactly
  rw [if_pos (by decide +kernel)] at exactly
  exact absurd (congrArg Prod.fst exactly.1) (by decide)

end Xv6
