import Xv6.Verif.KernelHalf
import Xv6.Verif.Growproc

/-!
# Bytes of user pages

`copyout` for every range of addresses, also one that wraps around: the bytes before the first page
that is absent or not for the user are written, and nothing else. What follows depends on whether that
page has a page table: `uva2ka` does not test the null pointer of `walkpgdir`.
-/

namespace Xv6

/-- A byte of a page. -/
def Memory.byte (m : Memory) (f o : Nat) : Nat := m.word f (o / 4) / 256 ^ (o % 4) % 256

/-- The frame of a page that is present and that the user can access. -/
def Memory.userFrame (m : Memory) (d pn : Nat) : Option Nat :=
  ((m.mapping d pn).filter fun w => w / PTE_U % 2 ≠ 0).map (· / PGSIZE)

/-- The page of the address is present and the user can access it. -/
def Memory.Accessible (m : Memory) (d va : Nat) : Prop := (m.userFrame d (va / PGSIZE)).isSome

/-- The directory has a page table for the address. -/
def Memory.HasTable (m : Memory) (d va : Nat) : Prop := (frameOf (m.word d (va / PGSIZE / NPDENTRIES))).isSome

/-- The byte at offset `o` of the frame is the one at the address. -/
def Memory.At (m : Memory) (d va f o : Nat) : Prop := m.userFrame d (va / PGSIZE) = some f ∧ o = va % PGSIZE

/-- The pages that the user can access are distinct, and none of them is free or a page of the
directory itself. -/
structure UserDirectory (m : Memory) (d : Nat) : Prop where
  /-- The directory is no free page. -/
  dir : d ∉ m.free
  /-- Neither are its page tables. -/
  table : ∀ i < NPDENTRIES, ∀ t, frameOf (m.word d i) = some t → t ∉ m.free
  /-- The pages are not free, not the directory and no page tables. -/
  page : ∀ pn < TABLEPAGES, ∀ f, m.userFrame d pn = some f → f ∉ m.free ∧ f ≠ d ∧ ∀ i < NPDENTRIES, frameOf (m.word d i) ≠ some f
  /-- They are distinct. -/
  pages : ∀ pn < TABLEPAGES, ∀ pn' < TABLEPAGES, ∀ f, m.userFrame d pn = some f → m.userFrame d pn' = some f → pn = pn'

section Bytes

variable {k : KernelImage} {m m' m₁ : Memory} {d f g i j o va w : Nat}

/-- The bytes of a word in which one was replaced. -/
theorem withByte_byte (w : Nat) (value : UInt8) (low : i < 4) (small : j < 4) :
    withByte w i value / 256 ^ j % 256 = if j = i then value.toNat else w / 256 ^ j % 256 := by
  have bound : value.toNat < 256 := value.toNat_lt
  unfold withByte
  have places : (i = 0 ∨ i = 1 ∨ i = 2 ∨ i = 3) ∧ (j = 0 ∨ j = 1 ∨ j = 2 ∨ j = 3) := by omega
  obtain ⟨rfl | rfl | rfl | rfl, rfl | rfl | rfl | rfl⟩ := places <;>
    simp only [Nat.pow_zero, Nat.reducePow, Nat.reduceEqDiff, reduceIte] <;> omega

/-- A byte that was stored, and the others. -/
theorem Memory.set_byte (m : Memory) (f o g p : Nat) (value : UInt8) :
    (m.set f (o / 4) (withByte (m.word f (o / 4)) (o % 4) value)).byte g p =
      if g = f ∧ p = o then value.toNat else m.byte g p := by
  have low : o % 4 < 4 := Nat.mod_lt o (by decide)
  have small : p % 4 < 4 := Nat.mod_lt p (by decide)
  unfold Memory.byte
  by_cases page : g = f
  · rw [page]
    by_cases word : p / 4 = o / 4
    · rw [word, Memory.set_same, withByte_byte _ value low small]
      by_cases here : p = o
      · rw [if_pos (by rw [here]), if_pos ⟨rfl, here⟩]
      · rw [if_neg (by omega), if_neg (by omega)]
    · rw [Memory.set_index word, if_neg (by rintro ⟨_, rfl⟩; exact word rfl)]
  · rw [Memory.set_other page, if_neg (by rintro ⟨same, _⟩; exact page same)]

/-- Bytes stored into a page from an offset on. -/
theorem storeBytes_writes (missing : f ∉ m.free) (offset : Nat) (bytes : List UInt8) :
    Returns k (Vm.storeBytes f offset bytes) m fun _ m' => m'.free = m.free ∧ (∀ g, g ≠ f → m'.word g = m.word g) ∧
      ∀ o, m'.byte f o = if offset ≤ o ∧ o < offset + bytes.length then (bytes.getD (o - offset) 0).toNat else m.byte f o := by
  induction bytes generalizing m offset with
  | nil =>
    refine Returns.pure ⟨rfl, fun _ _ => rfl, fun o => ?_⟩
    rw [if_neg (by rw [List.length_nil]; omega)]
  | cons byte rest ih =>
    unfold Vm.storeBytes
    refine .bind (Vm.load_returns missing _) fun w m₁ known => ?_
    obtain ⟨rfl, rfl⟩ := known
    refine .bind (Vm.store_returns missing _ _) fun _ m₂ known => ?_
    subst known
    have missing' : f ∉ (m₁.set f (offset / 4) (withByte (m₁.word f (offset / 4)) (offset % 4) byte)).free := missing
    refine (ih missing' (offset + 1)).mono fun _ m' left => ⟨left.1, fun g other => ?_, fun o => ?_⟩
    · rw [left.2.1 g other, Memory.set_other other]
    · rw [left.2.2 o, Memory.set_byte, List.length_cons]
      by_cases first : o = offset
      · rw [if_neg (by omega), if_pos ⟨rfl, first⟩, if_pos (by omega), first, Nat.sub_self]
        rfl
      · rw [if_neg (show ¬(f = f ∧ o = offset) from fun both => first both.2)]
        by_cases within : offset + 1 ≤ o ∧ o < offset + 1 + rest.length
        · have next : o - offset = o - (offset + 1) + 1 := by omega
          rw [if_pos within, if_pos (by omega), next, List.getD_cons_succ]
        · rw [if_neg within, if_neg (by omega)]

end Bytes

/-! ## `copyout` -/

/-- The first `n` bytes were written from the address on, and no others. -/
structure CopiedBytes (m : Memory) (d va : Nat) (buf : List UInt8) (n : Nat) (m' : Memory) : Prop where
  free : m'.free = m.free
  same : SameTables m d m'
  /-- The bytes that were written. -/
  written : ∀ j < n, ∀ f o, m.At d ((va + j) % 2 ^ 32) f o → m'.byte f o = (buf.getD j 0).toNat
  /-- The other bytes. -/
  kept : ∀ f o, (∀ j < n, ¬m.At d ((va + j) % 2 ^ 32) f o) → m'.byte f o = m.byte f o
  /-- The pages that the user cannot access. -/
  words : ∀ g, (∀ pn < TABLEPAGES, m.userFrame d pn ≠ some g) → m'.word g = m.word g

section Copies

variable {k : KernelImage} {m m' m₁ : Memory} {d f n pn t va o : Nat} {buf : List UInt8}

/-- The same tables have the same pages for the user. -/
theorem SameTables.userFrame (same : SameTables m d m') (inside : pn < TABLEPAGES) : m'.userFrame d pn = m.userFrame d pn := by
  unfold Memory.userFrame
  rw [same.mapping inside]

/-- An unsigned integer has 32 bits. -/
theorem uint_lt (n : Int) : uint n < 2 ^ 32 := by
  unfold uint
  omega

/-- An address has a page number. -/
theorem address_page (word : va < 2 ^ 32) : va / PGSIZE < TABLEPAGES := by
  unfold TABLEPAGES NPDENTRIES PGSIZE
  omega

/-- The same tables have the same bytes at an address. -/
theorem SameTables.at (same : SameTables m d m') (word : va < 2 ^ 32) : m'.At d va f o ↔ m.At d va f o := by
  unfold Memory.At
  rw [same.userFrame (address_page word)]

/-- The directory as long as its tables and the free pages are the same. -/
theorem UserDirectory.congr (dir : UserDirectory m d) (free : m'.free = m.free) (same : SameTables m d m') : UserDirectory m' d := by
  refine ⟨free ▸ dir.dir, ?_, fun pn inside f found => ?_, fun pn inside pn' inside' f found found' => ?_⟩
  · rw [same.1, free]
    exact dir.table
  · rw [same.userFrame inside] at found
    rw [same.1, free]
    exact dir.page pn inside f found
  · rw [same.userFrame inside] at found
    rw [same.userFrame inside'] at found'
    exact dir.pages pn inside pn' inside' f found found'

/-- A byte has one address. -/
theorem UserDirectory.one_address (dir : UserDirectory m d) {va' : Nat} (word : va < 2 ^ 32) (word' : va' < 2 ^ 32)
    (here : m.At d va f o) (there : m.At d va' f o) : va = va' := by
  have page := dir.pages _ (address_page word) _ (address_page word') f here.1 there.1
  have offset := here.2.symm.trans there.2
  unfold PGSIZE at *
  omega

/-- Nothing was written. -/
theorem CopiedBytes.refl : CopiedBytes m d va buf 0 m :=
  ⟨rfl, ⟨rfl, fun _ _ _ _ => rfl⟩, fun j low => absurd low (Nat.not_lt_zero j), fun _ _ _ => rfl, fun _ _ => rfl⟩

/-- The bytes of the first page were written. -/
theorem UserDirectory.first (dir : UserDirectory m d) (word : va < 2 ^ 32) (frame : m.userFrame d (va / PGSIZE) = some f)
    (fits : va % PGSIZE + n ≤ PGSIZE) (within : n ≤ buf.length) :
    Returns k (Vm.storeBytes f (va % PGSIZE) (buf.take n)) m fun _ m' => CopiedBytes m d va buf n m' := by
  obtain ⟨missing, apart, untabled⟩ := dir.page _ (address_page word) f frame
  have address : ∀ j < n, (va + j) % 2 ^ 32 / PGSIZE = va / PGSIZE ∧ (va + j) % 2 ^ 32 % PGSIZE = va % PGSIZE + j := by
    intro j low
    unfold PGSIZE at *
    omega
  have length : (buf.take n).length = n := by rw [List.length_take, Nat.min_eq_left within]
  refine (storeBytes_writes missing _ _).mono fun _ m' left => ?_
  obtain ⟨free, kept, bytes⟩ := left
  rw [length] at bytes
  refine ⟨free, .of_kept apart untabled kept, fun j low g o here => ?_, fun g o outside => ?_, fun g other => kept g ?_⟩
  · obtain ⟨page, offset⟩ := address j low
    have there := here.1
    rw [page, frame] at there
    cases there
    rw [bytes o, here.2, offset, if_pos (by omega), Nat.add_sub_cancel_left, List.getD_eq_getElem?_getD,
      List.getElem?_take_of_lt low, List.getD_eq_getElem?_getD]
  · by_cases page : g = f
    · rw [page, bytes o]
      refine if_neg fun inside => ?_
      obtain ⟨first, offset⟩ := address (o - va % PGSIZE) (by omega)
      refine outside (o - va % PGSIZE) (by omega) ⟨?_, ?_⟩
      · rw [first, page]
        exact frame
      · rw [offset]
        omega
    · unfold Memory.byte
      rw [kept g page]
  · rintro rfl
    exact other _ (address_page word) frame

/-- The bytes of the first page and the others. -/
theorem CopiedBytes.trans (first : CopiedBytes m d va buf n m₁) (dir : UserDirectory m d) {va' more : Nat}
    (later : CopiedBytes m₁ d va' (buf.drop n) more m') (bound : n + more ≤ 2 ^ 32)
    (next : ∀ j < more, (va' + j) % 2 ^ 32 = (va + (n + j)) % 2 ^ 32) : CopiedBytes m d va buf (n + more) m' := by
  have word : ∀ a, a % 2 ^ 32 < 2 ^ 32 := fun a => Nat.mod_lt a (by decide)
  refine ⟨later.free.trans first.free, first.same.trans later.same, fun j low f o here => ?_, fun f o outside => ?_,
    fun g other => ?_⟩
  · by_cases early : j < n
    · rw [later.kept f o fun i small there => ?_, first.written j early f o here]
      rw [next i small, first.same.at (word _)] at there
      have same := dir.one_address (word _) (word _) here there
      omega
    · have index : n + (j - n) = j := by omega
      have there : m₁.At d ((va' + (j - n)) % 2 ^ 32) f o := by
        rw [next _ (by omega), index, first.same.at (word _)]
        exact here
      rw [later.written (j - n) (by omega) f o there, List.getD_eq_getElem?_getD, List.getElem?_drop, index,
        List.getD_eq_getElem?_getD]
  · rw [later.kept f o fun i small there => ?_, first.kept f o fun j early here => outside j (by omega) here]
    rw [next i small, first.same.at (word _)] at there
    exact outside (n + i) (by omega) there
  · rw [later.words g fun pn inside => ?_, first.words g other]
    rw [first.same.userFrame inside]
    exact other pn inside

/-- The bytes that go to the first page. -/
def firstPart (va : Nat) (buf : List UInt8) : Nat := min (PGSIZE - va % PGSIZE) buf.length

/-- The addresses of the first part are on the first page. -/
theorem firstPart_page {j : Nat} (word : va < 2 ^ 32) (low : j < firstPart va buf) : (va + j) % 2 ^ 32 / PGSIZE = va / PGSIZE := by
  have room : j < PGSIZE - va % PGSIZE := Nat.lt_of_lt_of_le low (Nat.min_le_left ..)
  unfold PGSIZE at *
  omega

/-- `uva2ka` of an address with a page table. -/
theorem UserDirectory.uva2ka (dir : UserDirectory m d) (word : va < 2 ^ 32) (table : m.HasTable d va) :
    Returns k (Vm.uva2ka d (va / PGSIZE * PGSIZE)) m fun r m' => m' = m ∧ r = m.userFrame d (va / PGSIZE) := by
  obtain ⟨t, named⟩ := Option.isSome_iff_exists.mp table
  have missing := dir.table _ (table_index (address_page word)) t named
  exact uva2ka_reads dir.dir missing named (Nat.mul_div_cancel _ (by decide))

/-- `uva2ka` of an address without a page table follows the null pointer. -/
theorem UserDirectory.uva2ka_traps (dir : UserDirectory m d) (missing : ¬m.HasTable d va) :
    Yields k (Vm.uva2ka d (va / PGSIZE * PGSIZE)) m fun _ _ => False := by
  have absent : frameOf (m.word d (va / PGSIZE / NPDENTRIES)) = none := Option.not_isSome_iff_eq_none.mp missing
  unfold Vm.uva2ka
  refine (walkpgdir_reads dir.dir _).yields.bind fun r m₁ known => ?_
  obtain ⟨rfl, rfl⟩ := known
  rw [PDX_eq, Nat.mul_div_cancel _ (by decide), absent]
  exact Yields.panic _

/-- An accessible page has a page table. -/
theorem Memory.Accessible.table (here : m.Accessible d va) : m.HasTable d va := by
  obtain ⟨f, found⟩ := Option.isSome_iff_exists.mp here
  obtain ⟨w, mapped, _⟩ := Option.map_eq_some_iff.mp found
  obtain ⟨t, named, _⟩ := Memory.mapping_some (Option.filter_eq_some_iff.mp mapped).1
  unfold Memory.HasTable
  rw [named]
  rfl

/-- One round of the loop of `copyout`. -/
theorem UserDirectory.round (dir : UserDirectory m d) (word : va < 2 ^ 32) (some_bytes : buf.length ≠ 0) (here : m.Accessible d va)
    (k : KernelImage) (fuel : Nat) : ∃ m₁, CopiedBytes m d va buf (firstPart va buf) m₁ ∧
      Program.run (Memory.handler k) (Vm.copyoutLoop d (fuel + 1) va buf) m =
        Program.run (Memory.handler k) (Vm.copyoutLoop d fuel (uint ((va / PGSIZE * PGSIZE : Nat) + PGSIZE))
          (buf.drop (firstPart va buf))) m₁ := by
  obtain ⟨f, found⟩ := Option.isSome_iff_exists.mp here
  obtain ⟨r, m₁, read, rfl, rfl⟩ := (dir.uva2ka (k := k) word here.table).ok
  have room : va % PGSIZE + firstPart va buf ≤ PGSIZE := by
    have low := Nat.mod_lt va (show 0 < PGSIZE by decide)
    have upto : firstPart va buf ≤ PGSIZE - va % PGSIZE := Nat.min_le_left ..
    omega
  have first : Returns k (Vm.storeBytes f (va % PGSIZE) (buf.take (firstPart va buf))) m₁
      fun _ m' => CopiedBytes m₁ d va buf (firstPart va buf) m' :=
    dir.first word found room (Nat.min_le_right ..)
  obtain ⟨_, m₂, stored, copied⟩ := first.ok
  have offset : va - va / PGSIZE * PGSIZE = va % PGSIZE := by
    have whole := Nat.div_add_mod' va PGSIZE
    omega
  refine ⟨m₂, copied, ?_⟩
  conv_lhs => unfold Vm.copyoutLoop
  rw [if_neg some_bytes, Program.run_bind_ok read, found]
  dsimp only
  rw [offset]
  exact Program.run_bind_ok stored

/-- A program that runs as another one does from another state. -/
theorem Returns.of_run {α : Type} {p q : Vm α} {post : α → Memory → Prop}
    (same : Program.run (Memory.handler k) p m = Program.run (Memory.handler k) q m₁) (returns : Returns k q m₁ post) :
    Returns k p m post := by
  unfold Returns Program.wp at *
  rw [same]
  exact returns

/-- A program that runs as another one does from another state, if it returns. -/
theorem Yields.of_run {α : Type} {p q : Vm α} {post : α → Memory → Prop}
    (same : Program.run (Memory.handler k) p m = Program.run (Memory.handler k) q m₁) (yields : Yields k q m₁ post) :
    Yields k p m post := by
  unfold Yields Program.wp at *
  rw [same]
  exact yields

/-- The first `n` addresses are accessible; if there are more, the next one is not. -/
def AccessibleUpto (m : Memory) (d va len n : Nat) : Prop :=
  n ≤ len ∧ (∀ j < n, m.Accessible d ((va + j) % 2 ^ 32)) ∧ (n < len → ¬m.Accessible d ((va + n) % 2 ^ 32))

/-- The address after the first page. -/
theorem firstPart_next {j : Nat} (more : firstPart va buf + j < buf.length) :
    (uint ((va / PGSIZE * PGSIZE : Nat) + PGSIZE) + j) % 2 ^ 32 = (va + (firstPart va buf + j)) % 2 ^ 32 := by
  have room : firstPart va buf = PGSIZE - va % PGSIZE := by
    unfold firstPart at *
    omega
  rw [room]
  unfold uint PGSIZE
  omega

/-- What is left after the first page. -/
theorem AccessibleUpto.later (upto : AccessibleUpto m d va buf.length n) (word : va < 2 ^ 32)
    (here : m.Accessible d va) (same : SameTables m d m₁) :
    firstPart va buf ≤ n ∧ AccessibleUpto m₁ d (uint ((va / PGSIZE * PGSIZE : Nat) + PGSIZE))
      (buf.drop (firstPart va buf)).length (n - firstPart va buf) := by
  obtain ⟨within, before, stops⟩ := upto
  have most : firstPart va buf ≤ buf.length := Nat.min_le_right ..
  have first : firstPart va buf ≤ n := by
    by_contra short
    have low : n < firstPart va buf := by omega
    refine stops (by omega) ?_
    unfold Memory.Accessible
    rw [firstPart_page word low]
    exact here
  have accessible : ∀ j, m₁.Accessible d (j % 2 ^ 32) ↔ m.Accessible d (j % 2 ^ 32) := by
    intro j
    unfold Memory.Accessible
    rw [same.userFrame (address_page (Nat.mod_lt j (by decide)))]
  refine ⟨first, ?_, fun j low => ?_, fun more => ?_⟩
  · rw [List.length_drop]
    omega
  · have moved : firstPart va buf + j < buf.length := by omega
    rw [accessible, firstPart_next moved]
    exact before _ (by omega)
  · rw [List.length_drop] at more
    have last : firstPart va buf + (n - firstPart va buf) = n := by omega
    have moved : firstPart va buf + (n - firstPart va buf) < buf.length := by omega
    rw [accessible, firstPart_next moved, last]
    exact stops (by omega)

/-- The loop of `copyout` stops at the first page that the user cannot access. -/
theorem copyoutLoop_copies (fuel : Nat) : ∀ {m : Memory} {va n : Nat} {buf : List UInt8}, UserDirectory m d → va < 2 ^ 32 →
    buf.length ≤ 2 ^ 32 → buf.length ≤ fuel → AccessibleUpto m d va buf.length n →
    (n < buf.length → m.HasTable d ((va + n) % 2 ^ 32)) →
    Returns k (Vm.copyoutLoop d fuel va buf) m fun r m' => r = decide (n = buf.length) ∧ CopiedBytes m d va buf n m' := by
  induction fuel with
  | zero =>
    intro m va n buf _ _ _ enough upto _
    have zero : n = 0 ∧ buf.length = 0 := by
      have within := upto.1
      omega
    rw [zero.1]
    exact Returns.pure ⟨(decide_eq_true zero.2.symm).symm, .refl⟩
  | succ fuel ih =>
    intro m va n buf dir word bound enough upto table
    by_cases empty : buf.length = 0
    · have zero : n = 0 := by
        have within := upto.1
        omega
      unfold Vm.copyoutLoop
      rw [if_pos empty, zero]
      exact Returns.pure ⟨(decide_eq_true empty.symm).symm, .refl⟩
    · by_cases here : m.Accessible d va
      · obtain ⟨m₁, copied, same⟩ := dir.round word empty here k fuel
        obtain ⟨first, later⟩ := upto.later word here copied.same
        have some_byte : 0 < firstPart va buf := by
          have low := Nat.mod_lt va (show 0 < PGSIZE by decide)
          unfold firstPart
          omega
        have within := upto.1
        have length : (buf.drop (firstPart va buf)).length = buf.length - firstPart va buf := List.length_drop
        refine Returns.of_run same ?_
        have rest := ih (dir.congr copied.free copied.same) (uint_lt _) (by omega) (by omega) later fun more => by
          have moved : firstPart va buf + (n - firstPart va buf) < buf.length := by omega
          have last : firstPart va buf + (n - firstPart va buf) = n := by omega
          have there := table (by omega)
          unfold Memory.HasTable at there ⊢
          rw [firstPart_next moved, last, copied.same.1]
          exact there
        refine rest.mono fun r m' left => ⟨left.1.trans ?_, ?_⟩
        · rw [length]
          exact decide_eq_decide.mpr (by omega)
        · have whole := copied.trans dir left.2 (by omega) fun j low => firstPart_next (by omega)
          rw [show firstPart va buf + (n - firstPart va buf) = n by omega] at whole
          exact whole
      · have zero : n = 0 := by
          by_contra some_page
          have first := upto.2.1 0 (by omega)
          rw [Nat.add_zero, Nat.mod_eq_of_lt word] at first
          exact here first
        have there := table (by omega)
        rw [zero, Nat.add_zero, Nat.mod_eq_of_lt word] at there
        have absent : m.userFrame d (va / PGSIZE) = none := Option.not_isSome_iff_eq_none.mp here
        unfold Vm.copyoutLoop
        rw [if_neg empty]
        refine .bind (dir.uva2ka word there) fun r m₁ known => ?_
        obtain ⟨rfl, rfl⟩ := known
        rw [absent, zero]
        exact Returns.pure ⟨(decide_eq_false (Ne.symm empty)).symm, .refl⟩

/-- If that page has no page table, the call does not return. -/
theorem copyoutLoop_traps (fuel : Nat) : ∀ {m : Memory} {va n : Nat} {buf : List UInt8}, UserDirectory m d → va < 2 ^ 32 →
    buf.length ≤ fuel → AccessibleUpto m d va buf.length n → n < buf.length → ¬m.HasTable d ((va + n) % 2 ^ 32) →
    Yields k (Vm.copyoutLoop d fuel va buf) m fun _ _ => False := by
  induction fuel with
  | zero =>
    intro m va n buf _ _ enough _ more
    omega
  | succ fuel ih =>
    intro m va n buf dir word enough upto more missing
    have some_bytes : buf.length ≠ 0 := by omega
    by_cases here : m.Accessible d va
    · obtain ⟨m₁, copied, same⟩ := dir.round word some_bytes here k fuel
      obtain ⟨first, later⟩ := upto.later word here copied.same
      have some_byte : 0 < firstPart va buf := by
        have low := Nat.mod_lt va (show 0 < PGSIZE by decide)
        unfold firstPart
        omega
      have length : (buf.drop (firstPart va buf)).length = buf.length - firstPart va buf := List.length_drop
      have moved : firstPart va buf + (n - firstPart va buf) < buf.length := by omega
      have last : firstPart va buf + (n - firstPart va buf) = n := by omega
      refine Yields.of_run same (ih (dir.congr copied.free copied.same) (uint_lt _) (by omega) later (by omega) ?_)
      unfold Memory.HasTable at missing ⊢
      rw [firstPart_next moved, last, copied.same.1]
      exact missing
    · have zero : n = 0 := by
        by_contra some_page
        have first := upto.2.1 0 (by omega)
        rw [Nat.add_zero, Nat.mod_eq_of_lt word] at first
        exact here first
      rw [zero, Nat.add_zero, Nat.mod_eq_of_lt word] at missing
      unfold Vm.copyoutLoop
      rw [if_neg some_bytes]
      exact (dir.uva2ka_traps missing).bind fun _ _ wrong => wrong.elim

/-- There is a first page that the user cannot access, or the range ends before it. -/
theorem exists_accessibleUpto (m : Memory) (d va len : Nat) : ∃ n, AccessibleUpto m d va len n := by
  classical
  by_cases all : ∀ j < len, m.Accessible d ((va + j) % 2 ^ 32)
  · exact ⟨len, Nat.le_refl len, all, fun wrong => absurd wrong (Nat.lt_irrefl len)⟩
  · have bad : ∃ j, j < len ∧ ¬m.Accessible d ((va + j) % 2 ^ 32) := by
      simpa using all
    refine ⟨Nat.find bad, Nat.le_of_lt (Nat.find_spec bad).1, fun j low => ?_, fun _ => (Nat.find_spec bad).2⟩
    by_contra missing
    exact Nat.find_min bad low ⟨Nat.lt_trans low (Nat.find_spec bad).1, missing⟩

/-- The pages of a directory of the kernel that the user can access. -/
theorem OwnPages.userDirectory (own : OwnPages k m d)
    (hidden : ∀ pn < TABLEPAGES, USERPAGES ≤ pn → ∀ w, m.mapping d pn = some w → w / PTE_U % 2 = 0) : UserDirectory m d := by
  have user : ∀ pn < TABLEPAGES, ∀ f, m.userFrame d pn = some f → pn < USERPAGES ∧ ∃ w, m.mapping d pn = some w ∧ w / PGSIZE = f := by
    intro pn inside f found
    obtain ⟨w, mapped, frame⟩ := Option.map_eq_some_iff.mp found
    obtain ⟨entry, accessible⟩ := Option.filter_eq_some_iff.mp mapped
    refine ⟨?_, w, entry, frame⟩
    by_contra high
    have zero := hidden pn inside (by omega) w entry
    exact of_decide_eq_true accessible zero
  refine ⟨own.dir, fun i index t named => (own.table i index t named).1, fun pn inside f found => ?_,
    fun pn inside pn' inside' f found found' => ?_⟩
  · obtain ⟨low, w, mapped, rfl⟩ := user pn inside f found
    exact (own.page pn low w mapped).2
  · obtain ⟨low, w, mapped, frame⟩ := user pn inside f found
    obtain ⟨low', w', mapped', frame'⟩ := user pn' inside' f found'
    exact own.pages pn low pn' low' w w' mapped mapped' (frame.trans frame'.symm)

/-- `copyout` returns. It succeeds when the user can access every page of the range, and then the bytes
of the range are the source; in every case no other byte has changed. -/
def CopiesOut (k : KernelImage) (m : Memory) (d va : Nat) (buf : List UInt8) : Prop :=
  ∃ r m', Program.run (Memory.handler k) (Vm.copyout d va buf) m = .ok (r, m') ∧
    (r = true ↔ ∀ j < buf.length, m.Accessible d ((va + j) % 2 ^ 32)) ∧
    (r = true → ∀ j < buf.length, ∀ f o, m.At d ((va + j) % 2 ^ 32) f o → m'.byte f o = (buf.getD j 0).toNat) ∧
    ∀ f o, m'.byte f o ≠ m.byte f o → ∃ j < buf.length, m.At d ((va + j) % 2 ^ 32) f o

/-- `copyout` does so exactly when the first page that the user cannot access, if there is one, has a
page table. -/
theorem copyout_exact_iff (dir : UserDirectory m d) (word : va < 2 ^ 32) (size : buf.length < 2 ^ 32) :
    CopiesOut k m d va buf ↔
      ∀ n < buf.length, AccessibleUpto m d va buf.length n → m.HasTable d ((va + n) % 2 ^ 32) := by
  constructor
  · intro copies n more upto
    by_contra missing
    obtain ⟨r, m', ran, _⟩ := copies
    exact (copyoutLoop_traps buf.length dir word (Nat.le_refl _) upto more missing).ok ran
  · intro tables
    obtain ⟨n, upto⟩ := exists_accessibleUpto m d va buf.length
    obtain ⟨r, m', ran, result, copied⟩ := (copyoutLoop_copies (k := k) buf.length dir word (Nat.le_of_lt size) (Nat.le_refl _)
      upto fun more => tables n more upto).ok
    have whole : r = true ↔ n = buf.length := by
      rw [result]
      exact decide_eq_true_iff
    refine ⟨r, m', ran, whole.trans ⟨fun all j low => ?_, fun all => ?_⟩, fun good j low f o here => ?_, fun f o changed => ?_⟩
    · exact upto.2.1 j (all ▸ low)
    · by_contra short
      have more : n < buf.length := Nat.lt_of_le_of_ne upto.1 short
      exact upto.2.2 more (all n more)
    · exact copied.written j (whole.mp good ▸ low) f o here
    · by_contra outside
      refine changed (copied.kept f o fun j low here => outside ⟨j, Nat.lt_of_lt_of_le low upto.1, here⟩)

end Copies

/-- The directory with two pages. -/
theorem twoPages_directory : UserDirectory twoPages 0x110 := by
  refine twoPages_own.userDirectory fun pn _ high w mapped => ?_
  have low : pn < 2 := by
    rcases twoPages_mapped mapped with ⟨first, _⟩ | ⟨second, _⟩
    · omega
    · omega
  unfold USERPAGES KERNBASE PGSIZE at high
  omega

/-- Two bytes over the end of the first page. -/
theorem copyout_exact_pages : CopiesOut smallKernel twoPages 0x110 4095 [1, 2] := by
  refine (copyout_exact_iff twoPages_directory (by decide) (by decide)).mpr fun n more _ => ?_
  have places : n = 0 ∨ n = 1 := by
    have bound : n < 2 := more
    omega
  rcases places with rfl | rfl
  · unfold Memory.HasTable
    decide
  · unfold Memory.HasTable
    decide

/-- An address in the kernel's half without a page table, as a stack pointer that has wrapped around. -/
theorem copyout_traps : ¬CopiesOut smallKernel twoPages 0x110 0xFDFFF000 [0] := by
  rintro ⟨r, m', ran, _⟩
  have stops : (Program.run (Memory.handler smallKernel) (Vm.copyout 0x110 0xFDFFF000 [0]) twoPages).toOption.isNone = true := by
    decide +kernel
  rw [ran] at stops
  contradiction

end Xv6
