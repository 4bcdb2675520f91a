import Mathlib.Order.Interval.Finset.Nat
import Xv6.Verif.UserWrites
import Xv6.Verif.Images

/-!
# The kernel half of a new directory

`setupkvm` takes its pages from the free list and writes no other page. Its directory maps no user
page, and no entry that it makes can be used by the user.
-/

namespace Xv6

/-- Free pages were made page tables of the directory or mapped in it, and no other page than its
own was written. -/
structure Supplied (k : KernelImage) (m : Memory) (d : Nat) (m' : Memory) : Prop where
  /-- The pages of the directory are its own. -/
  own : OwnPages k m' d
  stock : Stock k m'
  /-- The page tables are the old ones and free pages. -/
  tables : ∀ i < NPDENTRIES, ∀ t, frameOf (m'.word d i) = some t → frameOf (m.word d i) = some t ∨ t ∈ m.free
  /-- The pages that are still free. -/
  free : ∀ g, g ∈ m'.free → g ∈ m.free
  kept : ∀ g, g ∉ m.free → g ≠ d → (∀ i < NPDENTRIES, frameOf (m.word d i) ≠ some g) → m'.word g = m.word g

section Supplies

variable {k : KernelImage} {m m' m₁ : Memory} {d f g pn q t w : Nat} {rest : List Nat}

/-- Nothing has happened. -/
theorem Supplied.refl (own : OwnPages k m d) (stock : Stock k m) : Supplied k m d m :=
  ⟨own, stock, fun _ _ _ => .inl, fun _ => id, fun _ _ _ _ => rfl⟩

/-- One supply after the other. -/
theorem Supplied.trans (first : Supplied k m d m₁) (second : Supplied k m₁ d m') : Supplied k m d m' := by
  refine ⟨second.own, second.stock, fun i index t named => ?_, fun g member => first.free g (second.free g member),
    fun g used apart outside => ?_⟩
  · rcases second.tables i index t named with old | new
    · exact first.tables i index t old
    · exact .inr (first.free t new)
  · have aside : ∀ i < NPDENTRIES, frameOf (m₁.word d i) ≠ some g := by
      intro i index named
      rcases first.tables i index g named with old | new
      · exact outside i index old
      · exact used new
    rw [second.kept g (fun member => used (first.free g member)) apart aside, first.kept g used apart outside]

/-- A page table was found or set up, or a page mapped. -/
theorem Provided.supplied (provided : Provided k m d pn m') : Supplied k m d m' :=
  ⟨provided.own, provided.stock, provided.tables, provided.free, provided.kept⟩

/-- An entry of the kernel's half was written. -/
theorem OwnPages.kernelEntry (own : OwnPages k m d) (inside : pn < TABLEPAGES) (high : USERPAGES ≤ pn)
    (named : frameOf (m.word d (pn / NPDENTRIES)) = some t) (shown : present w = true) :
    OwnPages k (m.set t (pn % NPDENTRIES) w) d ∧
      ∀ q < TABLEPAGES, (m.set t (pn % NPDENTRIES) w).mapping d q = if q = pn then some w else m.mapping d q := by
  have table := own.table _ (table_index inside) t named
  have dir : (m.set t (pn % NPDENTRIES) w).word d = m.word d := Memory.set_other (Ne.symm table.2)
  have mapping : ∀ q < TABLEPAGES, (m.set t (pn % NPDENTRIES) w).mapping d q =
      if q = pn then some w else m.mapping d q := by
    intro q within
    rw [own.set_mapping inside named w within, if_pos shown]
  have user : ∀ q < USERPAGES, (m.set t (pn % NPDENTRIES) w).mapping d q = m.mapping d q := by
    intro q low
    rw [mapping q (user_inside low), if_neg (by omega)]
  refine ⟨⟨own.dir, ?_, ?_, fun q low w' found => ?_, fun q low q' low' w₁ w₂ found found' => ?_⟩, mapping⟩
  · rw [dir]
    exact own.table
  · rw [dir]
    exact own.tables
  · rw [user q low] at found
    rw [dir]
    exact own.page q low w' found
  · rw [user q low] at found
    rw [user q' low'] at found'
    exact own.pages q low q' low' w₁ w₂ found found'

end Supplies

/-! ## Mapping the kernel -/

/-- Entries were made from one page of the kernel's half on, none of them for the user. -/
structure KernelEntered (k : KernelImage) (m : Memory) (d low : Nat) (made : Nat → Prop) (m' : Memory) : Prop where
  supplied : Supplied k m d m'
  /-- The mappings before that page. -/
  before : ∀ pn < TABLEPAGES, pn < low → m'.mapping d pn = m.mapping d pn
  /-- The entries that there must be. -/
  made : ∀ pn, made pn → (m'.mapping d pn).isSome
  /-- No entry is for the user. -/
  hidden : ∀ pn < TABLEPAGES, low ≤ pn → ∀ w, m'.mapping d pn = some w → w / PTE_U % 2 = 0

section Entering

variable {k : KernelImage} {m m' : Memory} {d q : Nat}

/-- The word of an entry that is not for the user. -/
theorem pteWord_hidden {f perm : Nat} (system : perm / PTE_U % 2 = 0) : pteWord (f * PGSIZE) perm / PTE_U % 2 = 0 := by
  unfold pteWord
  unfold PTE_U at *
  unfold PGSIZE
  omega

/-- Pages of the free list became page tables at some indices of the directory. -/
def Stocked (m : Memory) (d : Nat) (tables : Finset Nat) (m' : Memory) : Prop :=
  m'.free.length + m.lacking d tables = m.free.length + m'.lacking d tables

/-- One part after another. -/
theorem Stocked.trans {m m' m'' : Memory} {d : Nat} {tables : Finset Nat} (first : Stocked m d tables m')
    (second : Stocked m' d tables m'') : Stocked m d tables m'' := by
  unfold Stocked at *
  omega

/-- The free list is empty and a page table is missing. -/
def Exhausted (m : Memory) (d : Nat) (tables : Finset Nat) : Prop := m.free = [] ∧ m.lacking d tables ≠ 0

/-- The loop of `mappages` over kernel pages that are absent. -/
theorem mapLoop_enters {last perm : Nat} {tables : Finset Nat} (system : perm / PTE_U % 2 = 0) (inside : last < TABLEPAGES) (fuel : Nat) :
    ∀ {q : Nat} (f : Nat) {m : Memory}, OwnPages k m d → Stock k m → q ≤ last → last < q + fuel → USERPAGES ≤ q →
    (∀ pn, q ≤ pn → pn ≤ last → m.mapping d pn = none) → (∀ pn, q ≤ pn → pn ≤ last → pn / NPDENTRIES ∈ tables) →
    Returns k (Vm.mapLoop d (last * PGSIZE) perm fuel (q * PGSIZE) (f * PGSIZE)) m fun r m' => Supplied k m d m' ∧
      (∀ pn < TABLEPAGES, pn < q ∨ last < pn → m'.mapping d pn = m.mapping d pn) ∧
        (r = true → ∀ pn, q ≤ pn → pn ≤ last → ∃ w, m'.mapping d pn = some w ∧ w / PTE_U % 2 = 0) ∧
          Stocked m d tables m' ∧ (r = false → Exhausted m' d tables) := by
  induction fuel with
  | zero =>
    intro q f m own stock start enough
    omega
  | succ fuel ih =>
    intro q f m own stock start enough high absent indexed
    have within : q < TABLEPAGES := Nat.lt_of_le_of_lt start inside
    unfold Vm.mapLoop
    refine .bind (walkpgdir_provides own stock within) fun r m₁ known => ?_
    have member := indexed q (Nat.le_refl q) start
    rcases known with ⟨rfl, missing, empty, rfl⟩ | ⟨t, rfl, named, provided, same⟩
    · refine Returns.pure ⟨.refl own stock, fun _ _ _ => rfl, fun wrong => absurd wrong Bool.false_ne_true, rfl, fun _ => ⟨empty, ?_⟩⟩
      exact Finset.card_ne_zero_of_mem (Finset.mem_filter.mpr ⟨member, missing⟩)
    · have table := provided.own.table _ (table_index within) t named
      have entry := Memory.absent_entry named (same.trans (absent q (Nat.le_refl q) start))
      refine .bind (Vm.load_returns table.1 _) fun w m₂ known => ?_
      obtain ⟨rfl, rfl⟩ := known
      rw [entry]
      refine .bind (Vm.store_returns table.1 _ _) fun _ m₃ known => ?_
      have shown : present (pteWord (f * PGSIZE) perm) = true := present_pteWord (Nat.mul_mod_left f PGSIZE)
      obtain ⟨own₃, mapping⟩ := provided.own.kernelEntry within high named shown
      rw [← known] at own₃ mapping
      have supplied : Supplied k m d m₃ := by
        refine provided.supplied.trans ⟨own₃, ?_, fun i _ t' found => .inl ?_, fun g member => ?_, fun g used apart outside => ?_⟩
        · rw [known]
          exact ⟨provided.stock.nodup, provided.stock.usable⟩
        · rw [known, Memory.set_other (Ne.symm table.2)] at found
          exact found
        · rw [known] at member
          exact member
        · rw [known]
          refine Memory.set_other ?_
          rintro rfl
          exact outside _ (table_index within) named
      have stocked : Stocked m d tables m₃ := by
        have same : m₃.lacking d tables = m₂.lacking d tables := by
          unfold Memory.lacking
          rw [known, Memory.set_other (Ne.symm table.2)]
        have taken := lacking_provided provided.missing member
        have left := provided.count
        have free : m₃.free = m₂.free := by rw [known]; rfl
        unfold Stocked
        rw [same, free]
        omega
      have others : ∀ pn < TABLEPAGES, pn ≠ q → m₃.mapping d pn = m.mapping d pn := by
        intro pn low other
        rw [mapping pn low, if_neg other, provided.mapping pn low other]
      have mapped : m₃.mapping d q = some (pteWord (f * PGSIZE) perm) := by
        rw [mapping q within, if_pos rfl]
      by_cases done : q = last
      · rw [if_pos (congrArg (· * PGSIZE) done)]
        refine Returns.pure ⟨supplied, fun pn low other => others pn low (by omega), fun _ pn above upto => ?_, stocked,
          fun wrong => absurd wrong Bool.true_eq_false.mp⟩
        obtain rfl : pn = q := by omega
        exact ⟨_, mapped, pteWord_hidden system⟩
      · have before : q * PGSIZE ≠ last * PGSIZE := by
          unfold PGSIZE
          omega
        have step : uint ((q * PGSIZE : Nat) + PGSIZE) = (q + 1) * PGSIZE := by
          unfold TABLEPAGES NPDENTRIES at inside
          unfold uint PGSIZE
          omega
        have frame : uint ((f * PGSIZE : Nat) + PGSIZE) = (f + 1) % 2 ^ 20 * PGSIZE := by
          unfold uint PGSIZE
          omega
        have absent₃ : ∀ pn, q + 1 ≤ pn → pn ≤ last → m₃.mapping d pn = none := by
          intro pn above upto
          rw [others pn (Nat.lt_of_le_of_lt upto inside) (by omega)]
          exact absent pn (by omega) upto
        rw [if_neg before, step, frame]
        refine (ih _ supplied.own supplied.stock (by omega) (by omega) (by omega) absent₃ fun pn above upto =>
          indexed pn (by omega) upto).mono fun r m₄ known => ?_
        obtain ⟨rest, kept, all, stocked', exhausted⟩ := known
        refine ⟨supplied.trans rest, fun pn low other => ?_, fun good pn above upto => ?_, stocked.trans stocked', exhausted⟩
        · rw [kept pn low (by omega), others pn low (by omega)]
        · by_cases first : pn = q
          · rw [first, kept q within (by omega)]
            exact ⟨_, mapped, pteWord_hidden system⟩
          · exact all good pn (by omega) upto

/-- The page tables of a segment are at these indices. -/
def InTables (tables : Finset Nat) (segment : Nat × Nat × Nat × Nat) : Prop :=
  ∀ pn, segment.1 / PGSIZE ≤ pn →
    pn ≤ uint ((segment.1 : Nat) + uint ((segment.2.2.1 : Int) - segment.2.1) - 1) / PGSIZE → pn / NPDENTRIES ∈ tables

/-- The page at which the first segment begins. -/
def firstPage : List (Nat × Nat × Nat × Nat) → Nat → Prop
  | [], _ => False
  | (virt, _) :: _, pn => pn = virt / PGSIZE

/-- The loop of `setupkvm`. -/
theorem mapKernel_enters {tables : Finset Nat} (segments : List (Nat × Nat × Nat × Nat)) : ∀ {low : Nat} {m : Memory}, LaidOut low segments →
    (∀ segment ∈ segments, segment.2.2.2 / PTE_U % 2 = 0) → (∀ segment ∈ segments, InTables tables segment) → USERPAGES ≤ low →
    OwnPages k m d → Stock k m → (∀ pn, low ≤ pn → pn < TABLEPAGES → m.mapping d pn = none) →
    Returns k (Vm.mapKernel d segments) m fun r m' => Supplied k m d m' ∧
      (∀ pn < TABLEPAGES, pn < low → m'.mapping d pn = m.mapping d pn) ∧
        (r = true → KernelEntered k m d low (firstPage segments) m') ∧ Stocked m d tables m' ∧
          (r = false → Exhausted m' d tables) := by
  induction segments with
  | nil =>
    intro low m _ _ _ high own stock absent
    refine Returns.pure ⟨.refl own stock, fun _ _ _ => rfl, fun _ => ⟨.refl own stock, fun _ _ _ => rfl, fun _ => False.elim,
      fun pn inside above w mapped => ?_⟩, rfl, fun wrong => absurd wrong Bool.true_eq_false.mp⟩
    rw [absent pn above inside] at mapped
    contradiction
  | cons segment rest ih =>
    intro low m laid system indexed high own stock absent
    obtain ⟨virt, start, finish, perm⟩ := segment
    obtain ⟨q, last, f, rfl, rfl, above, some, inside, ends, later⟩ := laid
    have here : ∀ pn, q ≤ pn → pn ≤ last → pn / NPDENTRIES ∈ tables := by
      intro pn from' upto
      refine indexed _ List.mem_cons_self pn ?_ ?_
      · rw [Nat.mul_div_cancel q (by decide)]
        exact from'
      · rw [ends]
        exact upto
    have within : q < TABLEPAGES := Nat.lt_of_le_of_lt some inside
    unfold Vm.mapKernel Vm.mappages
    rw [ends, Nat.mul_div_cancel q (by decide)]
    have enough : last < q + 2 ^ 20 := by
      unfold TABLEPAGES NPDENTRIES at inside
      omega
    have absent' : ∀ pn, q ≤ pn → pn ≤ last → m.mapping d pn = none := fun pn from' upto =>
      absent pn (above.trans from') (Nat.lt_of_le_of_lt upto inside)
    refine .bind (mapLoop_enters (system _ List.mem_cons_self) inside (2 ^ 20) f own stock some enough (high.trans above)
      absent' here) fun r m₁ known => ?_
    obtain ⟨supplied, kept, entered, stocked, exhausted⟩ := known
    cases r with
    | false =>
      exact Returns.pure ⟨supplied, fun pn low' under => kept pn low' (by omega), fun wrong => absurd wrong Bool.false_ne_true,
        stocked, exhausted⟩
    | true =>
      have all := entered rfl
      have absent₁ : ∀ pn, last + 1 ≤ pn → pn < TABLEPAGES → m₁.mapping d pn = none := by
        intro pn from' low'
        rw [kept pn low' (.inr from')]
        exact absent pn (by omega) low'
      refine (ih later (fun segment member => system segment (List.mem_cons_of_mem _ member))
        (fun segment member => indexed segment (List.mem_cons_of_mem _ member)) (by omega) supplied.own supplied.stock
        absent₁).mono fun r m₂ known => ?_
      obtain ⟨rest', before, complete, stocked', exhausted'⟩ := known
      have under : ∀ pn < TABLEPAGES, pn < low → m₂.mapping d pn = m.mapping d pn := by
        intro pn low' under
        rw [before pn low' (by omega), kept pn low' (by omega)]
      refine ⟨supplied.trans rest', under, fun good => ?_, stocked.trans stocked', exhausted'⟩
      have hidden := (complete good).hidden
      refine ⟨supplied.trans rest', under, fun pn made => ?_, fun pn low' beyond w mapped => ?_⟩
      · have here : pn = q := made.trans (Nat.mul_div_cancel q (by decide))
        obtain ⟨w, mapped, _⟩ := all q (Nat.le_refl q) some
        rw [here, before q within (by omega), mapped]
        rfl
      · by_cases late : last + 1 ≤ pn
        · exact hidden pn low' late w mapped
        · rw [before pn low' (by omega)] at mapped
          by_cases early : pn < q
          · rw [kept pn low' (.inl early), absent pn beyond low'] at mapped
            contradiction
          · obtain ⟨w', mapped', system'⟩ := all pn (by omega) (by omega)
            rw [mapped] at mapped'
            cases mapped'
            exact system'

/-- The indices at which `setupkvm` makes page tables. -/
def kernelTables : Finset Nat := Finset.Ico 512 568 ∪ Finset.Ico 1016 1024

/-- The page tables of `kmap` are at these indices. -/
theorem kmap_inTables (k : KernelImage) : ∀ segment ∈ Vm.kmap k, InTables kernelTables segment := by
  have low : 0x80100000 < k.data := k.data_low
  have aligned : k.data % 4096 = 0 := k.data_aligned
  have inside : k.data < 0x80000000 + 0xE000000 := Nat.lt_of_lt_of_le k.data_inside (Nat.add_le_add_left k.last_low _)
  have memory : ∀ pn, 0x80000 ≤ pn → pn < 0x8E000 → pn / NPDENTRIES ∈ kernelTables := by
    intro pn from' upto
    unfold NPDENTRIES
    exact Finset.mem_union_left _ (Finset.mem_Ico.mpr (by omega))
  intro segment member pn from' upto
  simp only [Vm.kmap, List.mem_cons, List.not_mem_nil, or_false] at member
  rcases member with rfl | rfl | rfl | rfl
  · change pn ≤ 0x800FF at upto
    exact memory pn from' (by omega)
  · change pn ≤ uint ((0x80100000 : Nat) + uint (((k.data - 0x80000000 : Nat) : Int) - (0x100000 : Nat)) - 1) / 4096 at upto
    rw [text_last low aligned inside] at upto
    change 0x80100000 / 4096 ≤ pn at from'
    exact memory pn (by omega) (by omega)
  · change pn ≤ uint ((k.data : Nat) + uint (((0xE000000 : Nat) : Int) - (k.data - 0x80000000 : Nat)) - 1) / 4096 at upto
    rw [memory_last low inside] at upto
    change k.data / 4096 ≤ pn at from'
    exact memory pn (by omega) (by omega)
  · change 0xFE000 ≤ pn at from'
    change pn ≤ 0xFFFFF at upto
    unfold NPDENTRIES
    exact Finset.mem_union_right _ (Finset.mem_Ico.mpr (by omega))

/-- Every segment of `kmap` is for the kernel only. -/
theorem kmap_system (k : KernelImage) : ∀ segment ∈ Vm.kmap k, segment.2.2.2 / PTE_U % 2 = 0 := by
  intro segment member
  simp only [Vm.kmap, List.mem_cons, List.not_mem_nil, or_false] at member
  rcases member with rfl | rfl | rfl | rfl
  · show PTE_W / PTE_U % 2 = 0
    decide
  · show 0 / PTE_U % 2 = 0
    decide
  · show PTE_W / PTE_U % 2 = 0
    decide
  · show PTE_W / PTE_U % 2 = 0
    decide

end Entering

/-! ## `setupkvm` -/

/-- A directory was made of free pages. It maps no user page, and the user can use none of its
entries; the first page of the kernel is mapped. -/
structure NewDirectory (k : KernelImage) (m : Memory) (d : Nat) (m' : Memory) : Prop where
  /-- The pages of the directory are its own. -/
  own : OwnPages k m' d
  stock : Stock k m'
  /-- The directory was free. -/
  dir : d ∈ m.free
  /-- So were its page tables. -/
  tables : ∀ i < NPDENTRIES, ∀ t, frameOf (m'.word d i) = some t → t ∈ m.free
  /-- The pages that are still free. -/
  free : ∀ g, g ∈ m'.free → g ∈ m.free
  kept : ∀ g, g ∉ m.free → m'.word g = m.word g
  /-- No user page is mapped. -/
  empty : ∀ pn < USERPAGES, m'.mapping d pn = none
  /-- The user cannot use the kernel's half. -/
  hidden : ∀ pn < TABLEPAGES, USERPAGES ≤ pn → ∀ w, m'.mapping d pn = some w → w / PTE_U % 2 = 0
  /-- The first page of the kernel. -/
  kernel : (m'.mapping d USERPAGES).isSome
  /-- The pages that it took. -/
  taken : m.free.length ≤ m'.free.length + 65

section Directories

variable {k : KernelImage} {m m' : Memory} {d : Nat} {rest : List Nat}

/-- Nothing is said of what the program leaves. -/
theorem Yields.any {α : Type} (p : Vm α) (m : Memory) : Yields k p m fun _ _ => True := by
  unfold Yields Program.wp
  split
  · trivial
  · trivial

/-- A page of zeros is a directory without pages. -/
theorem OwnPages.zero (missing : d ∉ m.free) (zero : ∀ i, m.word d i = 0) : OwnPages k m d ∧ ∀ pn, m.mapping d pn = none := by
  have absent : ∀ i t, frameOf (m.word d i) ≠ some t := by
    intro i t
    rw [zero i, frameOf_zero]
    exact nofun
  have unmapped : ∀ pn, m.mapping d pn = none := by
    intro pn
    unfold Memory.mapping
    rw [zero, frameOf_zero]
  refine ⟨⟨missing, fun i _ t named => absurd named (absent i t), fun i _ j _ t named => absurd named (absent i t),
    fun pn _ w mapped => ?_, fun pn _ pn' _ w w' mapped => ?_⟩, unmapped⟩
  · rw [unmapped pn] at mapped
    contradiction
  · rw [unmapped pn] at mapped
    contradiction

/-- The page tables of the kernel take 64 pages of a directory without tables. -/
theorem Stocked.kernel (stocked : Stocked m d kernelTables m') (zero : ∀ i, m.word d i = 0) :
    m.free.length ≤ m'.free.length + 64 ∧ (Exhausted m' d kernelTables → m.free.length < 64) := by
  have lacking : m.lacking d kernelTables = 64 := by
    unfold Memory.lacking
    rw [Finset.filter_true_of_mem fun i _ => by rw [zero, frameOf_zero]]
    decide +kernel
  unfold Stocked at stocked
  rw [lacking] at stocked
  refine ⟨by omega, fun ⟨empty, some_missing⟩ => ?_⟩
  rw [empty, List.length_nil] at stocked
  omega

/-- `setupkvm` writes free pages only. It returns a directory if 65 pages are free. -/
theorem setupkvm_yields (stock : Stock k m) : Yields k (Vm.setupkvm k) m fun r m' =>
    (∀ g, g ∉ m.free → m'.word g = m.word g) ∧ (∀ d, r = some d → NewDirectory k m d m') ∧
      (65 ≤ m.free.length → r ≠ none) := by
  unfold Vm.setupkvm
  refine (Vm.kalloc_returns k m).yields.bind fun r m₁ known => ?_
  rcases known with ⟨rfl, empty, rfl⟩ | ⟨d, rest, rfl, head, rfl⟩
  · refine Yields.pure ⟨fun _ _ => rfl, nofun, fun enough => ?_⟩
    rw [empty] at enough
    exact absurd enough (by decide)
  · have here : d ∈ m.free := by
      rw [head]
      exact List.mem_cons_self
    have nodup := stock.nodup
    rw [head, List.nodup_cons] at nodup
    have within : ∀ g, g ∈ rest → g ∈ m.free := by
      intro g member
      rw [head]
      exact List.mem_cons_of_mem d member
    dsimp only
    refine (Vm.clear_returns (m := { m with free := rest }) nodup.1).yields.bind fun _ m₁ known => ?_
    have zero : ∀ i, m₁.word d i = 0 := by
      intro i
      rw [known, Memory.setFrame_self]
    have free : m₁.free = rest := by rw [known, Memory.setFrame_free]
    obtain ⟨own, unmapped⟩ := OwnPages.zero (k := k) (show d ∉ m₁.free by rw [free]; exact nodup.1) zero
    have stock₁ : Stock k m₁ := by
      refine ⟨?_, fun g member => stock.usable g (within g (free ▸ member))⟩
      rw [free]
      exact nodup.2
    rw [if_neg (by decide)]
    have enters := mapKernel_enters (Vm.kmap k) (kmap_laidOut k) (kmap_system k) (kmap_inTables k) (Nat.le_refl _) own stock₁
      fun pn _ _ => unmapped pn
    refine enters.yields.bind fun r m₂ known₂ => ?_
    obtain ⟨supplied, before, entered, stocked, exhausted⟩ := known₂
    obtain ⟨left, short⟩ := stocked.kernel zero
    have length : m.free.length = m₁.free.length + 1 := by rw [free, head, List.length_cons]
    have tables : ∀ i < NPDENTRIES, ∀ t, frameOf (m₂.word d i) = some t → t ∈ m.free := by
      intro i index t named
      rcases supplied.tables i index t named with old | new
      · rw [zero, frameOf_zero] at old
        cases old
      · rw [free] at new
        exact within t new
    have kept : ∀ g, g ∉ m.free → m₂.word g = m.word g := by
      intro g used
      have aside : g ≠ d := by
        rintro rfl
        exact used here
      rw [supplied.kept g (fun member => used (within g (free ▸ member))) aside fun i _ named => ?_, known,
        Memory.setFrame_other aside]
      rw [zero, frameOf_zero] at named
      cases named
    have empty : ∀ pn < USERPAGES, m₂.mapping d pn = none := by
      intro pn user
      rw [before pn (user_inside user) user, unmapped pn]
    cases r with
    | false =>
      refine (freevm_kept supplied.own).bind fun _ m₃ freed => Yields.pure ⟨fun g used => ?_, nofun, fun enough => ?_⟩
      rotate_left
      · have few := short (exhausted rfl)
        omega
      rw [freed g, kept g used]
      · rintro rfl
        exact used here
      · exact fun i index named => used (tables i index g named)
      · intro pn user w mapped
        rw [empty pn user] at mapped
        cases mapped
    | true =>
      obtain ⟨_, _, made, hidden⟩ := entered rfl
      refine Yields.pure ⟨kept, fun d' same => ?_, fun _ => Option.some_ne_none d⟩
      cases same
      refine ⟨supplied.own, supplied.stock, here, tables, fun g member => ?_, kept, empty, hidden, made USERPAGES rfl, by omega⟩
      have member₁ := supplied.free g member
      rw [free] at member₁
      exact within g member₁

end Directories

/-! ## Directories in use -/

section Owned

variable {k : KernelImage} {m : Memory} {owner : Nat → Owner} {d : Nat}

/-- The free pages can be freed. -/
theorem PageOwners.stock (owners : PageOwners k m owner) : Stock k m :=
  ⟨owners.nodup, fun f member => owners.usable (by rw [(owners.free f).mpr member]; exact Owner.noConfusion)⟩

/-- The pages of a directory in use are its own. -/
theorem PageOwners.ownPages (owners : PageOwners k m owner) (live : owner d = .dir 0) : OwnPages k m d := by
  have table : ∀ i < NPDENTRIES, ∀ t, frameOf (m.word d i) = some t → owner t = .table d i := fun i index t named =>
    (owners.table t d i).mpr ⟨index, 0, live, Nat.zero_le i, named⟩
  refine ⟨owners.missing (by rw [live]; exact Owner.noConfusion), fun i index t named => ⟨?_, ?_⟩, fun i index j index' t named named' => ?_,
    fun pn user w mapped => ?_, fun pn user pn' user' w w' mapped mapped' same => ?_⟩
  · exact owners.missing (by rw [table i index t named]; exact Owner.noConfusion)
  · rintro rfl
    exact Owner.noConfusion (live.symm.trans (table i index t named))
  · have same := (table i index t named).symm.trans (table j index' t named')
    cases same
    rfl
  · have page := owners.mapping_page live user mapped
    refine ⟨owners.usable (by rw [page]; exact Owner.noConfusion), owners.missing (by rw [page]; exact Owner.noConfusion), ?_,
      fun i index named => ?_⟩
    · intro here
      rw [here] at page
      exact Owner.noConfusion (live.symm.trans page)
    · exact Owner.noConfusion ((table i index _ named).symm.trans page)
  · have page := owners.mapping_page live user mapped
    rw [same, owners.mapping_page live user' mapped'] at page
    cases page
    rfl

/-- Any free list is one of memory in which nothing else is owned. -/
theorem Stock.owners (stock : Stock k m) : ∃ owner, PageOwners k m owner := by
  classical
  let owner : Nat → Owner := fun f => if f ∈ m.free then .free else if Memory.usable k f = true then .hand else .kernel
  have cases : ∀ f, owner f = .free ∧ f ∈ m.free ∨ owner f = .hand ∧ f ∉ m.free ∧ Memory.usable k f = true ∨
      owner f = .kernel ∧ f ∉ m.free ∧ Memory.usable k f = false := by
    intro f
    by_cases member : f ∈ m.free
    · exact .inl ⟨if_pos member, member⟩
    · by_cases usable : Memory.usable k f = true
      · exact .inr (.inl ⟨(if_neg member).trans (if_pos usable), member, usable⟩)
      · exact .inr (.inr ⟨(if_neg member).trans (if_neg usable), member, Bool.not_eq_true _ ▸ usable⟩)
  refine ⟨owner, stock.nodup, fun f => ?_, fun f => ?_, fun f d i => ?_, fun f d pn => ?_⟩
  · rcases cases f with ⟨same, member⟩ | ⟨same, missing, _⟩ | ⟨same, missing, _⟩ <;> simp [*]
  · rcases cases f with ⟨same, member⟩ | ⟨same, _, usable⟩ | ⟨same, _, unusable⟩
    · simp [same, stock.usable f member]
    · simp [same, usable]
    · simp [same, unusable]
  · rcases cases f with ⟨same, _⟩ | ⟨same, _⟩ | ⟨same, _⟩ <;> rcases cases d with ⟨same', _⟩ | ⟨same', _⟩ | ⟨same', _⟩ <;>
      simp [same, same']
  · have untabled : ∀ t, owner t ≠ .table d (pn / NPDENTRIES) := by
      intro t
      rcases cases t with ⟨same, _⟩ | ⟨same, _⟩ | ⟨same, _⟩ <;> simp [same]
    rcases cases f with ⟨same, _⟩ | ⟨same, _⟩ | ⟨same, _⟩ <;> simp [same, untabled]

/-- `setupkvm` succeeds with 65 free pages. -/
theorem setupkvm_succeeds (stock : Stock k m) (enough : 65 ≤ m.free.length) : ∃ d m' owner,
    Program.run (Memory.handler k) (Vm.setupkvm k) m = .ok (some d, m') ∧ NewDirectory k m d m' ∧ PageOwners k m' owner ∧
      owner d = .dir 0 := by
  obtain ⟨owner, owners⟩ := stock.owners
  obtain ⟨r, m', ran, owner', owners', built⟩ := (setupkvm_builds owners).ok
  obtain ⟨_, directory, succeeds⟩ := (setupkvm_yields stock).ok ran
  rcases built with ⟨rfl, _⟩ | ⟨d, rfl, populated, _⟩
  · exact absurd rfl (succeeds enough)
  · exact ⟨d, m', owner', ran, directory d rfl, owners', populated.dir⟩

/-- With enough free pages `setupkvm` and `allocuvm` make an image of any size. -/
theorem image_built {sz : Nat} (stock : Stock k m) (user : sz < KERNBASE)
    (enough : 65 + pagesAtMost (pagesBetween 0 sz) ≤ m.free.length) : ∃ d m₁ m₂ owner,
    Program.run (Memory.handler k) (Vm.setupkvm k) m = .ok (some d, m₁) ∧
      Program.run (Memory.handler k) (Vm.allocuvm d 0 sz) m₁ = .ok (sz, m₂) ∧ PageOwners k m₂ owner ∧ owner d = .dir 0 ∧
      (∀ pn < USERPAGES, (m₂.mapping d pn).isSome ↔ pn * PGSIZE < sz) ∧
        m.free.length ≤ m₂.free.length + 65 + pagesAtMost (pagesBetween 0 sz) := by
  obtain ⟨d, m₁, owner₁, made, directory, owners₁, live⟩ := setupkvm_succeeds stock (by omega)
  have taken := directory.taken
  have absent : ∀ pn ∈ pagesBetween 0 sz, m₁.mapping d pn = none := fun pn member =>
    directory.empty pn (pagesBetween_user (Nat.le_of_lt user) pn member)
  obtain ⟨r, m₂, ran, known⟩ := (allocuvm_exact directory.own directory.stock (Nat.zero_le sz) user absent).ok
  have most := pagesNeeded_le m₁ d (pagesBetween 0 sz)
  rcases known with ⟨fits, rfl, stretched⟩ | ⟨short, _⟩
  · have grows := @allocuvm_extends k m₁ owner₁ d 0 r owners₁ live fun pn low _ => directory.empty pn low
    obtain ⟨owner₂, owners₂, grown⟩ := grows.yields.ok ran
    have live₂ : owner₂ d = .dir 0 := by
      rcases grown with ⟨_, _, grown⟩ | ⟨_, extended⟩
      · exact (grown.extended.dir d 0).mpr live
      · exact (extended.dir d 0).mpr live
    refine ⟨d, m₁, m₂, owner₂, made, ran, owners₂, live₂, fun pn low => ?_, by omega⟩
    by_cases here : pn ∈ pagesBetween 0 r
    · obtain ⟨f, _, mapped, _⟩ := stretched.fresh pn here
      rw [mapped]
      exact iff_of_true rfl ((mem_pagesBetween ..).mp here).2
    · rw [stretched.mapping pn (user_inside low) here, directory.empty pn low]
      exact iff_of_false Bool.false_ne_true fun below => here ((mem_pagesBetween ..).mpr ⟨Nat.zero_le _, below⟩)
  · omega

end Owned

/-- Memory of zeros with these free pages. -/
def blank (free : List Nat) : Memory := ⟨fun _ _ => 0, free⟩

/-- These pages can be freed. -/
theorem blank_stock {n : Nat} (few : n ≤ 0x1000) : Stock smallKernel (blank (List.range' 0x110 n)) := by
  refine ⟨List.nodup_range', fun f member => decide_eq_true ?_⟩
  have inside := List.mem_range'_1.mp member
  show 0x110000 ≤ f * PGSIZE ∧ f * PGSIZE < 0xE000000
  unfold PGSIZE
  omega

end Xv6
