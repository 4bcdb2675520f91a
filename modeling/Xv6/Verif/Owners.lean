import Xv6.Vm

/-!
# Owners of physical pages

Every physical page is free, in the hands of the kernel code that runs, part of the kernel's image
or not handed out by the allocator, a page directory, a page table of one directory, or mapped at
one user page of one directory. The owners are a map from frames, so no page has two; `PageOwners` says
that memory agrees with the map.
-/

namespace Xv6

/-- Pages of user memory. -/
def USERPAGES : Nat := KERNBASE / PGSIZE

/-- The owner of a page. -/
inductive Owner where
  /-- The free list. -/
  | free
  /-- The code that has allocated it. -/
  | hand
  /-- Nobody can allocate it. -/
  | kernel
  /-- It is a page directory; of a directory that is being freed the first `dead` entries are void. -/
  | dir (dead : Nat)
  /-- It is the page table at index `i` of the directory `d`. -/
  | table (d i : Nat)
  /-- It is mapped at the user page `pn` of the directory `d`. -/
  | page (d pn : Nat)
  deriving DecidableEq

/-- Memory agrees with the owners. -/
structure PageOwners (k : KernelImage) (m : Memory) (owner : Nat → Owner) : Prop where
  nodup : m.free.Nodup
  /-- The free pages are those on the free list. -/
  free : ∀ f, owner f = .free ↔ f ∈ m.free
  /-- The pages nobody can allocate. -/
  kernel : ∀ f, owner f = .kernel ↔ Memory.usable k f = false
  /-- The page tables are the pages that the entries of directories name. -/
  table : ∀ f d i, owner f = .table d i ↔
    i < NPDENTRIES ∧ ∃ n, owner d = .dir n ∧ n ≤ i ∧ frameOf (m.word d i) = some f
  /-- The user pages are the pages that the entries of their tables name. -/
  page : ∀ f d pn, owner f = .page d pn ↔
    pn < USERPAGES ∧ ∃ t, owner t = .table d (pn / NPDENTRIES) ∧ frameOf (m.word t (pn % NPDENTRIES)) = some f

section Entries

/-- The frame of a new entry. -/
theorem frameOf_pteWord (f perm : Nat) (small : perm < PGSIZE) : frameOf (pteWord (f * PGSIZE) perm) = some f := by
  have odd : present (pteWord (f * PGSIZE) perm) = true := by
    unfold present pteWord PGSIZE
    rw [beq_iff_eq]
    omega
  unfold frameOf
  rw [if_pos odd]
  unfold pteWord
  congr 1
  unfold PGSIZE at *
  omega

/-- No entry is present in a page of zeros. -/
theorem frameOf_zero : frameOf 0 = none := rfl

end Entries

section Words

variable {m : Memory} {f g i j w : Nat} {words : Nat → Nat}

@[simp] theorem Memory.setFrame_self : (m.setFrame f words).word f = words := Function.update_self ..

@[simp] theorem Memory.setFrame_other (other : g ≠ f) : (m.setFrame f words).word g = m.word g :=
  Function.update_of_ne other ..

@[simp] theorem Memory.setFrame_free : (m.setFrame f words).free = m.free := rfl

@[simp] theorem Memory.set_free : (m.set f i w).free = m.free := rfl

/-- The word that was written. -/
@[simp] theorem Memory.set_same : (m.set f i w).word f i = w := by
  unfold Memory.set
  rw [setFrame_self, Function.update_self]

/-- The other words of the page. -/
theorem Memory.set_index (other : j ≠ i) : (m.set f i w).word f j = m.word f j := by
  unfold Memory.set
  rw [setFrame_self, Function.update_of_ne other]

/-- The other pages. -/
@[simp] theorem Memory.set_other (other : g ≠ f) : (m.set f i w).word g = m.word g := by
  unfold Memory.set
  rw [setFrame_other other]

@[simp] theorem Memory.release_free : (m.release f).free = f :: m.free := rfl

@[simp] theorem Memory.release_other (other : g ≠ f) : (m.release f).word g = m.word g :=
  Function.update_of_ne other ..

end Words

/-- Two pages of one table at one index are one. -/
theorem page_index {pn pn' : Nat} (table : pn / NPDENTRIES = pn' / NPDENTRIES) (index : pn % NPDENTRIES = pn' % NPDENTRIES) :
    pn = pn' := by
  rw [← Nat.div_add_mod pn NPDENTRIES, table, index, Nat.div_add_mod]

/-! ## Transfers -/

section Transfers

variable {k : KernelImage} {m : Memory} {owner : Nat → Owner} {d f i n pn t w : Nat} {rest : List Nat}

/-- A directory has one page table at an index. -/
theorem PageOwners.one_table (owners : PageOwners k m owner) {t' : Nat} (first : owner t = .table d i)
    (second : owner t' = .table d i) : t = t' := by
  obtain ⟨_, _, _, _, named⟩ := (owners.table t d i).mp first
  obtain ⟨_, _, _, _, named'⟩ := (owners.table t' d i).mp second
  rw [named] at named'
  exact Option.some.inj named'

/-- `kalloc` takes the first free page. -/
theorem PageOwners.take (owners : PageOwners k m owner) (head : m.free = f :: rest) :
    PageOwners k { m with free := rest } (Function.update owner f .hand) := by
  obtain ⟨nodup, free, kernel, table, page⟩ := owners
  rw [head] at nodup free
  obtain ⟨missing, nodup⟩ := List.nodup_cons.mp nodup
  have was : owner f = .free := (free f).mpr List.mem_cons_self
  refine ⟨nodup, fun g => ?_, fun g => ?_, fun g d' j => ?_, fun g d' pn => ?_⟩
  · rw [Function.update_apply]
    grind
  · rw [Function.update_apply]
    grind
  · simp only [Function.update_apply]
    grind
  · simp only [Function.update_apply]
    grind

/-- A page in the kernel's hands is written. -/
theorem PageOwners.write (owners : PageOwners k m owner) (hand : owner f = .hand) (words : Nat → Nat) :
    PageOwners k (m.setFrame f words) owner := by
  obtain ⟨nodup, free, kernel, table, page⟩ := owners
  refine ⟨nodup, free, kernel, fun g d' j => ?_, fun g d' pn => ?_⟩
  · grind [Memory.setFrame_other]
  · grind [Memory.setFrame_other]

/-- A page of zeros in the kernel's hands becomes a directory. -/
theorem PageOwners.addDir (owners : PageOwners k m owner) (hand : owner d = .hand) (empty : ∀ j, m.word d j = 0) :
    PageOwners k m (Function.update owner d (.dir 0)) := by
  obtain ⟨nodup, free, kernel, table, page⟩ := owners
  refine ⟨nodup, fun g => ?_, fun g => ?_, fun g d' j => ?_, fun g d' pn => ?_⟩
  · rw [Function.update_apply]
    grind
  · rw [Function.update_apply]
    grind
  · simp only [Function.update_apply]
    grind [frameOf_zero]
  · simp only [Function.update_apply]
    grind

/-- A page of zeros in the kernel's hands becomes a page table. -/
theorem PageOwners.addTable (owners : PageOwners k m owner) (dir : owner d = .dir 0) (hand : owner t = .hand)
    (empty : ∀ j, m.word t j = 0) (absent : frameOf (m.word d i) = none) (low : i < NPDENTRIES)
    (word : frameOf w = some t) : PageOwners k (m.set d i w) (Function.update owner t (.table d i)) := by
  have dirs : ∀ g n, Function.update owner t (.table d i) g = .dir n ↔ owner g = .dir n := by
    intro g n
    rw [Function.update_apply]
    grind
  obtain ⟨nodup, free, kernel, table, page⟩ := owners
  refine ⟨nodup, fun g => ?_, fun g => ?_, fun g d' j => ?_, fun g d' pn => ?_⟩
  · rw [Memory.set_free, Function.update_apply]
    grind
  · rw [Function.update_apply]
    grind
  · simp only [dirs]
    rw [Function.update_apply]
    grind [Memory.set_same, Memory.set_index, Memory.set_other]
  · simp only [Function.update_apply]
    grind [Memory.set_same, Memory.set_index, Memory.set_other, frameOf_zero]

/-- A page in the kernel's hands is mapped at a user page. -/
theorem PageOwners.addPage (owners : PageOwners k m owner) (table : owner t = .table d (pn / NPDENTRIES))
    (user : pn < USERPAGES) (absent : frameOf (m.word t (pn % NPDENTRIES)) = none) (hand : owner f = .hand)
    (word : frameOf w = some f) :
    PageOwners k (m.set t (pn % NPDENTRIES) w) (Function.update owner f (.page d pn)) := by
  have only : ∀ t', owner t' = .table d (pn / NPDENTRIES) → t' = t := fun t' other => owners.one_table other table
  obtain ⟨nodup, free, kernel, tables, page⟩ := owners
  have same : ∀ g d' j, Function.update owner f (.page d pn) g = .table d' j ↔ owner g = .table d' j := by
    intro g d' j
    rw [Function.update_apply]
    grind
  refine ⟨nodup, fun g => ?_, fun g => ?_, fun g d' j => ?_, fun g d' pn' => ?_⟩
  · rw [Memory.set_free, Function.update_apply]
    grind
  · rw [Function.update_apply]
    grind
  · rw [same]
    simp only [Function.update_apply]
    grind [Memory.set_other]
  · simp only [same]
    by_cases here : d' = d ∧ pn' = pn
    · rw [here.1, here.2, Function.update_apply]
      grind [Memory.set_same]
    · have one : pn / NPDENTRIES = pn' / NPDENTRIES → pn % NPDENTRIES = pn' % NPDENTRIES → pn = pn' := page_index
      have kept : ∀ t', owner t' = .table d' (pn' / NPDENTRIES) →
          (m.set t (pn % NPDENTRIES) w).word t' (pn' % NPDENTRIES) = m.word t' (pn' % NPDENTRIES) := by
        grind [Memory.set_index, Memory.set_other]
      rw [Function.update_apply]
      grind

/-- An entry of a page table of kernel addresses is written. -/
theorem PageOwners.kernelEntry (owners : PageOwners k m owner) (table : owner t = .table d (pn / NPDENTRIES))
    (high : USERPAGES ≤ pn) : PageOwners k (m.set t (pn % NPDENTRIES) w) owner := by
  have apart : ∀ pn', pn' < USERPAGES → pn' / NPDENTRIES ≠ pn / NPDENTRIES := by
    intro pn' low
    unfold USERPAGES KERNBASE PGSIZE NPDENTRIES at *
    omega
  obtain ⟨nodup, free, kernel, tables, page⟩ := owners
  refine ⟨nodup, free, kernel, fun g d' j => ?_, fun g d' pn' => ?_⟩
  · grind [Memory.set_other]
  · grind [Memory.set_other]

/-- A page in the kernel's hands is freed. -/
theorem PageOwners.give (owners : PageOwners k m owner) (hand : owner f = .hand) :
    PageOwners k (m.release f) (Function.update owner f .free) := by
  obtain ⟨nodup, free, kernel, table, page⟩ := owners
  have missing : f ∉ m.free := by grind
  refine ⟨List.nodup_cons.mpr ⟨missing, nodup⟩, fun g => ?_, fun g => ?_, fun g d' j => ?_, fun g d' pn => ?_⟩
  · rw [Memory.release_free, Function.update_apply, List.mem_cons]
    grind
  · rw [Function.update_apply]
    grind
  · simp only [Function.update_apply]
    grind [Memory.release_other]
  · simp only [Function.update_apply]
    grind [Memory.release_other]

/-- A user page is freed and its entry is cleared. -/
theorem PageOwners.dropPage (owners : PageOwners k m owner) (mapped : owner f = .page d pn)
    (table : owner t = .table d (pn / NPDENTRIES)) :
    PageOwners k ((m.release f).set t (pn % NPDENTRIES) 0) (Function.update owner f .free) := by
  have only : ∀ t', owner t' = .table d (pn / NPDENTRIES) → t' = t := fun t' other => owners.one_table other table
  obtain ⟨nodup, free, kernel, tables, page⟩ := owners
  have missing : f ∉ m.free := by grind
  have apart : t ≠ f := by grind
  have same : ∀ g d' j, Function.update owner f .free g = .table d' j ↔ owner g = .table d' j := by
    intro g d' j
    rw [Function.update_apply]
    grind
  refine ⟨List.nodup_cons.mpr ⟨missing, nodup⟩, fun g => ?_, fun g => ?_, fun g d' j => ?_, fun g d' pn' => ?_⟩
  · rw [Memory.set_free, Memory.release_free, Function.update_apply, List.mem_cons]
    grind
  · rw [Function.update_apply]
    grind
  · rw [same]
    simp only [Function.update_apply]
    grind [Memory.release_other, Memory.set_other]
  · simp only [same]
    by_cases here : d' = d ∧ pn' = pn
    · rw [here.1, here.2, Function.update_apply]
      grind [Memory.set_same, frameOf_zero]
    · have one : pn / NPDENTRIES = pn' / NPDENTRIES → pn % NPDENTRIES = pn' % NPDENTRIES → pn = pn' := page_index
      have kept : ∀ t', owner t' = .table d' (pn' / NPDENTRIES) →
          ((m.release f).set t (pn % NPDENTRIES) 0).word t' (pn' % NPDENTRIES) = m.word t' (pn' % NPDENTRIES) := by
        grind [Memory.release_other, Memory.set_index, Memory.set_other]
      rw [Function.update_apply]
      grind

/-- An entry of a directory that is being freed was not present. -/
theorem PageOwners.skipTable (owners : PageOwners k m owner) (dir : owner d = .dir n)
    (absent : frameOf (m.word d n) = none) : PageOwners k m (Function.update owner d (.dir (n + 1))) := by
  obtain ⟨nodup, free, kernel, table, page⟩ := owners
  refine ⟨nodup, fun g => ?_, fun g => ?_, fun g d' j => ?_, fun g d' pn => ?_⟩
  · rw [Function.update_apply]
    grind
  · rw [Function.update_apply]
    grind
  · simp only [Function.update_apply]
    grind
  · simp only [Function.update_apply]
    grind

/-- A page table without user pages is freed. -/
theorem PageOwners.closeTable (owners : PageOwners k m owner) (dir : owner d = .dir n) (low : n < NPDENTRIES)
    (named : frameOf (m.word d n) = some t) (bare : ∀ f pn, owner f ≠ .page d pn) :
    PageOwners k (m.release t) (Function.update (Function.update owner t .free) d (.dir (n + 1))) := by
  obtain ⟨nodup, free, kernel, table, page⟩ := owners
  have was : owner t = .table d n := (table t d n).mpr ⟨low, n, dir, Nat.le_refl n, named⟩
  have missing : t ∉ m.free := by grind
  have apart : d ≠ t := by grind
  refine ⟨List.nodup_cons.mpr ⟨missing, nodup⟩, fun g => ?_, fun g => ?_, fun g d' j => ?_, fun g d' pn => ?_⟩
  · rw [Memory.release_free, List.mem_cons]
    simp only [Function.update_apply]
    grind
  · simp only [Function.update_apply]
    grind
  · simp only [Function.update_apply]
    grind [Memory.release_other]
  · simp only [Function.update_apply]
    grind [Memory.release_other]

/-- A directory without page tables is freed. -/
theorem PageOwners.closeDir (owners : PageOwners k m owner) (dir : owner d = .dir NPDENTRIES) :
    PageOwners k (m.release d) (Function.update owner d .free) := by
  obtain ⟨nodup, free, kernel, table, page⟩ := owners
  have missing : d ∉ m.free := by grind
  refine ⟨List.nodup_cons.mpr ⟨missing, nodup⟩, fun g => ?_, fun g => ?_, fun g d' j => ?_, fun g d' pn => ?_⟩
  · rw [Memory.release_free, Function.update_apply, List.mem_cons]
    grind
  · rw [Function.update_apply]
    grind
  · simp only [Function.update_apply]
    grind [Memory.release_other]
  · simp only [Function.update_apply]
    grind [Memory.release_other]

/-- A page that is owned by the allocator's users can be freed. -/
theorem PageOwners.usable (owners : PageOwners k m owner) (owned : owner f ≠ .kernel) : Memory.usable k f = true := by
  by_contra unusable
  exact owned ((owners.kernel f).mpr (Bool.eq_false_iff.mpr unusable))

/-- A page that is owned is not on the free list. -/
theorem PageOwners.missing (owners : PageOwners k m owner) (owned : owner f ≠ .free) : f ∉ m.free :=
  fun member => owned ((owners.free f).mpr member)

end Transfers

/-! ## Mappings -/

/-- The entry for a page number, if it is present. -/
def Memory.mapping (m : Memory) (d pn : Nat) : Option Nat :=
  match frameOf (m.word d (pn / NPDENTRIES)) with
  | none => none
  | some t => if present (m.word t (pn % NPDENTRIES)) then some (m.word t (pn % NPDENTRIES)) else none

section Mappings

variable {k : KernelImage} {m m' : Memory} {owner : Nat → Owner} {d d' f i n pn pn' t w : Nat}

/-- A mapping depends on one word of the directory and one of the table. -/
theorem Memory.mapping_congr (dir : m'.word d (pn / NPDENTRIES) = m.word d (pn / NPDENTRIES))
    (table : ∀ t, frameOf (m.word d (pn / NPDENTRIES)) = some t →
      m'.word t (pn % NPDENTRIES) = m.word t (pn % NPDENTRIES)) : m'.mapping d pn = m.mapping d pn := by
  unfold Memory.mapping
  rw [dir]
  cases named : frameOf (m.word d (pn / NPDENTRIES)) with
  | none => rfl
  | some t => simp only [table t named]

/-- The mappings of a directory depend on its page and its tables. -/
theorem PageOwners.mapping_congr (owners : PageOwners k m owner) (live : owner d = .dir 0) (inside : pn < NPDENTRIES * NPDENTRIES)
    (dir : m'.word d = m.word d) (table : ∀ t i, owner t = .table d i → m'.word t = m.word t) :
    m'.mapping d pn = m.mapping d pn := by
  refine Memory.mapping_congr (congrFun dir _) fun t named => ?_
  refine congrFun (table t (pn / NPDENTRIES) ((owners.table t d _).mpr ⟨?_, 0, live, Nat.zero_le _, named⟩)) _
  unfold NPDENTRIES at *
  omega

/-- The mapping through the page table at its index. -/
theorem PageOwners.mapping_table (owners : PageOwners k m owner) (table : owner t = .table d (pn / NPDENTRIES)) :
    m.mapping d pn = if present (m.word t (pn % NPDENTRIES)) then some (m.word t (pn % NPDENTRIES)) else none := by
  obtain ⟨_, _, _, _, named⟩ := (owners.table t d _).mp table
  unfold Memory.mapping
  rw [named]

/-- An entry that is not present names no frame. -/
theorem frameOf_none : frameOf w = none ↔ present w = false := by
  unfold frameOf
  cases present w <;> simp

/-- An entry that is present names its frame. -/
theorem frameOf_some (here : present w = true) : frameOf w = some (w / PGSIZE) := if_pos here

/-- A page is mapped where its owner says. -/
theorem PageOwners.page_mapping (owners : PageOwners k m owner) (owned : owner f = .page d pn) :
    ∃ w, m.mapping d pn = some w ∧ w / PGSIZE = f := by
  obtain ⟨_, t, table, named⟩ := (owners.page f d pn).mp owned
  rw [owners.mapping_table table]
  unfold frameOf at named
  split at named
  · rename_i here
    exact ⟨_, if_pos here, Option.some.inj named⟩
  · contradiction

/-- A page that is mapped is owned there. -/
theorem PageOwners.mapping_page (owners : PageOwners k m owner) (live : owner d = .dir 0) (user : pn < USERPAGES)
    (mapped : m.mapping d pn = some w) : owner (w / PGSIZE) = .page d pn := by
  unfold Memory.mapping at mapped
  split at mapped
  · contradiction
  · rename_i t named
    have table : owner t = .table d (pn / NPDENTRIES) := by
      refine (owners.table t d _).mpr ⟨?_, 0, live, Nat.zero_le _, named⟩
      unfold USERPAGES KERNBASE PGSIZE at user
      unfold NPDENTRIES
      omega
    split at mapped
    · rename_i here
      cases mapped
      exact (owners.page _ d pn).mpr ⟨user, t, table, frameOf_some here⟩
    · contradiction

/-- A new page table maps nothing. -/
theorem PageOwners.addTable_mapping (owners : PageOwners k m owner) (live : owner d = .dir 0) (hand : owner t = .hand)
    (empty : ∀ j, m.word t j = 0) (absent : frameOf (m.word d i) = none) (word : frameOf w = some t)
    (live' : owner d' = .dir 0) (inside : pn < NPDENTRIES * NPDENTRIES) :
    (m.set d i w).mapping d' pn = m.mapping d' pn := by
  have low : pn / NPDENTRIES < NPDENTRIES := by
    unfold NPDENTRIES at *
    omega
  have aside : ∀ t' j, owner t' = .table d' j → (m.set d i w).word t' = m.word t' := by
    intro t' j table
    refine Memory.set_other ?_
    rintro rfl
    rw [live] at table
    contradiction
  by_cases here : d' = d
  · rw [here] at live' aside ⊢
    by_cases index : pn / NPDENTRIES = i
    · have apart : t ≠ d := by
        rintro rfl
        rw [live] at hand
        contradiction
      unfold Memory.mapping
      rw [index, Memory.set_same, word, absent]
      simp only [Memory.set_other apart, empty]
      rfl
    · refine Memory.mapping_congr (Memory.set_index index) fun t' named => ?_
      exact congrFun (aside t' _ ((owners.table t' d _).mpr ⟨low, 0, live, Nat.zero_le _, named⟩)) _
  · exact owners.mapping_congr live' inside (Memory.set_other here) aside

/-- An entry of a page table changes one mapping. -/
theorem PageOwners.set_mapping (owners : PageOwners k m owner) (table : owner t = .table d (pn / NPDENTRIES))
    (live' : owner d' = .dir 0) (inside : pn' < NPDENTRIES * NPDENTRIES) (other : d' ≠ d ∨ pn' ≠ pn) :
    (m.set t (pn % NPDENTRIES) w).mapping d' pn' = m.mapping d' pn' := by
  have low : pn' / NPDENTRIES < NPDENTRIES := by
    unfold NPDENTRIES at *
    omega
  have dirs : ∀ g, owner g = .dir 0 → (m.set t (pn % NPDENTRIES) w).word g = m.word g := by
    intro g dir
    refine Memory.set_other ?_
    rintro rfl
    rw [table] at dir
    contradiction
  refine Memory.mapping_congr (congrFun (dirs d' live') _) fun t' named => ?_
  have table' := (owners.table t' d' _).mpr ⟨low, 0, live', Nat.zero_le _, named⟩
  by_cases here : t' = t
  · rw [here] at table' ⊢
    rw [table] at table'
    cases Owner.table.inj table' with
    | intro same index =>
      refine Memory.set_index fun column => ?_
      rcases other with dir | page
      · exact dir same.symm
      · exact page (page_index index.symm column)
  · rw [Memory.set_other here]

/-- The mapping that an entry of a page table gets. -/
theorem PageOwners.set_mapping_self (owners : PageOwners k m owner) (table : owner t = .table d (pn / NPDENTRIES))
    (live : owner d = .dir 0) : (m.set t (pn % NPDENTRIES) w).mapping d pn = if present w then some w else none := by
  obtain ⟨_, _, _, _, named⟩ := (owners.table t d _).mp table
  have apart : d ≠ t := by
    rintro rfl
    rw [live] at table
    contradiction
  unfold Memory.mapping
  rw [Memory.set_other apart, named]
  simp only [Memory.set_same]

end Mappings

end Xv6
