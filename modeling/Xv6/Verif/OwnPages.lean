import Xv6.Verif.Walks

/-!
# The pages of one directory

A directory whose page tables and user pages are distinct pages that `kalloc` handed out, whatever the
rest of memory holds. Unmapping one page frees its frame and clears its entry; every other entry and
the words of every other page stay.
-/

namespace Xv6

/-- The entry for a page number, if its page table is there. -/
def Memory.entry (m : Memory) (d pn : Nat) : Option Nat :=
  (frameOf (m.word d (pn / NPDENTRIES))).map fun t => m.word t (pn % NPDENTRIES)

/-- The page tables and the user pages of the directory are distinct pages that `kalloc` handed out. -/
structure OwnPages (k : KernelImage) (m : Memory) (d : Nat) : Prop where
  /-- The directory is no free page. -/
  dir : d ∉ m.free
  /-- Neither are its page tables. -/
  table : ∀ i < NPDENTRIES, ∀ t, frameOf (m.word d i) = some t → t ∉ m.free ∧ t ≠ d
  /-- Its page tables are distinct. -/
  tables : ∀ i < NPDENTRIES, ∀ j < NPDENTRIES, ∀ t, frameOf (m.word d i) = some t →
    frameOf (m.word d j) = some t → i = j
  /-- Its user pages can be freed and are no page tables. -/
  page : ∀ pn < USERPAGES, ∀ w, m.mapping d pn = some w → Memory.usable k (w / PGSIZE) = true ∧
    w / PGSIZE ∉ m.free ∧ w / PGSIZE ≠ d ∧ ∀ i < NPDENTRIES, frameOf (m.word d i) ≠ some (w / PGSIZE)
  /-- Its user pages are distinct. -/
  pages : ∀ pn < USERPAGES, ∀ pn' < USERPAGES, ∀ w w', m.mapping d pn = some w → m.mapping d pn' = some w' →
    w / PGSIZE = w' / PGSIZE → pn = pn'

/-- Unmap one page: if its entry is present, its frame is freed and the entry cleared. -/
def Memory.unmapPage (d : Nat) (m : Memory) (pn : Nat) : Memory :=
  match frameOf (m.word d (pn / NPDENTRIES)) with
  | none => m
  | some t =>
    if present (m.word t (pn % NPDENTRIES)) then
      (m.release (m.word t (pn % NPDENTRIES) / PGSIZE)).set t (pn % NPDENTRIES) 0
    else m

section Entries

variable {k : KernelImage} {m : Memory} {d pn t w : Nat}

/-- A page is mapped when its entry is present. -/
theorem Memory.mapping_eq_entry (m : Memory) (d pn : Nat) : m.mapping d pn = (m.entry d pn).filter present := by
  unfold Memory.mapping Memory.entry
  cases frameOf (m.word d (pn / NPDENTRIES)) with
  | none => rfl
  | some t => rfl

/-- The entry through its page table. -/
theorem Memory.entry_table (named : frameOf (m.word d (pn / NPDENTRIES)) = some t) :
    m.entry d pn = some (m.word t (pn % NPDENTRIES)) := by
  rw [Memory.entry, named]
  rfl

/-- A user page has an index in the directory. -/
theorem user_index (user : pn < USERPAGES) : pn / NPDENTRIES < NPDENTRIES := by
  unfold USERPAGES KERNBASE PGSIZE at user
  unfold NPDENTRIES
  omega

/-- A page number with an index in the directory. -/
theorem table_index (inside : pn < TABLEPAGES) : pn / NPDENTRIES < NPDENTRIES := by
  unfold TABLEPAGES NPDENTRIES at inside
  unfold NPDENTRIES
  omega

/-- A page whose entry is not present is unmapped already. -/
theorem Memory.unmapPage_absent (absent : m.mapping d pn = none) : m.unmapPage d pn = m := by
  unfold Memory.unmapPage
  cases named : frameOf (m.word d (pn / NPDENTRIES)) with
  | none => rfl
  | some t =>
    unfold Memory.mapping at absent
    rw [named] at absent
    dsimp only at absent ⊢
    split at absent
    · contradiction
    · rename_i away
      exact if_neg away

/-- Unmapping a page whose entry is present. -/
theorem Memory.unmapPage_present (named : frameOf (m.word d (pn / NPDENTRIES)) = some t)
    (here : present (m.word t (pn % NPDENTRIES)) = true) :
    m.unmapPage d pn = (m.release (m.word t (pn % NPDENTRIES) / PGSIZE)).set t (pn % NPDENTRIES) 0 := by
  rw [Memory.unmapPage, named]
  exact if_pos here

/-- A page that is mapped has a page table, and its entry there is present. -/
theorem Memory.mapping_some (mapped : m.mapping d pn = some w) :
    ∃ t, frameOf (m.word d (pn / NPDENTRIES)) = some t ∧ m.word t (pn % NPDENTRIES) = w ∧ present w = true := by
  unfold Memory.mapping at mapped
  split at mapped
  · contradiction
  · rename_i t named
    split at mapped
    · rename_i here
      cases mapped
      exact ⟨t, named, rfl, here⟩
    · contradiction

end Entries

/-- What unmapping one page that is mapped changes: its frame is free, its entry is zero. -/
structure Unmapped (m : Memory) (d pn w : Nat) (m' : Memory) : Prop where
  free : m'.free = w / PGSIZE :: m.free
  dir : m'.word d = m.word d
  /-- The entries. -/
  entry : ∀ q < TABLEPAGES, m'.entry d q = if q = pn then some 0 else m.entry d q
  kept : ∀ g, g ≠ w / PGSIZE → (∀ i < NPDENTRIES, frameOf (m.word d i) ≠ some g) → m'.word g = m.word g

section Unmapping

variable {k : KernelImage} {m m' : Memory} {d pn t w : Nat}

/-- An entry of one of the directory's page tables is written. -/
theorem OwnPages.set_entry (own : OwnPages k m d) (inside : pn < TABLEPAGES)
    (named : frameOf (m.word d (pn / NPDENTRIES)) = some t) (w : Nat) {q : Nat} (within : q < TABLEPAGES) :
    (m.set t (pn % NPDENTRIES) w).entry d q = if q = pn then some w else m.entry d q := by
  have table := (own.table _ (table_index inside) t named).2
  have dir : (m.set t (pn % NPDENTRIES) w).word d = m.word d := Memory.set_other (Ne.symm table)
  by_cases here : q = pn
  · rw [if_pos here, here, Memory.entry_table (t := t) (by rw [dir]; exact named), Memory.set_same]
  · rw [if_neg here]
    cases found : frameOf (m.word d (q / NPDENTRIES)) with
    | none =>
      rw [Memory.entry, Memory.entry, dir, found]
      rfl
    | some t' =>
      rw [Memory.entry_table (t := t') (by rw [dir]; exact found), Memory.entry_table found]
      by_cases same : t' = t
      · have block : q / NPDENTRIES = pn / NPDENTRIES :=
          own.tables _ (table_index within) _ (table_index inside) t (same ▸ found) named
        have column : q % NPDENTRIES ≠ pn % NPDENTRIES := fun equal => here (page_index block equal)
        rw [same, Memory.set_index column]
      · rw [Memory.set_other same]

/-- The mappings then. -/
theorem OwnPages.set_mapping (own : OwnPages k m d) (inside : pn < TABLEPAGES)
    (named : frameOf (m.word d (pn / NPDENTRIES)) = some t) (w : Nat) {q : Nat} (within : q < TABLEPAGES) :
    (m.set t (pn % NPDENTRIES) w).mapping d q =
      if q = pn then (if present w then some w else none) else m.mapping d q := by
  rw [Memory.mapping_eq_entry, Memory.mapping_eq_entry, own.set_entry inside named w within]
  by_cases here : q = pn
  · rw [if_pos here, if_pos here, Option.filter_some]
  · rw [if_neg here, if_neg here]

/-- A user page of a directory is unmapped. -/
theorem OwnPages.unmapPage (own : OwnPages k m d) (user : pn < USERPAGES) (mapped : m.mapping d pn = some w) :
    Unmapped m d pn w (m.unmapPage d pn) := by
  obtain ⟨t, named, entry, here⟩ := Memory.mapping_some mapped
  have index := user_index user
  obtain ⟨usable, missing, apart, untabled⟩ := own.page pn user w mapped
  have other : t ≠ w / PGSIZE := fun same => untabled _ index (same ▸ named)
  have table := (own.table _ index t named).2
  rw [Memory.unmapPage_present named (entry ▸ here), entry]
  have dir : ((m.release (w / PGSIZE)).set t (pn % NPDENTRIES) 0).word d = m.word d := by
    rw [Memory.set_other (Ne.symm table), Memory.release_other (Ne.symm apart)]
  constructor
  · rfl
  · exact dir
  · intro q inside
    cases found : frameOf (m.word d (q / NPDENTRIES)) with
    | none =>
      have differs : q ≠ pn := by
        rintro rfl
        rw [named] at found
        cases found
      rw [if_neg differs, Memory.entry, Memory.entry, dir, found]
      rfl
    | some t' =>
      rw [Memory.entry_table (t := t') (by rw [dir]; exact found), Memory.entry_table found]
      by_cases same : t' = t
      · have block : q / NPDENTRIES = pn / NPDENTRIES := by
          refine own.tables _ (table_index inside) _ index t ?_ named
          rw [found, same]
        by_cases column : q % NPDENTRIES = pn % NPDENTRIES
        · rw [if_pos (page_index block column), same, column, Memory.set_same]
        · have differs : q ≠ pn := fun equal => column (congrArg (· % NPDENTRIES) equal)
          rw [if_neg differs, same, Memory.set_index column, Memory.release_other other]
      · have differs : q ≠ pn := by
          rintro rfl
          rw [named] at found
          exact same (Option.some.inj found).symm
        have frame : t' ≠ w / PGSIZE := fun equal => untabled _ (table_index inside) (equal ▸ found)
        rw [if_neg differs, Memory.set_other same, Memory.release_other frame]
  · intro g away outside
    have aside : g ≠ t := fun same => outside _ index (same ▸ named)
    rw [Memory.set_other aside, Memory.release_other away]

/-- The mappings after a page is unmapped. -/
theorem Unmapped.mapping (unmapped : Unmapped m d pn w m') {q : Nat} (inside : q < TABLEPAGES) :
    m'.mapping d q = if q = pn then none else m.mapping d q := by
  rw [Memory.mapping_eq_entry, Memory.mapping_eq_entry, unmapped.entry q inside]
  by_cases here : q = pn
  · rw [if_pos here, if_pos here]
    rfl
  · rw [if_neg here, if_neg here]

/-- A user page number is a page number. -/
theorem user_inside {pn : Nat} (user : pn < USERPAGES) : pn < TABLEPAGES := Nat.lt_trans user (by decide)

/-- The other pages are still the directory's own. -/
theorem Unmapped.own (unmapped : Unmapped m d pn w m') (own : OwnPages k m d) (user : pn < USERPAGES)
    (mapped : m.mapping d pn = some w) : OwnPages k m' d := by
  obtain ⟨usable, missing, apart, untabled⟩ := own.page pn user w mapped
  have before : ∀ q < USERPAGES, ∀ w', m'.mapping d q = some w' → q ≠ pn ∧ m.mapping d q = some w' := by
    intro q inside w' found
    rw [unmapped.mapping (user_inside inside)] at found
    split at found
    · contradiction
    · rename_i other
      exact ⟨other, found⟩
  constructor
  · rw [unmapped.free]
    intro member
    rcases List.mem_cons.mp member with same | old
    · exact apart same.symm
    · exact own.dir old
  · intro i index t found
    rw [unmapped.dir] at found
    obtain ⟨away, other⟩ := own.table i index t found
    refine ⟨?_, other⟩
    rw [unmapped.free]
    intro member
    rcases List.mem_cons.mp member with same | old
    · exact untabled i index (same ▸ found)
    · exact away old
  · rw [unmapped.dir]
    exact own.tables
  · intro q inside w' found
    obtain ⟨other, old⟩ := before q inside w' found
    obtain ⟨usable', missing', apart', untabled'⟩ := own.page q inside w' old
    refine ⟨usable', ?_, apart', ?_⟩
    · rw [unmapped.free]
      intro member
      rcases List.mem_cons.mp member with same | there
      · exact other (own.pages q inside pn user w' w old mapped same)
      · exact missing' there
    · rw [unmapped.dir]
      exact untabled'
  · intro q inside q' inside' w₁ w₂ first second same
    exact own.pages q inside q' inside' w₁ w₂ (before q inside w₁ first).2 (before q' inside' w₂ second).2 same

/-- Unmapping any page keeps the pages of the directory its own. -/
theorem OwnPages.unmap (own : OwnPages k m d) (user : pn < USERPAGES) : OwnPages k (m.unmapPage d pn) d := by
  cases mapped : m.mapping d pn with
  | none =>
    rw [Memory.unmapPage_absent mapped]
    exact own
  | some w => exact (own.unmapPage user mapped).own own user mapped

end Unmapping

end Xv6
