import Mathlib.Data.Finset.Card
import Xv6.Verif.PageByPage

/-!
# Mapping page by page

What it takes to map a new page in a directory: a page for it and, where its page table is missing,
one for the table. `allocuvm` maps the pages of its range if there are enough free pages, and leaves the
mappings and the contents of all pages as they were if there are not.
-/

namespace Xv6

/-- The free pages can be freed again, and each is on the list once. -/
structure Stock (k : KernelImage) (m : Memory) : Prop where
  nodup : m.free.Nodup
  /-- They can be freed. -/
  usable : ∀ f ∈ m.free, Memory.usable k f = true

/-- The page is neither free nor a page of the directory. -/
structure Loose (k : KernelImage) (m : Memory) (d f : Nat) : Prop where
  usable : Memory.usable k f = true
  /-- It is not free. -/
  missing : f ∉ m.free
  /-- It is not the directory. -/
  dir : f ≠ d
  /-- It is no page table. -/
  table : ∀ i < NPDENTRIES, frameOf (m.word d i) ≠ some f
  /-- It is not mapped. -/
  page : ∀ pn < USERPAGES, ∀ w, m.mapping d pn = some w → w / PGSIZE ≠ f

section Pages

variable {k : KernelImage} {m m' : Memory} {d f g t i w pn : Nat} {rest : List Nat}

/-- The directory and its page tables have the same words. -/
def SameTables (m : Memory) (d : Nat) (m' : Memory) : Prop :=
  m'.word d = m.word d ∧ ∀ i < NPDENTRIES, ∀ t, frameOf (m.word d i) = some t → m'.word t = m.word t

/-- The same tables map the same pages. -/
theorem SameTables.mapping (same : SameTables m d m') (inside : pn < TABLEPAGES) : m'.mapping d pn = m.mapping d pn :=
  Memory.mapping_congr (congrFun same.1 _) fun t named => congrFun (same.2 _ (table_index inside) t named) _

/-- The pages of a directory are its own as long as its tables are the same and no page is freed. -/
theorem OwnPages.congr (own : OwnPages k m d) (free : ∀ g, g ∈ m'.free → g ∈ m.free) (same : SameTables m d m') :
    OwnPages k m' d := by
  have mapping : ∀ pn < USERPAGES, m'.mapping d pn = m.mapping d pn := fun pn user => same.mapping (user_inside user)
  refine ⟨fun member => own.dir (free d member), ?_, ?_, ?_, ?_⟩
  · intro i index t named
    rw [same.1] at named
    obtain ⟨missing, other⟩ := own.table i index t named
    exact ⟨fun member => missing (free t member), other⟩
  · rw [same.1]
    exact own.tables
  · intro pn user w mapped
    rw [mapping pn user] at mapped
    obtain ⟨usable, missing, apart, untabled⟩ := own.page pn user w mapped
    rw [same.1]
    exact ⟨usable, fun member => missing (free _ member), apart, untabled⟩
  · intro pn user pn' user' w w' mapped mapped'
    rw [mapping pn user] at mapped
    rw [mapping pn' user'] at mapped'
    exact own.pages pn user pn' user' w w' mapped mapped'

/-- A loose page stays loose. -/
theorem Loose.congr (loose : Loose k m d f) (free : f ∉ m'.free) (same : SameTables m d m') : Loose k m' d f := by
  refine ⟨loose.usable, free, loose.dir, ?_, ?_⟩
  · rw [same.1]
    exact loose.table
  · intro pn user w mapped
    rw [same.mapping (user_inside user)] at mapped
    exact loose.page pn user w mapped

/-- Writing a loose page leaves the tables. -/
theorem Loose.write (loose : Loose k m d f) (words : Nat → Nat) : SameTables m d (m.setFrame f words) := by
  refine ⟨Memory.setFrame_other (Ne.symm loose.dir), fun i index t named => Memory.setFrame_other ?_⟩
  rintro rfl
  exact loose.table i index named

/-- `kalloc` takes the first free page, which is loose then. -/
theorem OwnPages.take (own : OwnPages k m d) (stock : Stock k m) (head : m.free = f :: rest) :
    OwnPages k { m with free := rest } d ∧ Stock k { m with free := rest } ∧ Loose k { m with free := rest } d f := by
  have same : SameTables m d { m with free := rest } := ⟨rfl, fun _ _ _ _ => rfl⟩
  have here : f ∈ m.free := by
    rw [head]
    exact List.mem_cons_self
  have nodup := stock.nodup
  rw [head, List.nodup_cons] at nodup
  have within : ∀ g, g ∈ rest → g ∈ m.free := by
    intro g member
    rw [head]
    exact List.mem_cons_of_mem f member
  refine ⟨own.congr within same, ⟨nodup.2, fun g member => stock.usable g (within g member)⟩,
    ⟨stock.usable f here, nodup.1, ?_, ?_, ?_⟩⟩
  · rintro rfl
    exact own.dir here
  · intro i index named
    exact (own.table i index f named).1 here
  · intro pn user w mapped same
    exact (own.page pn user w mapped).2.1 (same ▸ here)

/-- An empty page becomes a page table of the directory: no mapping changes. -/
theorem OwnPages.addTable (own : OwnPages k m d) (loose : Loose k m d t) (empty : ∀ j, m.word t j = 0)
    (absent : frameOf (m.word d i) = none) (word : frameOf w = some t) :
    OwnPages k (m.set d i w) d ∧ ∀ pn < TABLEPAGES, (m.set d i w).mapping d pn = m.mapping d pn := by
  have dir : ∀ j, frameOf ((m.set d i w).word d j) = if j = i then some t else frameOf (m.word d j) := by
    intro j
    by_cases here : j = i
    · rw [if_pos here, here, Memory.set_same, word]
    · rw [if_neg here, Memory.set_index here]
  have kept : ∀ g, g ≠ d → (m.set d i w).word g = m.word g := fun g other => Memory.set_other other
  have mapping : ∀ pn < TABLEPAGES, (m.set d i w).mapping d pn = m.mapping d pn := by
    intro pn inside
    unfold Memory.mapping
    rw [dir]
    by_cases here : pn / NPDENTRIES = i
    · rw [if_pos here, here, absent]
      dsimp only
      rw [kept t loose.dir, empty]
      rfl
    · rw [if_neg here]
      cases named : frameOf (m.word d (pn / NPDENTRIES)) with
      | none => rfl
      | some t' =>
        dsimp only
        rw [kept t' (own.table _ (table_index inside) t' named).2]
  have old : ∀ j < NPDENTRIES, ∀ t', frameOf ((m.set d i w).word d j) = some t' →
      j = i ∧ t' = t ∨ j ≠ i ∧ frameOf (m.word d j) = some t' := by
    intro j _ t' named
    rw [dir] at named
    split at named
    · rename_i here
      exact .inl ⟨here, (Option.some.inj named).symm⟩
    · rename_i other
      exact .inr ⟨other, named⟩
  refine ⟨⟨own.dir, ?_, ?_, ?_, ?_⟩, mapping⟩
  · intro j below t' named
    rcases old j below t' named with ⟨_, rfl⟩ | ⟨_, named⟩
    · exact ⟨loose.missing, loose.dir⟩
    · exact own.table j below t' named
  · intro j below j' below' t' named named'
    rcases old j below t' named with ⟨here, new⟩ | ⟨_, found⟩ <;>
      rcases old j' below' t' named' with ⟨here', new'⟩ | ⟨_, found'⟩
    · exact here.trans here'.symm
    · exact absurd (new ▸ found') (loose.table j' below')
    · exact absurd (new' ▸ found) (loose.table j below)
    · exact own.tables j below j' below' t' found found'
  · intro pn user w' mapped
    rw [mapping pn (user_inside user)] at mapped
    obtain ⟨usable, missing, apart, untabled⟩ := own.page pn user w' mapped
    refine ⟨usable, missing, apart, fun j below named => ?_⟩
    rcases old j below _ named with ⟨_, same⟩ | ⟨_, named⟩
    · exact loose.page pn user w' mapped same
    · exact untabled j below named
  · intro pn user pn' user' w₁ w₂ mapped mapped'
    rw [mapping pn (user_inside user)] at mapped
    rw [mapping pn' (user_inside user')] at mapped'
    exact own.pages pn user pn' user' w₁ w₂ mapped mapped'

/-- A loose page is mapped at a page number whose page table is there. -/
theorem OwnPages.addPage (own : OwnPages k m d) (loose : Loose k m d f) (user : pn < USERPAGES)
    (named : frameOf (m.word d (pn / NPDENTRIES)) = some t) (shown : present w = true) (frame : w / PGSIZE = f) :
    OwnPages k (m.set t (pn % NPDENTRIES) w) d ∧
      ∀ q < TABLEPAGES, (m.set t (pn % NPDENTRIES) w).mapping d q = if q = pn then some w else m.mapping d q := by
  have table := own.table _ (user_index user) t named
  have dir : (m.set t (pn % NPDENTRIES) w).word d = m.word d := Memory.set_other (Ne.symm table.2)
  have mapping : ∀ q < TABLEPAGES, (m.set t (pn % NPDENTRIES) w).mapping d q =
      if q = pn then some w else m.mapping d q := by
    intro q inside
    rw [own.set_mapping (user_inside user) named w inside, if_pos shown]
  have old : ∀ q < USERPAGES, ∀ w', (m.set t (pn % NPDENTRIES) w).mapping d q = some w' →
      q = pn ∧ w' = w ∨ q ≠ pn ∧ m.mapping d q = some w' := by
    intro q inside w' mapped
    rw [mapping q (user_inside inside)] at mapped
    split at mapped
    · rename_i here
      exact .inl ⟨here, (Option.some.inj mapped).symm⟩
    · rename_i other
      exact .inr ⟨other, mapped⟩
  refine ⟨⟨own.dir, ?_, ?_, ?_, ?_⟩, mapping⟩
  · rw [dir]
    exact own.table
  · rw [dir]
    exact own.tables
  · intro q inside w' mapped
    rw [dir]
    rcases old q inside w' mapped with ⟨_, rfl⟩ | ⟨_, mapped⟩
    · rw [frame]
      exact ⟨loose.usable, loose.missing, loose.dir, loose.table⟩
    · exact own.page q inside w' mapped
  · intro q inside q' inside' w₁ w₂ mapped mapped' same
    rcases old q inside w₁ mapped with ⟨here, new⟩ | ⟨_, found⟩ <;>
      rcases old q' inside' w₂ mapped' with ⟨here', new'⟩ | ⟨_, found'⟩
    · exact here.trans here'.symm
    · rw [new, frame] at same
      exact absurd same.symm (loose.page q' inside' w₂ found')
    · rw [new', frame] at same
      exact absurd same (loose.page q inside w₁ found)
    · exact own.pages q inside q' inside' w₁ w₂ found found' same

end Pages

/-! ## One page -/

/-- A page number has a page table, which was set up if there was none; at most its own mapping has
changed. -/
structure Provided (k : KernelImage) (m : Memory) (d pn : Nat) (m' : Memory) : Prop where
  /-- The pages of the directory are its own. -/
  own : OwnPages k m' d
  stock : Stock k m'
  /-- The mappings of the other page numbers. -/
  mapping : ∀ q < TABLEPAGES, q ≠ pn → m'.mapping d q = m.mapping d q
  /-- The page tables are the old ones and free pages. -/
  tables : ∀ i < NPDENTRIES, ∀ t, frameOf (m'.word d i) = some t → frameOf (m.word d i) = some t ∨ t ∈ m.free
  /-- Which page tables are missing. -/
  missing : ∀ i, frameOf (m'.word d i) = none ↔ frameOf (m.word d i) = none ∧ i ≠ pn / NPDENTRIES
  /-- The pages that are still free. -/
  free : ∀ g, g ∈ m'.free → g ∈ m.free
  /-- How many they are. -/
  count : m.free.length = m'.free.length + if frameOf (m.word d (pn / NPDENTRIES)) = none then 1 else 0
  kept : ∀ g, g ∉ m.free → g ≠ d → (∀ i < NPDENTRIES, frameOf (m.word d i) ≠ some g) → m'.word g = m.word g

section OnePage

variable {k : KernelImage} {m m' : Memory} {d f g t i w pn perm : Nat} {rest : List Nat}

/-- The frame of the word that `mappages` writes. -/
theorem pteWord_frame (f : Nat) (small : perm < PGSIZE) : pteWord (f * PGSIZE) perm / PGSIZE = f :=
  Option.some.inj ((frameOf_some (present_pteWord (Nat.mul_mod_left f PGSIZE))).symm.trans (frameOf_pteWord f perm small))

/-- The page number of a page's address, which is also its last page. -/
theorem mappages_user (user : pn < USERPAGES) (d f perm : Nat) : Vm.mappages d (pn * PGSIZE) PGSIZE (f * PGSIZE) perm =
    Vm.mapLoop d (pn * PGSIZE) perm (2 ^ 20 - 1 + 1) (pn * PGSIZE) (f * PGSIZE) := by
  have here : pn * PGSIZE / PGSIZE = pn := Nat.mul_div_cancel pn (by decide)
  have last : uint ((pn * PGSIZE : Nat) + PGSIZE - 1) / PGSIZE * PGSIZE = pn * PGSIZE := by
    unfold USERPAGES KERNBASE at user
    unfold uint
    unfold PGSIZE at *
    omega
  have whole : 2 ^ 20 - 1 + 1 = 2 ^ 20 := by decide
  show Vm.mapLoop d (uint ((pn * PGSIZE : Nat) + PGSIZE - 1) / PGSIZE * PGSIZE) perm (2 ^ 20)
    (pn * PGSIZE / PGSIZE * PGSIZE) (f * PGSIZE) = _
  rw [here, last, whole]

/-- A page table is set up with a free page. -/
theorem OwnPages.newTable (own : OwnPages k m d) (stock : Stock k m) (head : m.free = t :: rest)
    (absent : frameOf (m.word d i) = none) (word : frameOf w = some t) :
    let m₁ := (Memory.setFrame { m with free := rest } t fun _ => 0).set d i w
    OwnPages k m₁ d ∧ Stock k m₁ ∧ (∀ pn < TABLEPAGES, m₁.mapping d pn = m.mapping d pn) ∧
      (∀ j, frameOf (m₁.word d j) = if j = i then some t else frameOf (m.word d j)) ∧ (∀ j, m₁.word t j = 0) ∧
      ∀ g, g ≠ t → g ≠ d → m₁.word g = m.word g := by
  intro m₁
  obtain ⟨own₀, stock₀, loose⟩ := own.take stock head
  have same := loose.write fun _ => 0
  have own₁ : OwnPages k (Memory.setFrame { m with free := rest } t fun _ => 0) d := own₀.congr (fun _ => id) same
  have loose₁ : Loose k (Memory.setFrame { m with free := rest } t fun _ => 0) d t := loose.congr loose.missing same
  have empty : ∀ j, (Memory.setFrame { m with free := rest } t fun _ => 0).word t j = 0 := by
    intro j
    rw [Memory.setFrame_self]
  have absent₁ : frameOf ((Memory.setFrame { m with free := rest } t fun _ => 0).word d i) = none := by
    rw [same.1]
    exact absent
  obtain ⟨own₂, mapping⟩ := own₁.addTable loose₁ empty absent₁ word
  refine ⟨own₂, ⟨stock₀.nodup, stock₀.usable⟩, fun pn inside => (mapping pn inside).trans (same.mapping inside), fun j => ?_,
    fun j => ?_, fun g other apart => ?_⟩
  · by_cases here : j = i
    · rw [if_pos here, here, Memory.set_same, word]
    · rw [if_neg here, Memory.set_index here, same.1]
  · rw [Memory.set_other loose.dir, Memory.setFrame_self]
  · rw [Memory.set_other apart, Memory.setFrame_other other]

/-- The entry of a page that is not mapped. -/
theorem Memory.absent_entry (named : frameOf (m.word d (pn / NPDENTRIES)) = some t) (absent : m.mapping d pn = none) :
    present (m.word t (pn % NPDENTRIES)) = false := by
  unfold Memory.mapping at absent
  rw [named] at absent
  dsimp only at absent
  split at absent
  · contradiction
  · rename_i away
    exact Bool.not_eq_true _ ▸ away

/-- `walkpgdir` finds or sets up the page table of a page, or there is none and no page is free. -/
theorem walkpgdir_provides (own : OwnPages k m d) (stock : Stock k m) (inside : pn < TABLEPAGES) :
    Returns k (Vm.walkpgdir d (pn * PGSIZE) true) m fun r m' =>
      (r = none ∧ frameOf (m.word d (pn / NPDENTRIES)) = none ∧ m.free = [] ∧ m' = m) ∨
        ∃ t, r = some (t, pn % NPDENTRIES) ∧ frameOf (m'.word d (pn / NPDENTRIES)) = some t ∧ Provided k m d pn m' ∧
          m'.mapping d pn = m.mapping d pn := by
  unfold Vm.walkpgdir
  rw [PDX_page, PTX_page]
  refine .bind (Vm.load_returns own.dir _) fun w m₁ known => ?_
  obtain ⟨rfl, rfl⟩ := known
  cases named : frameOf (m₁.word d (pn / NPDENTRIES)) with
  | some t =>
    have there : frameOf (m₁.word d (pn / NPDENTRIES)) ≠ none := by rw [named]; exact Option.some_ne_none t
    refine Returns.pure (.inr ⟨t, rfl, named, ⟨own, stock, fun _ _ _ => rfl, fun _ _ _ => .inl, fun i => ?_, fun _ => id,
      ?_, fun _ _ _ _ => rfl⟩, rfl⟩)
    · exact ⟨fun absent => ⟨absent, fun here => there (here ▸ absent)⟩, And.left⟩
    · rw [if_neg there]
      rfl
  | none =>
    simp only [if_true]
    refine .bind (Vm.kalloc_returns k m₁) fun r m₂ known => ?_
    rcases known with ⟨rfl, empty, rfl⟩ | ⟨t, rest, rfl, head, rfl⟩
    · exact Returns.pure (.inl ⟨rfl, trivial, empty, rfl⟩)
    · obtain ⟨own₀, stock₀, loose⟩ := own.take stock head
      have here : t ∈ m₁.free := by
        rw [head]
        exact List.mem_cons_self
      obtain ⟨own₂, stock₂, mapping, dir, _, kept⟩ :=
        own.newTable stock head named (frameOf_pteWord t (PTE_W + PTE_U) (by decide))
      refine .bind (Vm.clear_returns loose.missing) fun _ m₂ known => ?_
      subst known
      have used : d ∉ (Memory.setFrame { m₁ with free := rest } t fun _ => 0).free := own₀.dir
      refine .bind (Vm.store_returns used _ _) fun _ m₂ known => ?_
      subst known
      refine Returns.pure (.inr ⟨t, rfl, ?_, ⟨own₂, stock₂, fun q inside _ => mapping q inside, fun i _ t' found => ?_, fun i => ?_,
        fun g member => ?_, ?_, fun g used apart _ => kept g (fun same => used (same ▸ here)) apart⟩,
        mapping pn inside⟩)
      · rw [dir, if_pos rfl]
      · rw [dir] at found
        split at found
        · exact .inr (Option.some.inj found ▸ here)
        · exact .inl found
      · rw [dir]
        by_cases same : i = pn / NPDENTRIES
        · rw [if_pos same]
          exact ⟨nofun, fun both => absurd same both.2⟩
        · rw [if_neg same]
          exact ⟨fun absent => ⟨absent, same⟩, And.left⟩
      · rw [head]
        exact List.mem_cons_of_mem t member
      · rw [head, if_pos named]
        rfl

/-- `mappages` of a loose page at a user page that is not mapped: it is mapped, or its page table is
missing and no page is free. -/
theorem mappages_enters (own : OwnPages k m d) (stock : Stock k m) (loose : Loose k m d f) (user : pn < USERPAGES)
    (small : perm < PGSIZE) (absent : m.mapping d pn = none) :
    Returns k (Vm.mappages d (pn * PGSIZE) PGSIZE (f * PGSIZE) perm) m fun r m' =>
      (r = false ∧ frameOf (m.word d (pn / NPDENTRIES)) = none ∧ m.free = [] ∧ m' = m) ∨
        r = true ∧ Provided k m d pn m' ∧ m'.mapping d pn = some (pteWord (f * PGSIZE) perm) := by
  have shown : present (pteWord (f * PGSIZE) perm) = true := present_pteWord (Nat.mul_mod_left f PGSIZE)
  have frame := pteWord_frame f small
  rw [mappages_user user]
  unfold Vm.mapLoop
  refine .bind (walkpgdir_provides own stock (user_inside user)) fun r m₁ known => ?_
  rcases known with ⟨rfl, missing, empty, rfl⟩ | ⟨t, rfl, named, provided, same⟩
  · exact Returns.pure (.inl ⟨rfl, missing, empty, rfl⟩)
  · have table := provided.own.table _ (user_index user) t named
    have entry := Memory.absent_entry named (same.trans absent)
    have loose₁ : Loose k m₁ d f := by
      refine ⟨loose.usable, fun member => loose.missing (provided.free f member), loose.dir, fun i index found => ?_,
        fun q inside w mapped => ?_⟩
      · rcases provided.tables i index f found with old | new
        · exact loose.table i index old
        · exact loose.missing new
      · by_cases here : q = pn
        · rw [here, same, absent] at mapped
          contradiction
        · rw [provided.mapping q (user_inside inside) here] at mapped
          exact loose.page q inside w mapped
    obtain ⟨own₂, mapping⟩ := provided.own.addPage loose₁ user named shown frame
    refine .bind (Vm.load_returns table.1 _) fun w m₂ known => ?_
    obtain ⟨rfl, rfl⟩ := known
    rw [entry]
    refine .bind (Vm.store_returns table.1 _ _) fun _ m₃ known => ?_
    subst known
    rw [if_pos rfl]
    have dir : (m₂.set t (pn % NPDENTRIES) (pteWord (f * PGSIZE) perm)).word d = m₂.word d :=
      Memory.set_other (Ne.symm table.2)
    refine Returns.pure (.inr ⟨rfl, ⟨own₂, ⟨provided.stock.nodup, provided.stock.usable⟩, fun q inside other => ?_, ?_, ?_,
      provided.free, provided.count, fun g used apart outside => ?_⟩, ?_⟩)
    · rw [mapping q inside, if_neg other, provided.mapping q inside other]
    · rw [dir]
      exact provided.tables
    · rw [dir]
      exact provided.missing
    · have aside : g ≠ t := by
        rintro rfl
        rcases provided.tables _ (user_index user) g named with old | new
        · exact outside _ (user_index user) old
        · exact used new
      rw [Memory.set_other aside, provided.kept g used apart outside]
    · rw [mapping pn (user_inside user), if_pos rfl]

end OnePage

/-! ## Many pages -/

/-- The free pages that mapping some pages takes: one for each, and one for each page table that is
missing. -/
def pagesNeeded (m : Memory) (d : Nat) (pages : List Nat) : Nat :=
  pages.length + ((pages.map (· / NPDENTRIES)).toFinset.filter fun i => frameOf (m.word d i) = none).card

/-- The free pages that mapping some pages takes at most. -/
def pagesAtMost (pages : List Nat) : Nat := pages.length + (pages.map (· / NPDENTRIES)).toFinset.card

/-- The page tables that are missing at some indices of the directory. -/
def Memory.lacking (m : Memory) (d : Nat) (tables : Finset Nat) : Nat :=
  (tables.filter fun i => frameOf (m.word d i) = none).card

/-- Free pages were zeroed and mapped at some page numbers, and nothing else of the directory's user
pages has changed. -/
structure Stretched (k : KernelImage) (m : Memory) (d : Nat) (pages : List Nat) (m' : Memory) : Prop where
  /-- The pages of the directory are its own. -/
  own : OwnPages k m' d
  stock : Stock k m'
  /-- The new pages. -/
  fresh : ∀ pn ∈ pages, ∃ f ∈ m.free, m'.mapping d pn = some (pteWord (f * PGSIZE) (PTE_W + PTE_U)) ∧
    ∀ i, m'.word f i = 0
  /-- The other mappings. -/
  mapping : ∀ q < TABLEPAGES, q ∉ pages → m'.mapping d q = m.mapping d q
  /-- The page tables are the old ones and free pages. -/
  tables : ∀ i < NPDENTRIES, ∀ t, frameOf (m'.word d i) = some t → frameOf (m.word d i) = some t ∨ t ∈ m.free
  /-- The pages that are still free. -/
  free : ∀ g, g ∈ m'.free → g ∈ m.free
  kept : ∀ g, g ∉ m.free → g ≠ d → (∀ i < NPDENTRIES, frameOf (m.word d i) ≠ some g) → m'.word g = m.word g

/-- The user pages of the directory and their contents are as they were. -/
structure Reverted (k : KernelImage) (m : Memory) (d : Nat) (m' : Memory) : Prop where
  /-- The pages of the directory are its own. -/
  own : OwnPages k m' d
  mapping : ∀ q < TABLEPAGES, m'.mapping d q = m.mapping d q
  kept : ∀ g, g ∉ m.free → g ≠ d → (∀ i < NPDENTRIES, frameOf (m.word d i) ≠ some g) → m'.word g = m.word g

section ManyPages

variable {k : KernelImage} {m m₁ m' : Memory} {d f g t i w pn q oldsz newsz : Nat} {pages rest : List Nat}

/-- One index has its page table now. -/
theorem lacking_provided {tables : Finset Nat}
    (missing : ∀ i, frameOf (m'.word d i) = none ↔ frameOf (m.word d i) = none ∧ i ≠ t) (member : t ∈ tables) :
    m.lacking d tables = m'.lacking d tables + if frameOf (m.word d t) = none then 1 else 0 := by
  have later : (tables.filter fun i => frameOf (m'.word d i) = none) =
      (tables.filter fun i => frameOf (m.word d i) = none).erase t := by
    ext i
    rw [Finset.mem_filter, Finset.mem_erase, Finset.mem_filter, missing]
    exact ⟨fun ⟨member, absent, other⟩ => ⟨other, member, absent⟩, fun ⟨other, member, absent⟩ => ⟨member, absent, other⟩⟩
  unfold Memory.lacking
  rw [later]
  by_cases absent : frameOf (m.word d t) = none
  · rw [if_pos absent]
    exact (Finset.card_erase_add_one (Finset.mem_filter.mpr ⟨member, absent⟩)).symm
  · have outside : t ∉ tables.filter fun i => frameOf (m.word d i) = none :=
      fun here => absent (Finset.mem_filter.mp here).2
    rw [if_neg absent, Finset.erase_eq_of_notMem outside]
    rfl

/-- The pages that the first of some pages takes, and those that the others take. -/
theorem pagesNeeded_cons (missing : ∀ i, frameOf (m'.word d i) = none ↔ frameOf (m.word d i) = none ∧ i ≠ pn / NPDENTRIES) :
    pagesNeeded m d (pn :: rest) =
      1 + (if frameOf (m.word d (pn / NPDENTRIES)) = none then 1 else 0) + pagesNeeded m' d rest := by
  have taken := lacking_provided missing (Finset.mem_insert_self (pn / NPDENTRIES) (rest.map (· / NPDENTRIES)).toFinset)
  have here : frameOf (m'.word d (pn / NPDENTRIES)) ≠ none := fun absent => ((missing _).mp absent).2 rfl
  unfold Memory.lacking at taken
  rw [Finset.filter_insert, Finset.filter_insert, if_neg here] at taken
  unfold pagesNeeded
  rw [List.map_cons, List.toFinset_cons, List.length_cons, Finset.filter_insert, taken]
  omega

/-- A directory that has some of the page tables takes fewer. -/
theorem pagesNeeded_le (m : Memory) (d : Nat) (pages : List Nat) : pagesNeeded m d pages ≤ pagesAtMost pages :=
  Nat.add_le_add_left (Finset.card_filter_le _ _) _

/-- The same directory needs the same pages. -/
theorem pagesNeeded_congr (same : m'.word d = m.word d) (pages : List Nat) : pagesNeeded m' d pages = pagesNeeded m d pages := by
  unfold pagesNeeded
  rw [same]

/-- A page whose page table is missing takes two pages at least. -/
theorem pagesNeeded_missing (absent : frameOf (m.word d (pn / NPDENTRIES)) = none) (rest : List Nat) :
    2 ≤ pagesNeeded m d (pn :: rest) := by
  have counted : 0 < (((pn :: rest).map (· / NPDENTRIES)).toFinset.filter fun i => frameOf (m.word d i) = none).card := by
    refine Finset.card_pos.mpr ⟨pn / NPDENTRIES, Finset.mem_filter.mpr ⟨?_, absent⟩⟩
    rw [List.mem_toFinset, List.map_cons]
    exact List.mem_cons_self
  unfold pagesNeeded
  rw [List.length_cons]
  omega

/-- Nothing has grown. -/
theorem Stretched.nil (own : OwnPages k m d) (stock : Stock k m) : Stretched k m d [] m :=
  ⟨own, stock, fun _ member => absurd member List.not_mem_nil, fun _ _ _ => rfl, fun _ _ _ => .inl, fun _ => id,
    fun _ _ _ _ => rfl⟩

/-- `kalloc` and `memset` give a page that is not mapped yet. -/
theorem Stretched.take (stretched : Stretched k m d pages m₁) (user : ∀ q ∈ pages, q < USERPAGES) (head : m₁.free = f :: rest) :
    Stretched k m d pages (Memory.setFrame { m₁ with free := rest } f fun _ => 0) ∧
      Loose k (Memory.setFrame { m₁ with free := rest } f fun _ => 0) d f ∧ f ∈ m.free := by
  obtain ⟨own₁, stock₁, loose⟩ := stretched.own.take stretched.stock head
  have same := loose.write fun _ => 0
  have here : f ∈ m₁.free := by
    rw [head]
    exact List.mem_cons_self
  have within : ∀ g, g ∈ rest → g ∈ m₁.free := by
    intro g member
    rw [head]
    exact List.mem_cons_of_mem f member
  have free := stretched.free f here
  refine ⟨⟨own₁.congr (fun _ => id) same, ⟨stock₁.nodup, stock₁.usable⟩, ?_, ?_, ?_, fun g member => stretched.free g (within g member),
    ?_⟩, loose.congr loose.missing same, free⟩
  · intro pn member
    obtain ⟨f', free', mapped, zero⟩ := stretched.fresh pn member
    refine ⟨f', free', (same.mapping (user_inside (user pn member))).trans mapped, fun i => ?_⟩
    have frame : pteWord (f' * PGSIZE) (PTE_W + PTE_U) / PGSIZE = f' := pteWord_frame f' (by decide)
    have missing := (stretched.own.page pn (user pn member) _ mapped).2.1
    rw [frame] at missing
    rw [Memory.setFrame_other fun equal => missing (by rw [equal]; exact here)]
    exact zero i
  · exact fun q inside outside => (same.mapping inside).trans (stretched.mapping q inside outside)
  · rw [same.1]
    exact stretched.tables
  · intro g used apart outside
    rw [Memory.setFrame_other fun equal => used (by rw [equal]; exact free)]
    exact stretched.kept g used apart outside

/-- One more page is mapped. -/
theorem Stretched.snoc (stretched : Stretched k m d pages m₁) (user : ∀ q ∈ pages, q < USERPAGES) (new : pn ∉ pages)
    (loose : Loose k m₁ d f) (free : f ∈ m.free) (zero : ∀ i, m₁.word f i = 0) (provided : Provided k m₁ d pn m')
    (mapped : m'.mapping d pn = some (pteWord (f * PGSIZE) (PTE_W + PTE_U))) : Stretched k m d (pages ++ [pn]) m' := by
  refine ⟨provided.own, provided.stock, ?_, ?_, ?_, fun g member => stretched.free g (provided.free g member), ?_⟩
  · intro pn' member
    rcases List.mem_append.mp member with old | last
    · obtain ⟨f', free', mapped', zero'⟩ := stretched.fresh pn' old
      have frame : pteWord (f' * PGSIZE) (PTE_W + PTE_U) / PGSIZE = f' := pteWord_frame f' (by decide)
      obtain ⟨_, missing, apart, untabled⟩ := stretched.own.page pn' (user pn' old) _ mapped'
      rw [frame] at missing apart untabled
      refine ⟨f', free', ?_, fun i => ?_⟩
      · rw [provided.mapping pn' (user_inside (user pn' old)) fun same => new (same ▸ old)]
        exact mapped'
      · rw [provided.kept f' missing apart untabled]
        exact zero' i
    · rw [List.mem_singleton.mp last]
      refine ⟨f, free, mapped, fun i => ?_⟩
      rw [provided.kept f loose.missing loose.dir loose.table]
      exact zero i
  · intro q below outside
    rw [List.mem_append, not_or, List.mem_singleton] at outside
    rw [provided.mapping q below outside.2]
    exact stretched.mapping q below outside.1
  · intro i index t named
    rcases provided.tables i index t named with old | new
    · exact stretched.tables i index t old
    · exact .inr (stretched.free t new)
  · intro g used apart outside
    rw [provided.kept g (fun member => used (stretched.free g member)) apart]
    · exact stretched.kept g used apart outside
    · intro i index named
      rcases stretched.tables i index g named with old | new
      · exact outside i index old
      · exact used new

/-- Unmapping the new pages reverts the directory. -/
theorem Stretched.revert (stretched : Stretched k m d rest m₁) (some_pages : ∀ pn ∈ rest, pn ∈ pages)
    (user : ∀ pn ∈ pages, pn < USERPAGES) (distinct : pages.Nodup) (absent : ∀ pn ∈ pages, m.mapping d pn = none) :
    Reverted k m d (pages.foldl (Memory.unmapPage d) m₁) := by
  refine ⟨(stretched.own.unmapPages user distinct).1, fun q inside => ?_, fun g used apart outside => ?_⟩
  · rw [stretched.own.unmapPages_mapping user distinct inside]
    by_cases here : q ∈ pages
    · rw [if_pos here, absent q here]
    · rw [if_neg here, stretched.mapping q inside fun member => here (some_pages q member)]
  · rw [stretched.own.unmapPages_kept user]
    · exact stretched.kept g used apart outside
    · rintro pn member w mapped rfl
      by_cases new : pn ∈ rest
      · obtain ⟨f', free, mapped', _⟩ := stretched.fresh pn new
        rw [mapped] at mapped'
        cases mapped'
        rw [pteWord_frame f' (by decide)] at used
        exact used free
      · rw [stretched.mapping pn (user_inside (user pn member)) new, absent pn member] at mapped
        contradiction
    · intro i index named
      rcases stretched.tables i index g named with old | free
      · exact outside i index old
      · exact used free

/-- A loose page stays loose when pages are unmapped. -/
theorem Loose.unmapPages (loose : Loose k m d f) (own : OwnPages k m d) (user : ∀ pn ∈ pages, pn < USERPAGES)
    (distinct : pages.Nodup) : Loose k (pages.foldl (Memory.unmapPage d) m) d f := by
  obtain ⟨_, free, dir, _⟩ := own.unmapPages user distinct
  refine ⟨loose.usable, ?_, loose.dir, ?_, fun q inside w mapped => ?_⟩
  · rw [free, List.mem_append, List.mem_reverse, not_or]
    refine ⟨fun member => ?_, loose.missing⟩
    obtain ⟨pn, there, frame⟩ := List.mem_filterMap.mp member
    obtain ⟨w, mapped, same⟩ := Option.map_eq_some_iff.mp frame
    exact loose.page pn (user pn there) w mapped same
  · rw [dir]
    exact loose.table
  · rw [own.unmapPages_mapping user distinct (user_inside inside)] at mapped
    split at mapped
    · contradiction
    · exact loose.page q inside w mapped

/-- `kfree` of a loose page. -/
theorem Reverted.release (reverted : Reverted k m d m₁) (loose : Loose k m₁ d f) (free : f ∈ m.free) :
    Reverted k m d (m₁.release f) := by
  have words : ∀ g, g ≠ f → (m₁.release f).word g = m₁.word g := fun g other => Memory.release_other other
  have same : SameTables m₁ d (m₁.release f) :=
    ⟨words d (Ne.symm loose.dir), fun i index t named => words t fun here => loose.table i index (here ▸ named)⟩
  have own := reverted.own
  have mapping : ∀ pn < USERPAGES, (m₁.release f).mapping d pn = m₁.mapping d pn := fun pn user =>
    same.mapping (user_inside user)
  refine ⟨⟨?_, ?_, ?_, ?_, ?_⟩, fun q inside => (same.mapping inside).trans (reverted.mapping q inside),
    fun g used apart outside => ?_⟩
  · rw [Memory.release_free, List.mem_cons, not_or]
    exact ⟨Ne.symm loose.dir, own.dir⟩
  · intro i index t named
    rw [same.1] at named
    rw [Memory.release_free, List.mem_cons, not_or]
    exact ⟨⟨fun here => loose.table i index (here ▸ named), (own.table i index t named).1⟩, (own.table i index t named).2⟩
  · rw [same.1]
    exact own.tables
  · intro pn user w mapped
    rw [mapping pn user] at mapped
    obtain ⟨usable, missing, apart, untabled⟩ := own.page pn user w mapped
    rw [Memory.release_free, List.mem_cons, not_or, same.1]
    exact ⟨usable, ⟨loose.page pn user w mapped, missing⟩, apart, untabled⟩
  · intro pn user pn' user' w w' mapped mapped'
    rw [mapping pn user] at mapped
    rw [mapping pn' user'] at mapped'
    exact own.pages pn user pn' user' w w' mapped mapped'
  · rw [words g fun same => used (same ▸ free)]
    exact reverted.kept g used apart outside

/-! ## `allocuvm` -/

/-- The pages of a range are as many as the loops take. -/
theorem pagesBetween_nodup (low high : Nat) : (pagesBetween low high).Nodup := List.nodup_range'

/-- A range of pages with one more. -/
theorem range'_snoc {start : Nat} (above : start ≤ q) :
    List.range' start (q + 1 - start) = List.range' start (q - start) ++ [q] := by
  rw [range'_parts above (Nat.le_succ q), Nat.succ_sub (Nat.le_refl q), Nat.sub_self]
  rfl

/-- What is left of the loop of `allocuvm`: it maps the other pages of its range, or reverts all of
them if there are too few free pages. -/
theorem allocLoop_exact {start last : Nat} (from_start : start = (oldsz + PGSIZE - 1) / PGSIZE)
    (to_last : last = (newsz + PGSIZE - 1) / PGSIZE) (user : newsz ≤ KERNBASE)
    (absent : ∀ pn ∈ pagesBetween oldsz newsz, m.mapping d pn = none) (above : start ≤ q) (upto : q ≤ last) {fuel : Nat}
    (enough : last ≤ q + fuel) (stretched : Stretched k m d (List.range' start (q - start)) m₁) :
    Returns k (Vm.allocLoop d oldsz newsz fuel (q * PGSIZE)) m₁ fun r m' =>
      pagesNeeded m₁ d (List.range' q (last - q)) + m'.free.length = m₁.free.length ∧ r = newsz ∧
          Stretched k m d (pagesBetween oldsz newsz) m' ∨
        m₁.free.length < pagesNeeded m₁ d (List.range' q (last - q)) ∧ r = 0 ∧ Reverted k m d m' := by
  have range : pagesBetween oldsz newsz = List.range' start (last - start) := by
    rw [from_start, to_last]
    rfl
  have inside : ∀ pn ∈ pagesBetween oldsz newsz, pn < USERPAGES := pagesBetween_user user
  induction fuel generalizing m₁ q with
  | zero =>
    have ended : q = last := by omega
    rw [ended, Nat.sub_self]
    rw [ended, ← range] at stretched
    exact Returns.pure (.inl ⟨Nat.zero_add _, rfl, stretched⟩)
  | succ fuel ih =>
    unfold Vm.allocLoop
    by_cases below : q * PGSIZE < newsz
    · have here : q < last := by
        rw [to_last]
        unfold PGSIZE at *
        omega
      have page : q ∈ pagesBetween oldsz newsz := by
        rw [range, List.mem_range'_1]
        omega
      have done : ∀ pn ∈ List.range' start (q - start), pn < USERPAGES ∧ pn ∈ pagesBetween oldsz newsz := by
        intro pn member
        have known : pn ∈ pagesBetween oldsz newsz := by
          rw [range]
          rw [List.mem_range'_1] at member ⊢
          omega
        exact ⟨inside pn known, known⟩
      have new : q ∉ List.range' start (q - start) := by
        rw [List.mem_range'_1]
        omega
      rw [if_pos below, range'_first here]
      refine .bind (Vm.kalloc_returns k m₁) fun r m₂ known => ?_
      rcases known with ⟨rfl, empty, rfl⟩ | ⟨f, rest, rfl, head, rfl⟩
      · have short : m₂.free.length < pagesNeeded m₂ d (q :: List.range' (q + 1) (last - (q + 1))) := by
          unfold pagesNeeded
          rw [empty, List.length_cons, List.length_nil]
          omega
        refine .bind (deallocuvm_folds stretched.own user) fun _ m₃ known => ?_
        obtain ⟨_, rfl⟩ := known
        exact Returns.pure (.inr ⟨short, rfl,
          stretched.revert (fun pn member => (done pn member).2) inside (pagesBetween_nodup _ _) absent⟩)
      · obtain ⟨stretched₁, loose, free⟩ := stretched.take (fun pn member => (done pn member).1) head
        have count : m₁.free.length = rest.length + 1 := by rw [head, List.length_cons]
        have missing : f ∉ (Memory.mk m₁.word rest).free := loose.missing
        refine .bind (Vm.clear_returns missing) fun _ m₂ known => ?_
        subst known
        have same : (Memory.setFrame { m₁ with free := rest } f fun _ => 0).word d = m₁.word d :=
          Memory.setFrame_other (Ne.symm loose.dir)
        have unmapped : (Memory.setFrame { m₁ with free := rest } f fun _ => 0).mapping d q = none := by
          rw [stretched₁.mapping q (user_inside (inside q page)) new]
          exact absent q page
        refine .bind (mappages_enters stretched₁.own stretched₁.stock loose (inside q page) (by decide) unmapped)
          fun r m₂ known => ?_
        rcases known with ⟨rfl, table, empty, rfl⟩ | ⟨rfl, provided, mapped⟩
        · have empty' : rest = [] := empty
          have short : m₁.free.length < pagesNeeded m₁ d (q :: List.range' (q + 1) (last - (q + 1))) := by
            rw [same] at table
            rw [count, empty']
            exact pagesNeeded_missing table _
          refine .bind (deallocuvm_folds stretched₁.own user) fun _ m₃ known => ?_
          obtain ⟨_, rfl⟩ := known
          have loose₃ := loose.unmapPages stretched₁.own inside (pagesBetween_nodup oldsz newsz)
          refine .bind (Vm.kfree_returns loose₃.usable loose₃.missing) fun _ m₃ known => ?_
          subst known
          refine Returns.pure (.inr ⟨short, rfl, .release ?_ loose₃ free⟩)
          exact stretched₁.revert (fun pn member => (done pn member).2) inside (pagesBetween_nodup _ _) absent
        · rw [if_pos rfl, next_page (inside q page)]
          have zero : ∀ i, (Memory.setFrame { m₁ with free := rest } f fun _ => 0).word f i = 0 := by
            intro i
            rw [Memory.setFrame_self]
          have grown := stretched₁.snoc (fun pn member => (done pn member).1) new loose free zero provided mapped
          rw [← range'_snoc above] at grown
          refine (ih (q := q + 1) (by omega) here (by omega) grown).mono fun r m' outcome => ?_
          have needed : pagesNeeded _ d (q :: List.range' (q + 1) (last - (q + 1))) = _ :=
            pagesNeeded_cons provided.missing
          have left : rest.length = m₂.free.length + _ := provided.count
          rw [pagesNeeded_congr same] at needed
          rw [needed, count, left]
          rcases outcome with ⟨fits, done⟩ | ⟨short, done⟩
          · exact .inl ⟨by omega, done⟩
          · exact .inr ⟨by omega, done⟩
    · have ended : q = last := by
        rw [to_last] at upto ⊢
        unfold PGSIZE at *
        omega
      rw [if_neg below, ended, Nat.sub_self]
      rw [ended, ← range] at stretched
      exact Returns.pure (.inl ⟨Nat.zero_add _, rfl, stretched⟩)

/-- `allocuvm` over pages that are not mapped maps them if there are enough free pages, and reverts
them if there are not. -/
theorem allocuvm_exact (own : OwnPages k m d) (stock : Stock k m) (larger : oldsz ≤ newsz) (user : newsz < KERNBASE)
    (absent : ∀ pn ∈ pagesBetween oldsz newsz, m.mapping d pn = none) :
    Returns k (Vm.allocuvm d oldsz newsz) m fun r m' =>
      pagesNeeded m d (pagesBetween oldsz newsz) + m'.free.length = m.free.length ∧ r = newsz ∧
          Stretched k m d (pagesBetween oldsz newsz) m' ∨
        m.free.length < pagesNeeded m d (pagesBetween oldsz newsz) ∧ r = 0 ∧ Reverted k m d m' := by
  have start : PGROUNDUP oldsz = (oldsz + PGSIZE - 1) / PGSIZE * PGSIZE := by
    unfold PGROUNDUP
    unfold KERNBASE PGSIZE at *
    omega
  have upto : (oldsz + PGSIZE - 1) / PGSIZE ≤ (newsz + PGSIZE - 1) / PGSIZE := Nat.div_le_div_right (by omega)
  have enough : (newsz + PGSIZE - 1) / PGSIZE ≤ (oldsz + PGSIZE - 1) / PGSIZE + 2 ^ 20 := by
    unfold KERNBASE PGSIZE at *
    omega
  unfold Vm.allocuvm
  rw [if_neg (Nat.not_le.mpr user), if_neg (Nat.not_lt.mpr larger), start]
  refine allocLoop_exact rfl rfl (Nat.le_of_lt user) absent (Nat.le_refl _) upto enough ?_
  rw [Nat.sub_self]
  exact .nil own stock

end ManyPages

end Xv6
