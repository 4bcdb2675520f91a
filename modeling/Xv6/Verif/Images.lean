import Xv6.Verif.Unmapping

/-!
# Building address spaces

What `setupkvm`, `allocuvm` and `copyuvm` do to the owners of pages and to the mappings of the
directories in use, for every number of free pages: each either does all of its work or gives back
every page it took, apart from page tables that `allocuvm` leaves in the directory.
-/

namespace Xv6

/-! ## The kernel's mappings -/

/-- The segments lie one after the other from the page `low` on. -/
def LaidOut : Nat → List (Nat × Nat × Nat × Nat) → Prop
  | _, [] => True
  | low, (virt, start, finish, _) :: rest => ∃ q last f, virt = q * PGSIZE ∧ start = f * PGSIZE ∧ low ≤ q ∧ q ≤ last ∧
      last < TABLEPAGES ∧ uint ((virt : Nat) + uint ((finish : Int) - start) - 1) / PGSIZE = last ∧ LaidOut (last + 1) rest

/-- The last page of the kernel's read-only part. -/
theorem text_last {data : Nat} (low : 0x80100000 < data) (aligned : data % 4096 = 0) (inside : data < 0x80000000 + 0xE000000) :
    uint ((0x80100000 : Nat) + uint (((data - 0x80000000 : Nat) : Int) - (0x100000 : Nat)) - 1) / 4096 = data / 4096 - 1 := by
  unfold uint
  omega

/-- The last page of memory. -/
theorem memory_last {data : Nat} (low : 0x80100000 < data) (inside : data < 0x80000000 + 0xE000000) :
    uint ((data : Nat) + uint (((0xE000000 : Nat) : Int) - (data - 0x80000000 : Nat)) - 1) / 4096 = 0x8E000 - 1 := by
  unfold uint
  omega

/-- The kernel's segments lie one after the other above the user's pages. -/
theorem kmap_laidOut (k : KernelImage) : LaidOut USERPAGES (Vm.kmap k) := by
  have low : 0x80100000 < k.data := k.data_low
  have aligned : k.data % 4096 = 0 := k.data_aligned
  have inside : k.data < 0x80000000 + 0xE000000 := Nat.lt_of_lt_of_le k.data_inside (Nat.add_le_add_left k.last_low _)
  have page : k.data / 4096 * 4096 = k.data := Nat.div_mul_cancel (Nat.dvd_of_mod_eq_zero aligned)
  have aligned' : (k.data - 0x80000000) % 4096 = 0 := by omega
  have frame : (k.data - 0x80000000) / 4096 * 4096 = k.data - 0x80000000 :=
    Nat.div_mul_cancel (Nat.dvd_of_mod_eq_zero aligned')
  refine ⟨KERNBASE / PGSIZE, KERNLINK / PGSIZE - 1, 0, by decide, by decide, by decide, by decide, by decide, by decide,
    KERNLINK / PGSIZE, k.data / 4096 - 1, EXTMEM / PGSIZE, by decide, by decide, by decide, ?_, ?_,
    text_last low aligned inside, k.data / 4096, 0x8E000 - 1, (k.data - 0x80000000) / 4096, page.symm, frame.symm, ?_, ?_, by decide,
    memory_last low inside, DEVSPACE / PGSIZE, 2 ^ 20 - 1, DEVSPACE / PGSIZE, by decide, by decide, by decide, by decide, by decide,
    by decide, trivial⟩
  · change 0x80100 ≤ _
    omega
  · change _ < 1024 * 1024
    omega
  · omega
  · omega

/-- Page numbers of the kernel. -/
def kernelPages (pn : Nat) : Prop := USERPAGES ≤ pn

section Kernel

variable {k : KernelImage} {m m' : Memory} {owner owner' : Nat → Owner} {d : Nat}

/-- The loop of `setupkvm` changes mappings of the kernel only. -/
theorem mapKernel_maps (segments : List (Nat × Nat × Nat × Nat)) : ∀ {low : Nat} {m : Memory} {owner : Nat → Owner},
    LaidOut low segments → USERPAGES ≤ low → PageOwners k m owner → owner d = .dir 0 →
    (∀ pn, low ≤ pn → pn < TABLEPAGES → m.mapping d pn = none) →
    Returns k (Vm.mapKernel d segments) m fun _ m' => ∃ owner', PageOwners k m' owner' ∧
      Extended d kernelPages m owner m' owner' := by
  induction segments with
  | nil => exact fun _ _ owners _ _ => Returns.pure ⟨_, owners, .refl ..⟩
  | cons segment rest ih =>
    intro low m owner laid high owners live absent
    obtain ⟨virt, start, finish, perm⟩ := segment
    obtain ⟨q, last, f, rfl, rfl, above, some, inside, ends, later⟩ := laid
    unfold Vm.mapKernel
    have absent' : ∀ pn, q ≤ pn → pn ≤ last → m.mapping d pn = none := fun pn from' upto =>
      absent pn (above.trans from') (Nat.lt_of_le_of_lt upto inside)
    refine .bind (mappages_kernel owners live f some inside (high.trans above) ends absent') fun r m₁ known => ?_
    obtain ⟨owner₁, owners₁, extended, _⟩ := known
    have widened : Extended d kernelPages m owner m₁ owner₁ := extended.mono fun pn ⟨from', _⟩ => high.trans (above.trans from')
    cases r with
    | false => exact Returns.pure ⟨owner₁, owners₁, widened⟩
    | true =>
      have live₁ := (extended.dir d 0).mpr live
      have absent₁ : ∀ pn, last + 1 ≤ pn → pn < TABLEPAGES → m₁.mapping d pn = none := by
        intro pn from' within
        rw [extended.mapping d live pn within fun _ ⟨_, upto⟩ => Nat.not_le_of_lt from' upto]
        exact absent pn (by omega) within
      refine (ih later (by omega) owners₁ live₁ absent₁).mono fun r m₂ known => ?_
      obtain ⟨owner₂, owners₂, extended₂⟩ := known
      exact ⟨owner₂, owners₂, (widened.trans extended₂).mono fun _ new => new.elim id id⟩

end Kernel

/-! ## New directories -/

/-- Every page has its owner, and every directory its mappings. -/
structure Restored (m : Memory) (owner : Nat → Owner) (m' : Memory) (owner' : Nat → Owner) : Prop where
  owners : owner' = owner
  mapping : ∀ d, owner d = .dir 0 → ∀ pn < TABLEPAGES, m'.mapping d pn = m.mapping d pn

/-- A free page was made a directory and others were put in it. -/
structure Populated (d : Nat) (m : Memory) (owner : Nat → Owner) (m' : Memory) (owner' : Nat → Owner) : Prop where
  was : owner d = .free
  dir : owner' d = .dir 0
  owners : ∀ f, f ≠ d → owner' f = owner f ∨ owner f = .free ∧ (owner' f).Within d f
  /-- The mappings of the other directories. -/
  mapping : ∀ d', owner d' = .dir 0 → ∀ pn < TABLEPAGES, m'.mapping d' pn = m.mapping d' pn

section Populating

variable {k : KernelImage} {new : Nat → Prop} {m m' m'' : Memory} {owner owner' owner'' : Nat → Owner} {d f : Nat}

/-- Nothing has happened. -/
theorem Restored.refl (m : Memory) (owner : Nat → Owner) : Restored m owner m owner := ⟨rfl, fun _ _ _ _ => rfl⟩

/-- The new directory is another one than those in use. -/
theorem Populated.apart (populated : Populated d m owner m' owner') {d' : Nat} (live : owner d' = .dir 0) : d' ≠ d := by
  rintro rfl
  exact Owner.noConfusion (live.symm.trans populated.was)

/-- The directories in use stay in use. -/
theorem Populated.live (populated : Populated d m owner m' owner') {d' : Nat} (live : owner d' = .dir 0) :
    owner' d' = .dir 0 := by
  rcases populated.owners d' (populated.apart live) with same | ⟨free, _⟩
  · exact same.trans live
  · exact Owner.noConfusion (live.symm.trans free)

/-- More pages are put in it. -/
theorem Populated.extend (populated : Populated d m owner m' owner') (extended : Extended d new m' owner' m'' owner'') :
    Populated d m owner m'' owner'' := by
  refine ⟨populated.was, (extended.dir d 0).mpr populated.dir, fun g other => ?_, fun d' live pn inside => ?_⟩
  · rcases extended.owners g with same | ⟨free, became⟩
    · rw [same]
      exact populated.owners g other
    · refine .inr ⟨?_, .inr (became.imp id fun ⟨pn, _, page⟩ => ⟨pn, page⟩)⟩
      rcases populated.owners g other with same | ⟨was, _⟩
      · exact same.symm.trans free
      · exact was
  · rw [extended.mapping d' (populated.live live) pn inside fun same => absurd same (populated.apart live),
      populated.mapping d' live pn inside]

/-- It is freed again. -/
theorem Populated.dismantle (populated : Populated d m owner m' owner') (dismantled : Dismantled d m' owner' m'' owner'')
    (owners : PageOwners k m owner) : Restored m owner m'' owner'' := by
  have outside : ∀ g, owner g ≠ .free → ¬(owner g).Within d g := by
    rintro g used (rfl | ⟨i, table⟩ | ⟨pn, page⟩)
    · exact used populated.was
    · obtain ⟨_, n, dir, _⟩ := (owners.table g d i).mp table
      exact Owner.noConfusion (dir.symm.trans populated.was)
    · obtain ⟨_, t, table, _⟩ := (owners.page g d pn).mp page
      obtain ⟨_, n, dir, _⟩ := (owners.table t d _).mp table
      exact Owner.noConfusion (dir.symm.trans populated.was)
  refine ⟨funext fun g => ?_, fun d' live pn inside => ?_⟩
  · by_cases within : (owner' g).Within d g
    · rw [dismantled.freed g within]
      by_cases here : g = d
      · rw [here, populated.was]
      · rcases populated.owners g here with same | ⟨free, _⟩
        · by_contra used
          exact outside g (Ne.symm used) (same ▸ within)
        · rw [free]
    · rw [dismantled.kept g within]
      have here : g ≠ d := fun same => within (.inl same)
      rcases populated.owners g here with same | ⟨_, inside⟩
      · exact same
      · exact absurd inside within
  · rw [dismantled.mapping d' (populated.apart live) (populated.live live) pn inside, populated.mapping d' live pn inside]

/-- A page that is free or in hand is no part of a mapping. -/
theorem PageOwners.unused_mapping (owners : PageOwners k m owner) (unused : owner f = .free ∨ owner f = .hand) {d' pn : Nat}
    (live : owner d' = .dir 0) (inside : pn < TABLEPAGES) (words : ∀ g, g ≠ f → m'.word g = m.word g) :
    m'.mapping d' pn = m.mapping d' pn := by
  have other : ∀ g, owner g ≠ .free → owner g ≠ .hand → g ≠ f := by
    rintro g used kept rfl
    exact unused.elim used kept
  refine owners.mapping_congr live inside ?_ fun t i table => ?_
  · exact words d' (other d' (by rw [live]; exact Owner.noConfusion) (by rw [live]; exact Owner.noConfusion))
  · exact words t (other t (by rw [table]; exact Owner.noConfusion) (by rw [table]; exact Owner.noConfusion))

/-- A free page is made an empty directory. -/
theorem PageOwners.newDir {rest : List Nat} (owners : PageOwners k m owner) (head : m.free = d :: rest) :
    let m' := Memory.setFrame { m with free := rest } d fun _ => 0
    let owner' := Function.update (Function.update owner d .hand) d (.dir 0)
    PageOwners k m' owner' ∧ Populated d m owner m' owner' ∧ ∀ pn, m'.mapping d pn = none := by
  have was : owner d = .free := (owners.free d).mpr (by rw [head]; exact List.mem_cons_self)
  have hand : Function.update owner d .hand d = .hand := Function.update_self ..
  have written := (owners.take head).write hand fun _ => 0
  have empty : ∀ j, (Memory.setFrame { m with free := rest } d fun _ => 0).word d j = 0 := by
    intro j
    rw [Memory.setFrame_self]
  refine ⟨written.addDir hand empty, ⟨was, Function.update_self .., fun g other => ?_, fun d' live pn inside => ?_⟩,
    fun pn => ?_⟩
  · rw [Function.update_of_ne other, Function.update_of_ne other]
    exact .inl rfl
  · exact owners.unused_mapping (.inl was) live inside fun g other => Memory.setFrame_other other
  · unfold Memory.mapping
    rw [empty, frameOf_zero]

/-- `setupkvm` returns a directory without user pages, or everything is as it was. -/
theorem setupkvm_builds (owners : PageOwners k m owner) :
    Returns k (Vm.setupkvm k) m fun r m' => ∃ owner', PageOwners k m' owner' ∧ ((r = none ∧ Restored m owner m' owner') ∨
      ∃ d, r = some d ∧ Populated d m owner m' owner' ∧ ∀ pn < USERPAGES, m'.mapping d pn = none) := by
  unfold Vm.setupkvm
  refine .bind (Vm.kalloc_returns k m) fun r m' known => ?_
  rcases known with ⟨rfl, _, rfl⟩ | ⟨d, rest, rfl, head, rfl⟩
  · exact Returns.pure ⟨owner, owners, .inl ⟨rfl, .refl ..⟩⟩
  · obtain ⟨owners₁, populated, empty⟩ := owners.newDir head
    have missing := owners₁.missing (f := d) (by rw [populated.dir]; exact Owner.noConfusion)
    refine .bind (Vm.clear_returns (m := { m with free := rest }) missing) fun _ m₁ known => ?_
    subst known
    rw [if_neg (by decide)]
    have laid := kmap_laidOut k
    refine .bind (mapKernel_maps _ laid (Nat.le_refl _) owners₁ populated.dir fun pn _ _ => empty pn) fun r m₂ known => ?_
    obtain ⟨owner₂, owners₂, extended⟩ := known
    have populated₂ := populated.extend extended
    cases r with
    | true =>
      refine Returns.pure ⟨owner₂, owners₂, .inr ⟨d, rfl, populated₂, fun pn user => ?_⟩⟩
      have inside : pn < TABLEPAGES := by
        unfold USERPAGES KERNBASE PGSIZE at user
        unfold TABLEPAGES NPDENTRIES
        omega
      rw [extended.mapping d populated.dir pn inside fun _ high => Nat.not_le_of_lt user high]
      exact empty pn
    | false =>
      refine .bind (freevm_frees owners₂ populated₂.dir) fun _ m₃ known => ?_
      obtain ⟨owner₃, owners₃, dismantled⟩ := known
      exact Returns.pure ⟨owner₃, owners₃, .inl ⟨rfl, populated₂.dismantle dismantled owners⟩⟩

end Populating

/-! ## Growing -/

section Allocating

variable {k : KernelImage} {new gone : Nat → Prop} {flags : Nat → Nat} {m m' m'' : Memory} {owner owner' owner'' : Nat → Owner}
  {d f oldsz newsz : Nat}

/-- A page that was taken and is still in hand counts as free. -/
theorem Extended.untake (extended : Extended d new m' (Function.update owner f .hand) m'' owner'') (was : owner f = .free)
    (same : ∀ d', owner d' = .dir 0 → ∀ pn < TABLEPAGES, m'.mapping d' pn = m.mapping d' pn) :
    Extended d new m owner m'' (Function.update owner'' f .free) := by
  refine ⟨fun g => ?_, fun d' live pn inside kept => ?_⟩
  · by_cases here : g = f
    · rw [here, Function.update_self, was]
      exact .inl rfl
    · have owners := extended.owners g
      rw [Function.update_of_ne here] at owners ⊢
      exact owners
  · have other : d' ≠ f := by
      rintro rfl
      exact Owner.noConfusion (live.symm.trans was)
    rw [extended.mapping d' ((Function.update_of_ne other ..).trans live) pn inside kept, same d' live pn inside]

/-- `mappages` of the first free page, which was taken and filled: it is mapped, or there is no
page for its page table. -/
theorem mappages_new {rest : List Nat} {pn perm : Nat} (owners : PageOwners k m owner) (live : owner d = .dir 0)
    (head : m.free = f :: rest) (words : Nat → Nat) (user : pn < USERPAGES) (small : perm < PGSIZE)
    (absent : m.mapping d pn = none) :
    Returns k (Vm.mappages d (pn * PGSIZE) PGSIZE (f * PGSIZE) perm) (Memory.setFrame { m with free := rest } f words)
      fun r m' => ∃ owner',
        (r = true ∧ PageOwners k m' owner' ∧ Extended d (· = pn) m owner m' owner' ∧
          m'.mapping d pn = some (pteWord (f * PGSIZE) perm)) ∨
        (r = false ∧ PageOwners k m' (Function.update owner' f .hand) ∧ owner' f = .free ∧
          Extended d nowhere m owner m' owner') := by
  have was : owner f = .free := (owners.free f).mpr (by rw [head]; exact List.mem_cons_self)
  have hand : Function.update owner f .hand f = .hand := Function.update_self ..
  have taken := (owners.take head).write hand words
  have inside : pn < TABLEPAGES := by
    unfold USERPAGES KERNBASE PGSIZE at user
    unfold TABLEPAGES NPDENTRIES
    omega
  have same : ∀ d', owner d' = .dir 0 → ∀ pn < TABLEPAGES,
      (Memory.setFrame { m with free := rest } f words).mapping d' pn = m.mapping d' pn := fun d' live' pn' inside' =>
    owners.unused_mapping (.inl was) live' inside' fun g other => Memory.setFrame_other other
  have stays : ∀ d', owner d' = .dir 0 → Function.update owner f .hand d' = .dir 0 := by
    intro d' live'
    rw [Function.update_of_ne]
    · exact live'
    · rintro rfl
      exact Owner.noConfusion (live'.symm.trans was)
  refine (mappages_page taken (stays d live) hand user small ((same d live pn inside).trans absent)).mono fun r m' known => ?_
  obtain ⟨owner', owners', ⟨rfl, extended⟩ | ⟨m₁, owner₁, rfl, extended, rfl, mapping⟩⟩ := known
  · refine ⟨Function.update owner' f .free, .inr ⟨rfl, ?_, Function.update_self .., extended.untake was same⟩⟩
    rw [Function.update_idem, ← (extended.hand f).mpr hand, Function.update_eq_self]
    exact owners'
  · refine ⟨_, .inl ⟨rfl, owners', ⟨fun g => ?_, fun d' live' pn' inside' kept => ?_⟩, ?_⟩⟩
    · by_cases here : g = f
      · rw [here]
        exact .inr ⟨was, .inr ⟨pn, rfl, Function.update_self ..⟩⟩
      · have widened : Extended d (· = pn) _ _ m₁ owner₁ := extended.mono fun _ => False.elim
        have owners₁ := widened.owners g
        rw [Function.update_of_ne here] at owners₁ ⊢
        exact owners₁
    · rw [mapping d' (stays d' live') pn' inside', if_neg fun own => kept own.1 own.2, same d' live' pn' inside']
    · rw [mapping d (stays d live) pn inside, if_pos ⟨rfl, rfl⟩]

/-- The new pages are freed again. -/
theorem Extended.drop (extended : Extended d new m owner m' owner') (dropped : Dropped d gone m' owner' m'' owner'')
    (all : ∀ pn, new pn → gone pn) (absent : ∀ pn < TABLEPAGES, gone pn → m.mapping d pn = none)
    (owners : PageOwners k m owner) : Extended d nowhere m owner m'' owner'' := by
  have unowned := (Dropped.nothing owners absent).freed
  refine ⟨fun g => ?_, fun d' live' pn inside _ => ?_⟩
  · rcases extended.owners g with same | ⟨free, ⟨i, table⟩ | ⟨pn, here, page⟩⟩
    · refine .inl ((dropped.kept g fun pn page here => ?_).trans same)
      rw [same] at page
      exact Owner.noConfusion (page.symm.trans (unowned g pn page here))
    · exact .inr ⟨free, .inl ⟨i, (dropped.table g d i).mpr table⟩⟩
    · exact .inl ((dropped.freed g pn page (all pn here)).trans free.symm)
  · by_cases away : d' = d ∧ gone pn
    · rw [away.1, dropped.unmapped pn inside away.2, absent pn inside away.2]
    · rw [dropped.mapping d' ((extended.dir d' 0).mpr live') pn inside fun own here => away ⟨own, here⟩,
        extended.mapping d' live' pn inside fun own here => away ⟨own, all pn here⟩]

/-- A page in hand is freed as well. -/
theorem Dropped.give (dropped : Dropped d gone m (Function.update owner f .hand) m' owner') (was : owner f = .free)
    (owners : PageOwners k m' owner') (live : owner d = .dir 0) :
    Dropped d gone m owner (m'.release f) (Function.update owner' f .free) := by
  have hand : owner' f = .hand := by
    rw [dropped.same (o := .hand) Owner.noConfusion (fun _ => Owner.noConfusion)]
    exact Function.update_self ..
  have other : ∀ g, owner g ≠ .free → g ≠ f := by
    rintro g used rfl
    exact used was
  have stays : ∀ d', owner d' = .dir 0 → Function.update owner f .hand d' = .dir 0 := by
    intro d' live'
    rw [Function.update_of_ne (other d' (by rw [live']; exact Owner.noConfusion))]
    exact live'
  have same : ∀ d', owner d' = .dir 0 → ∀ pn < TABLEPAGES, (m'.release f).mapping d' pn = m'.mapping d' pn :=
    fun d' live' pn inside => owners.unused_mapping (.inr hand) ((dropped.dir d' 0).mpr (stays d' live')) inside
      fun g apart => Memory.release_other apart
  refine ⟨fun g pn page here => ?_, fun g kept => ?_, fun pn inside here => ?_, fun d' live' pn inside kept => ?_⟩
  · have apart := other g (by rw [page]; exact Owner.noConfusion)
    rw [Function.update_of_ne apart]
    exact dropped.freed g pn ((Function.update_of_ne apart ..).trans page) here
  · by_cases here : g = f
    · rw [here, Function.update_self, was]
    · rw [Function.update_of_ne here, dropped.kept g, Function.update_of_ne here]
      rw [Function.update_of_ne here]
      exact kept
  · rw [same d live pn inside, dropped.unmapped pn inside here]
  · rw [same d' live' pn inside, dropped.mapping d' (stays d' live') pn inside kept]

/-- Pages were mapped at the `new` page numbers. -/
structure Grown (d : Nat) (flags : Nat → Nat) (new : Nat → Prop) (m : Memory) (owner : Nat → Owner) (m' : Memory)
    (owner' : Nat → Owner) : Prop where
  extended : Extended d new m owner m' owner'
  /-- The pages are mapped with these flags. -/
  mapped : ∀ pn, new pn → ∃ f, m'.mapping d pn = some (pteWord (f * PGSIZE) (flags pn))

/-- The flags of user memory. -/
def userFlags (_ : Nat) : Nat := PTE_W + PTE_U

/-- Pages of a range that begin before another page. -/
def Before (oldsz newsz q pn : Nat) : Prop := InRange oldsz newsz pn ∧ pn < q

/-- The whole range comes before the page at which its loop ends. -/
theorem Grown.done {q : Nat} (grown : Grown d flags (Before oldsz newsz q) m owner m' owner') (ended : newsz ≤ q * PGSIZE) :
    Grown d flags (InRange oldsz newsz) m owner m' owner' := by
  refine ⟨grown.extended.mono fun _ new => new.1, fun pn here => grown.mapped pn ⟨here, ?_⟩⟩
  exact Nat.lt_of_mul_lt_mul_right (Nat.lt_of_lt_of_le here.2 ended)

/-- One more page. -/
theorem Grown.next {q : Nat} (grown : Grown d flags (Before oldsz newsz q) m owner m' owner')
    (extended : Extended d (· = q) m' owner' m'' owner'')
    (mapped : m''.mapping d q = some (pteWord (f * PGSIZE) (flags q))) (live : owner' d = .dir 0)
    (start : oldsz ≤ q * PGSIZE) (below : q * PGSIZE < newsz) (bound : newsz ≤ KERNBASE) :
    Grown d flags (Before oldsz newsz (q + 1)) m owner m'' owner'' := by
  refine ⟨(grown.extended.trans extended).mono fun pn new => ?_, fun pn ⟨here, upto⟩ => ?_⟩
  · rcases new with ⟨here, before⟩ | rfl
    · exact ⟨here, Nat.lt_succ_of_lt before⟩
    · exact ⟨⟨start, below⟩, Nat.lt_succ_self pn⟩
  · by_cases last : pn = q
    · rw [last]
      exact ⟨f, mapped⟩
    · have inside : pn < TABLEPAGES := by
        unfold KERNBASE at bound
        unfold PGSIZE at below
        unfold TABLEPAGES NPDENTRIES
        omega
      rw [extended.mapping d live pn inside fun _ => last]
      exact grown.mapped pn ⟨here, by omega⟩

/-- The loop of `allocuvm`, from a state in which the pages before `q` have been added. -/
theorem allocLoop_extends {m₀ : Memory} {owner₀ : Nat → Owner} (owners₀ : PageOwners k m₀ owner₀) (live₀ : owner₀ d = .dir 0)
    (bound : newsz < KERNBASE) (absent : ∀ pn, InRange oldsz newsz pn → m₀.mapping d pn = none) (fuel : Nat) :
    ∀ {q : Nat} {m : Memory} {owner : Nat → Owner}, PageOwners k m owner → Grown d userFlags (Before oldsz newsz q) m₀ owner₀ m owner →
    oldsz ≤ q * PGSIZE → newsz ≤ (q + fuel) * PGSIZE →
    Returns k (Vm.allocLoop d oldsz newsz fuel (q * PGSIZE)) m fun r m' => ∃ owner', PageOwners k m' owner' ∧
      ((r = newsz ∧ Grown d userFlags (InRange oldsz newsz) m₀ owner₀ m' owner') ∨
        (r = 0 ∧ Extended d nowhere m₀ owner₀ m' owner')) := by
  induction fuel with
  | zero => exact fun owners grown _ enough => Returns.pure ⟨_, owners, .inl ⟨rfl, grown.done enough⟩⟩
  | succ fuel ih =>
    intro q m owner owners grown start enough
    have live := (grown.extended.dir d 0).mpr live₀
    unfold Vm.allocLoop
    by_cases below : q * PGSIZE < newsz
    · have user : q < USERPAGES := by
        unfold USERPAGES
        unfold KERNBASE PGSIZE at *
        omega
      have inside : q < TABLEPAGES := Nat.lt_trans user (by decide)
      have absent' : m.mapping d q = none := by
        rw [grown.extended.mapping d live₀ q inside fun _ new => Nat.lt_irrefl q new.2]
        exact absent q ⟨start, below⟩
      have vacant : ∀ pn < TABLEPAGES, InRange oldsz newsz pn → m₀.mapping d pn = none := fun pn _ => absent pn
      rw [if_pos below]
      refine .bind (Vm.kalloc_returns k m) fun r m₁ known => ?_
      rcases known with ⟨rfl, _, rfl⟩ | ⟨f, rest, rfl, head, rfl⟩
      · refine .bind (deallocuvm_drops owners live (Nat.le_of_lt bound)) fun _ m₂ known => ?_
        obtain ⟨_, owner₂, owners₂, dropped⟩ := known
        exact Returns.pure ⟨owner₂, owners₂, .inr ⟨rfl, grown.extended.drop dropped (fun _ new => new.1) vacant owners₀⟩⟩
      · have missing : f ∉ rest := by
          have nodup := owners.nodup
          rw [head] at nodup
          exact (List.nodup_cons.mp nodup).1
        refine .bind (Vm.clear_returns (m := { m with free := rest }) missing) fun _ m₂ known => ?_
        subst known
        refine .bind (mappages_new owners live head (fun _ => 0) user (by decide) absent') fun r m₂ known => ?_
        obtain ⟨owner₂, ⟨rfl, owners₂, extended, mapped⟩ | ⟨rfl, owners₂, free, extended⟩⟩ := known
        · have step : uint ((q * PGSIZE : Nat) + PGSIZE) = (q + 1) * PGSIZE := by
            unfold USERPAGES KERNBASE PGSIZE at user
            unfold uint PGSIZE
            omega
          rw [if_pos rfl, step]
          have later : newsz ≤ (q + 1 + fuel) * PGSIZE := enough.trans (Nat.mul_le_mul_right PGSIZE (by omega))
          exact ih owners₂ (grown.next extended mapped live start below (Nat.le_of_lt bound))
            (start.trans (Nat.mul_le_mul_right PGSIZE (Nat.le_succ q))) later
        · have live₂ := (extended.dir d 0).mpr live
          have apart : d ≠ f := by
            rintro rfl
            exact Owner.noConfusion (live₂.symm.trans free)
          have live₃ : Function.update owner₂ f .hand d = .dir 0 := (Function.update_of_ne apart ..).trans live₂
          refine .bind (deallocuvm_drops owners₂ live₃ (Nat.le_of_lt bound)) fun _ m₃ known => ?_
          obtain ⟨_, owner₃, owners₃, dropped⟩ := known
          have hand : owner₃ f = .hand := by
            rw [dropped.same (o := .hand) Owner.noConfusion (fun _ => Owner.noConfusion)]
            exact Function.update_self ..
          have usable := owners₃.usable (f := f) (by rw [hand]; exact Owner.noConfusion)
          have missing := owners₃.missing (f := f) (by rw [hand]; exact Owner.noConfusion)
          refine .bind (Vm.kfree_returns usable missing) fun _ m₄ known => ?_
          subst known
          have added : Extended d (Before oldsz newsz q) m₀ owner₀ m₂ owner₂ :=
            (grown.extended.trans extended).mono fun _ new => new.elim id False.elim
          exact Returns.pure ⟨_, owners₃.give hand, .inr ⟨rfl,
            added.drop (dropped.give free owners₃ live₂) (fun _ new => new.1) vacant owners₀⟩⟩
    · rw [if_neg below]
      exact Returns.pure ⟨owner, owners, .inl ⟨rfl, grown.done (Nat.le_of_not_lt below)⟩⟩

/-- `allocuvm` of a range that is absent maps it, or changes nothing but page tables. -/
theorem allocuvm_extends (owners : PageOwners k m owner) (live : owner d = .dir 0)
    (absent : ∀ pn < USERPAGES, InRange oldsz newsz pn → m.mapping d pn = none) :
    Returns k (Vm.allocuvm d oldsz newsz) m fun r m' => ∃ owner', PageOwners k m' owner' ∧
      ((r = max oldsz newsz ∧ newsz < KERNBASE ∧ Grown d userFlags (InRange oldsz newsz) m owner m' owner') ∨
        (r = 0 ∧ Extended d nowhere m owner m' owner')) := by
  unfold Vm.allocuvm
  by_cases high : KERNBASE ≤ newsz
  · rw [if_pos high]
    exact Returns.pure ⟨owner, owners, .inr ⟨rfl, .refl m owner⟩⟩
  · have bound := Nat.lt_of_not_le high
    rw [if_neg high]
    by_cases smaller : newsz < oldsz
    · have empty : ∀ pn, ¬InRange oldsz newsz pn := fun pn here =>
        Nat.lt_irrefl _ (Nat.lt_of_le_of_lt here.1 (Nat.lt_trans here.2 smaller))
      rw [if_pos smaller]
      exact Returns.pure ⟨owner, owners, .inl ⟨(Nat.max_eq_left (Nat.le_of_lt smaller)).symm, bound, .refl m owner,
        fun pn here => absurd here (empty pn)⟩⟩
    · have larger := Nat.le_of_not_lt smaller
      have all : KERNBASE ≤ 2 ^ 20 * PGSIZE := by decide
      have start : oldsz ≤ (oldsz + PGSIZE - 1) / PGSIZE * PGSIZE := by
        unfold PGSIZE
        omega
      have untouched : ∀ pn, ¬Before oldsz newsz ((oldsz + PGSIZE - 1) / PGSIZE) pn := by
        rintro pn ⟨⟨from', _⟩, before⟩
        unfold PGSIZE at *
        omega
      have absent' : ∀ pn, InRange oldsz newsz pn → m.mapping d pn = none := by
        refine fun pn here => absent pn ?_ here
        have below := Nat.lt_trans here.2 bound
        unfold USERPAGES
        unfold KERNBASE PGSIZE at *
        omega
      rw [if_neg smaller, PGROUNDUP_below (Nat.lt_of_le_of_lt larger bound)]
      refine (allocLoop_extends owners live bound absent' (2 ^ 20) owners ⟨.refl m owner, fun pn here => absurd here (untouched pn)⟩
        start ?_).mono fun r m' known => ?_
      · exact ((Nat.le_of_lt bound).trans all).trans (Nat.mul_le_mul_right PGSIZE (Nat.le_add_left _ _))
      · obtain ⟨owner', owners', ⟨rfl, grown⟩ | failed⟩ := known
        · exact ⟨owner', owners', .inl ⟨(Nat.max_eq_right larger).symm, bound, grown⟩⟩
        · exact ⟨owner', owners', .inr failed⟩

/-- A page in hand is freed. -/
theorem Extended.give (extended : Extended d new m owner m' owner') (owners : PageOwners k m' (Function.update owner' f .hand))
    (free : owner' f = .free) : PageOwners k (m'.release f) owner' ∧ Extended d new m owner (m'.release f) owner' := by
  have hand : Function.update owner' f .hand f = .hand := Function.update_self ..
  have given := owners.give hand
  rw [Function.update_idem, ← free, Function.update_eq_self] at given
  refine ⟨given, extended.owners, fun d' live pn inside kept => ?_⟩
  have live' := (extended.dir d' 0).mpr live
  have apart : d' ≠ f := by
    rintro rfl
    exact Owner.noConfusion (live'.symm.trans free)
  rw [← extended.mapping d' live pn inside kept]
  exact owners.unused_mapping (.inr hand) ((Function.update_of_ne apart ..).trans live') inside
    fun g other => Memory.release_other other

end Allocating

/-! ## Copying -/

section Copying

variable {k : KernelImage} {m m' : Memory} {owner owner' : Nat → Owner} {pgdir d sz : Nat}

/-- The flags of a page that is mapped. -/
def Memory.flags (m : Memory) (d pn : Nat) : Nat := (m.mapping d pn).getD 0 % PGSIZE

/-- The loop of `copyuvm`, from a state in which the pages before `q` have been copied. -/
theorem copyLoop_grows {m₀ : Memory} {owner₀ : Nat → Owner} (live₀ : owner₀ d = .dir 0) (source₀ : owner₀ pgdir = .dir 0)
    (apart : pgdir ≠ d) (bound : sz ≤ KERNBASE) (image : ∀ pn, InRange 0 sz pn → (m₀.mapping pgdir pn).isSome)
    (absent : ∀ pn < USERPAGES, m₀.mapping d pn = none) (fuel : Nat) :
    ∀ {q : Nat} {m : Memory} {owner : Nat → Owner}, PageOwners k m owner →
    Grown d (m₀.flags pgdir) (Before 0 sz q) m₀ owner₀ m owner → sz ≤ (q + fuel) * PGSIZE →
    Returns k (Vm.copyLoop pgdir d sz fuel (q * PGSIZE)) m fun r m' => ∃ owner', PageOwners k m' owner' ∧
      ((r = true ∧ Grown d (m₀.flags pgdir) (InRange 0 sz) m₀ owner₀ m' owner') ∨
        (r = false ∧ Extended d (InRange 0 sz) m₀ owner₀ m' owner')) := by
  induction fuel with
  | zero => exact fun owners grown enough => Returns.pure ⟨_, owners, .inl ⟨rfl, grown.done enough⟩⟩
  | succ fuel ih =>
    intro q m owner owners grown enough
    have live := (grown.extended.dir d 0).mpr live₀
    have source := (grown.extended.dir pgdir 0).mpr source₀
    unfold Vm.copyLoop
    by_cases below : q * PGSIZE < sz
    · have user : q < USERPAGES := by
        unfold USERPAGES
        unfold KERNBASE PGSIZE at *
        omega
      have inside : q < TABLEPAGES := Nat.lt_trans user (by decide)
      have low : q * PGSIZE < 2 ^ 32 := Nat.lt_trans (Nat.lt_of_lt_of_le below bound) (by decide)
      have here : q * PGSIZE / PGSIZE = q := Nat.mul_div_cancel q (by decide)
      have index : PDX (q * PGSIZE) = q / NPDENTRIES := by rw [PDX_eq, here]
      have column : PTX (q * PGSIZE) = q % NPDENTRIES := by
        unfold PTX
        rw [here]
      obtain ⟨w, known⟩ := Option.isSome_iff_exists.mp (image q ⟨Nat.zero_le _, below⟩)
      have mapping : m.mapping pgdir q = some w :=
        (grown.extended.mapping pgdir source₀ q inside fun same => absurd same apart).trans known
      have failed : ∀ {m' owner'}, Extended d nowhere m owner m' owner' → Extended d (InRange 0 sz) m₀ owner₀ m' owner' :=
        fun extended => (grown.extended.trans extended).mono fun _ new => new.elim And.left False.elim
      rw [if_pos below]
      refine .bind (walkpgdir_finds owners source low) fun r m₁ known' => ?_
      obtain ⟨rfl, ⟨rfl, none⟩ | ⟨t, rfl, table⟩⟩ := known'
      · rw [index] at none
        unfold Memory.mapping at mapping
        rw [none] at mapping
        exact nomatch mapping
      · rw [index] at table
        simp only [column]
        have missing := owners.missing (f := t) (by rw [table]; exact Owner.noConfusion)
        refine .bind (Vm.load_returns missing _) fun pte m₂ known' => ?_
        obtain ⟨rfl, rfl⟩ := known'
        have entry := mapping
        rw [owners.mapping_table table] at entry
        split at entry
        · rename_i there
          rw [Option.some.inj entry] at there ⊢
          rw [if_neg (by rw [there]; exact Bool.true_eq_false.mp)]
          have frame := owners.mapping_page source user mapping
          refine .bind (Vm.kalloc_returns k m₂) fun r m₃ known' => ?_
          rcases known' with ⟨rfl, _, rfl⟩ | ⟨f, rest, rfl, head, rfl⟩
          · exact Returns.pure ⟨owner, owners, .inr ⟨rfl, failed (.refl m₃ owner)⟩⟩
          · have fresh : ∀ g, g ∈ rest → g ∈ m₂.free := fun g member => head ▸ List.mem_cons_of_mem f member
            have missing₁ : w / PGSIZE ∉ rest := fun member =>
              owners.missing (by rw [frame]; exact Owner.noConfusion) (fresh _ member)
            have missing₂ : f ∉ rest := by
              have nodup := owners.nodup
              rw [head] at nodup
              exact (List.nodup_cons.mp nodup).1
            refine .bind (Vm.copy_returns (m := { m₂ with free := rest }) missing₁ missing₂) fun _ m₄ known' => ?_
            subst known'
            have absent' : m₂.mapping d q = none := by
              rw [grown.extended.mapping d live₀ q inside fun _ new => Nat.lt_irrefl q new.2]
              exact absent q user
            have small : w % PGSIZE < PGSIZE := Nat.mod_lt w (by decide)
            refine .bind (mappages_new owners live head (m₂.word (w / PGSIZE)) user small absent') fun r m₄ known' => ?_
            obtain ⟨owner₂, ⟨rfl, owners₂, extended, mapped⟩ | ⟨rfl, owners₂, free, extended⟩⟩ := known'
            · have step : uint ((q * PGSIZE : Nat) + PGSIZE) = (q + 1) * PGSIZE := by
                unfold USERPAGES KERNBASE PGSIZE at user
                unfold uint PGSIZE
                omega
              have flags : w % PGSIZE = m₀.flags pgdir q := by
                unfold Memory.flags
                rw [known]
                rfl
              have later : sz ≤ (q + 1 + fuel) * PGSIZE := enough.trans (Nat.mul_le_mul_right PGSIZE (by omega))
              rw [if_pos rfl, step]
              rw [flags] at mapped
              exact ih owners₂ (grown.next extended mapped live (Nat.zero_le _) below bound) later
            · have hand : Function.update owner₂ f .hand f = .hand := Function.update_self ..
              have usable := owners₂.usable (f := f) (by rw [hand]; exact Owner.noConfusion)
              have missing := owners₂.missing (f := f) (by rw [hand]; exact Owner.noConfusion)
              refine .bind (Vm.kfree_returns usable missing) fun _ m₅ known' => ?_
              subst known'
              obtain ⟨given, extended'⟩ := extended.give owners₂ free
              exact Returns.pure ⟨owner₂, given, .inr ⟨rfl, failed extended'⟩⟩
        · exact nomatch entry
    · rw [if_neg below]
      exact Returns.pure ⟨owner, owners, .inl ⟨rfl, grown.done (Nat.le_of_not_lt below)⟩⟩

/-- `copyuvm` of an image returns a new directory with a page for each of its pages, or everything
is as it was. -/
theorem copyuvm_copies (owners : PageOwners k m owner) (source : owner pgdir = .dir 0) (bound : sz ≤ KERNBASE)
    (image : ∀ pn, InRange 0 sz pn → (m.mapping pgdir pn).isSome) :
    Returns k (Vm.copyuvm k pgdir sz) m fun r m' => ∃ owner', PageOwners k m' owner' ∧ ((r = none ∧ Restored m owner m' owner') ∨
      ∃ d, r = some d ∧ Populated d m owner m' owner' ∧
        (∀ pn, InRange 0 sz pn → ∃ f, m'.mapping d pn = some (pteWord (f * PGSIZE) (m.flags pgdir pn))) ∧
        ∀ pn < USERPAGES, sz ≤ pn * PGSIZE → m'.mapping d pn = none) := by
  unfold Vm.copyuvm
  refine .bind (setupkvm_builds owners) fun r m₁ known => ?_
  obtain ⟨owner₁, owners₁, ⟨rfl, restored⟩ | ⟨d, rfl, populated, empty⟩⟩ := known
  · exact Returns.pure ⟨owner₁, owners₁, .inl ⟨rfl, restored⟩⟩
  · have inside : ∀ {pn}, InRange 0 sz pn → pn < TABLEPAGES := by
      rintro pn ⟨_, below⟩
      unfold KERNBASE at bound
      unfold PGSIZE at below
      unfold TABLEPAGES NPDENTRIES
      omega
    have same : ∀ pn, InRange 0 sz pn → m₁.mapping pgdir pn = m.mapping pgdir pn := fun pn here =>
      populated.mapping pgdir source pn (inside here)
    have image₁ : ∀ pn, InRange 0 sz pn → (m₁.mapping pgdir pn).isSome := by
      intro pn here
      rw [same pn here]
      exact image pn here
    have start : Grown d (m₁.flags pgdir) (Before 0 sz 0) m₁ owner₁ m₁ owner₁ :=
      ⟨.refl m₁ owner₁, fun pn here => absurd here.2 (Nat.not_lt_zero pn)⟩
    have enough : sz ≤ (0 + 2 ^ 20) * PGSIZE := bound.trans (by decide)
    refine .bind (copyLoop_grows populated.dir (populated.live source) (populated.apart source) bound image₁ empty (2 ^ 20)
      owners₁ start enough) fun r m₂ known => ?_
    obtain ⟨owner₂, owners₂, ⟨rfl, grown⟩ | ⟨rfl, extended⟩⟩ := known
    · refine Returns.pure ⟨owner₂, owners₂, .inr ⟨d, rfl, populated.extend grown.extended, fun pn here => ?_, fun pn user above => ?_⟩⟩
      · obtain ⟨f, mapped⟩ := grown.mapped pn here
        unfold Memory.flags at mapped ⊢
        rw [same pn here] at mapped
        exact ⟨f, mapped⟩
      · rw [grown.extended.mapping d populated.dir pn (Nat.lt_trans user (by decide)) fun _ here =>
          Nat.not_lt_of_le above here.2]
        exact empty pn user
    · have populated₂ := populated.extend extended
      refine .bind (freevm_frees owners₂ populated₂.dir) fun _ m₃ known => ?_
      obtain ⟨owner₃, owners₃, dismantled⟩ := known
      exact Returns.pure ⟨owner₃, owners₃, .inl ⟨rfl, populated₂.dismantle dismantled owners⟩⟩

end Copying

end Xv6
