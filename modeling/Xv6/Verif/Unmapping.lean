import Xv6.Verif.Paging
import Xv6.Verif.Walks

/-!
# Unmapping and freeing

`deallocuvm` frees exactly the present pages of its range, although it skips the addresses of page
tables that are missing, and `freevm` frees the user pages, the page tables and the directory. Both
always return, and neither touches a page that is free.
-/

namespace Xv6

/-! ## User pages -/

/-- The user pages at the page numbers `gone` of a directory were freed, and nothing else has
changed. -/
structure Dropped (d : Nat) (gone : Nat → Prop) (m : Memory) (owner : Nat → Owner) (m' : Memory)
    (owner' : Nat → Owner) : Prop where
  /-- The pages that are freed. -/
  freed : ∀ f pn, owner f = .page d pn → gone pn → owner' f = .free
  kept : ∀ f, (∀ pn, owner f = .page d pn → ¬gone pn) → owner' f = owner f
  /-- The mappings that are removed. -/
  unmapped : ∀ pn < TABLEPAGES, gone pn → m'.mapping d pn = none
  /-- The other mappings. -/
  mapping : ∀ d', owner d' = .dir 0 → ∀ pn < TABLEPAGES, (d' = d → ¬gone pn) → m'.mapping d' pn = m.mapping d' pn

section Drops

variable {k : KernelImage} {gone gone' : Nat → Prop} {m m' m'' : Memory} {owner owner' owner'' : Nat → Owner}
  {d f pn q t oldsz newsz : Nat}

/-- An owner other than a user page of the directory is the same. -/
theorem Dropped.other (dropped : Dropped d gone m owner m' owner') (other : ∀ pn, owner f ≠ .page d pn) :
    owner' f = owner f := dropped.kept f fun pn same => absurd same (other pn)

/-- The same pages have an owner that does not go away. -/
theorem Dropped.same (dropped : Dropped d gone m owner m' owner') {o : Owner} (used : o ≠ .free)
    (other : ∀ pn, o ≠ .page d pn) (f : Nat) : owner' f = o ↔ owner f = o := by
  by_cases away : ∃ pn, owner f = .page d pn ∧ gone pn
  · obtain ⟨pn, owned, here⟩ := away
    rw [dropped.freed f pn owned here, owned]
    exact ⟨fun same => absurd same.symm used, fun same => absurd same.symm (other pn)⟩
  · rw [dropped.kept f fun pn owned here => away ⟨pn, owned, here⟩]

/-- The directories are the same. -/
theorem Dropped.dir (dropped : Dropped d gone m owner m' owner') (f n : Nat) : owner' f = .dir n ↔ owner f = .dir n :=
  dropped.same (o := .dir n) Owner.noConfusion (fun _ => Owner.noConfusion) f

/-- The page tables are the same. -/
theorem Dropped.table (dropped : Dropped d gone m owner m' owner') (f e i : Nat) :
    owner' f = .table e i ↔ owner f = .table e i :=
  dropped.same (o := .table e i) Owner.noConfusion (fun _ => Owner.noConfusion) f

/-- Nothing is freed where nothing is mapped. -/
theorem Dropped.nothing (owners : PageOwners k m owner)
    (absent : ∀ pn < TABLEPAGES, gone pn → m.mapping d pn = none) : Dropped d gone m owner m owner := by
  refine ⟨fun f pn owned here => ?_, fun _ _ => rfl, absent, fun _ _ _ _ _ => rfl⟩
  obtain ⟨user, _⟩ := (owners.page f d pn).mp owned
  obtain ⟨w, mapped, _⟩ := owners.page_mapping owned
  have inside : pn < TABLEPAGES := by
    unfold USERPAGES KERNBASE PGSIZE at user
    unfold TABLEPAGES NPDENTRIES
    omega
  rw [absent pn inside here] at mapped
  contradiction

/-- One range after the other. -/
theorem Dropped.trans (first : Dropped d gone m owner m' owner') (second : Dropped d gone' m' owner' m'' owner'')
    (live : owner d = .dir 0) : Dropped d (fun pn => gone pn ∨ gone' pn) m owner m'' owner'' := by
  have dirs : ∀ d', owner d' = .dir 0 → owner' d' = .dir 0 := fun d' => (first.dir d' 0).mpr
  have free : ∀ g, owner' g = .free → owner'' g = .free := by
    intro g was
    have same : owner'' g = owner' g := second.other fun pn page => Owner.noConfusion (was.symm.trans page)
    exact same.trans was
  refine ⟨fun g pn owned here => ?_, fun g other => ?_, fun pn inside here => ?_, fun d' dir pn inside other => ?_⟩
  · by_cases early : gone pn
    · exact free g (first.freed g pn owned early)
    · have same : owner' g = owner g := by
        refine first.kept g fun pn' owned' => ?_
        rw [owned] at owned'
        exact (Owner.page.inj owned').2 ▸ early
      exact second.freed g pn (same.trans owned) (here.resolve_left early)
  · have same : owner' g = owner g := first.kept g fun pn owned early => other pn owned (.inl early)
    rw [← same]
    exact second.kept g fun pn owned late => other pn (same ▸ owned) (.inr late)
  · by_cases late : gone' pn
    · exact second.unmapped pn inside late
    · rw [second.mapping d (dirs d live) pn inside fun _ => late]
      exact first.unmapped pn inside (here.resolve_right late)
  · rw [second.mapping d' (dirs d' dir) pn inside fun same late => other same (.inr late),
      first.mapping d' dir pn inside fun same early => other same (.inl early)]

/-- The same range. -/
theorem Dropped.congr (dropped : Dropped d gone m owner m' owner') (same : ∀ pn < TABLEPAGES, gone pn ↔ gone' pn)
    (owners : PageOwners k m owner) : Dropped d gone' m owner m' owner' := by
  have inside : ∀ f pn, owner f = .page d pn → pn < TABLEPAGES := by
    intro f pn owned
    obtain ⟨user, _⟩ := (owners.page f d pn).mp owned
    unfold USERPAGES KERNBASE PGSIZE at user
    unfold TABLEPAGES NPDENTRIES
    omega
  exact ⟨fun f pn owned here => dropped.freed f pn owned ((same pn (inside f pn owned)).mpr here),
    fun f other => dropped.kept f fun pn owned here => other pn owned ((same pn (inside f pn owned)).mp here),
    fun pn low here => dropped.unmapped pn low ((same pn low).mpr here),
    fun d' dir pn low other => dropped.mapping d' dir pn low fun own here => other own ((same pn low).mp here)⟩

/-- A user page that is freed is no part of a mapping. -/
theorem PageOwners.release_mapping (owners : PageOwners k m owner) (mapped : owner f = .page d q)
    (table : owner t = .table d (q / NPDENTRIES)) {d' : Nat} (live : owner d' = .dir 0) (inside : pn < TABLEPAGES) (w : Nat) :
    ((m.release f).set t (q % NPDENTRIES) w).mapping d' pn = (m.set t (q % NPDENTRIES) w).mapping d' pn := by
  have low : pn / NPDENTRIES < NPDENTRIES := by
    unfold TABLEPAGES NPDENTRIES at inside
    unfold NPDENTRIES
    omega
  have words : ∀ g, g ≠ f → ((m.release f).set t (q % NPDENTRIES) w).word g = (m.set t (q % NPDENTRIES) w).word g := by
    intro g other
    by_cases here : g = t
    · rw [here] at other ⊢
      unfold Memory.set
      rw [Memory.setFrame_self, Memory.setFrame_self, Memory.release_other other]
    · rw [Memory.set_other here, Memory.set_other here, Memory.release_other other]
  have dir : d' ≠ f := by
    rintro rfl
    rw [live] at mapped
    contradiction
  have apart : d' ≠ t := by
    rintro rfl
    rw [live] at table
    contradiction
  refine Memory.mapping_congr (congrFun (words d' dir) _) fun t' named => congrFun (words t' ?_) _
  rintro rfl
  rw [Memory.set_other apart] at named
  have owned := (owners.table t' d' _).mpr ⟨low, 0, live, Nat.zero_le _, named⟩
  rw [mapped] at owned
  contradiction

/-- One user page is freed and its entry is cleared. -/
theorem PageOwners.drops (owners : PageOwners k m owner) (live : owner d = .dir 0) (mapped : owner f = .page d q)
    (table : owner t = .table d (q / NPDENTRIES)) :
    Dropped d (· = q) m owner ((m.release f).set t (q % NPDENTRIES) 0) (Function.update owner f .free) := by
  refine ⟨fun g pn owned here => ?_, fun g other => ?_, fun pn inside here => ?_, fun d' dir pn inside other => ?_⟩
  · obtain ⟨w, first, rfl⟩ := owners.page_mapping owned
    obtain ⟨w', second, rfl⟩ := owners.page_mapping mapped
    rw [here, second] at first
    rw [Option.some.inj first]
    exact Function.update_self ..
  · have differs : g ≠ f := by
      rintro rfl
      exact other q mapped rfl
    exact Function.update_of_ne differs ..
  · rw [owners.release_mapping mapped table live inside 0, here, owners.set_mapping_self table live]
    rfl
  · rw [owners.release_mapping mapped table dir inside 0]
    exact owners.set_mapping table dir inside (not_and_or.mp fun same => other same.1 same.2)

/-- A page that can be freed is not the first one. -/
theorem usable_pos (usable : Memory.usable k f = true) : f ≠ 0 := by
  rintro rfl
  obtain ⟨above, _⟩ := of_decide_eq_true usable
  have inside := k.data_inside
  have low := k.data_low
  unfold KERNLINK at low
  omega

/-- The first page of a range, and the others. -/
theorem inRange_step (below : q * PGSIZE < oldsz) :
    (pn = q ∨ InRange ((q + 1) * PGSIZE) oldsz pn) ↔ InRange (q * PGSIZE) oldsz pn := by
  unfold InRange PGSIZE at *
  omega

/-- The pages of a page table from the first of a range on, and the others. -/
theorem inRange_skip : (q ≤ pn ∧ pn < (q / NPDENTRIES + 1) * NPDENTRIES ∧ pn * PGSIZE < oldsz ∨
    InRange ((q / NPDENTRIES + 1) * NPDENTRIES * PGSIZE) oldsz pn) ↔ InRange (q * PGSIZE) oldsz pn := by
  unfold InRange NPDENTRIES PGSIZE
  omega

/-- The loop of `deallocuvm`. -/
theorem deallocLoop_drops (user : oldsz ≤ KERNBASE) (fuel : Nat) : ∀ {q : Nat} {m : Memory} {owner : Nat → Owner},
    PageOwners k m owner → owner d = .dir 0 → oldsz ≤ (q + fuel) * PGSIZE →
    Returns k (Vm.deallocLoop d oldsz fuel (q * PGSIZE)) m fun _ m' => ∃ owner', PageOwners k m' owner' ∧
      Dropped d (InRange (q * PGSIZE) oldsz) m owner m' owner' := by
  induction fuel with
  | zero =>
    intro q m owner owners live enough
    refine Returns.pure ⟨owner, owners, .nothing owners fun pn _ ⟨from', below⟩ => ?_⟩
    unfold PGSIZE at *
    omega
  | succ fuel ih =>
    intro q m owner owners live enough
    unfold Vm.deallocLoop
    by_cases below : q * PGSIZE < oldsz
    · have low : q * PGSIZE < 2 ^ 32 := by
        unfold KERNBASE at user
        omega
      have here : q * PGSIZE / PGSIZE = q := Nat.mul_div_cancel q (by decide)
      have index : PDX (q * PGSIZE) = q / NPDENTRIES := by rw [PDX_eq, here]
      have column : PTX (q * PGSIZE) = q % NPDENTRIES := by
        unfold PTX
        rw [here]
      have step : uint ((q * PGSIZE : Nat) + PGSIZE) = (q + 1) * PGSIZE := by
        unfold KERNBASE at user
        unfold uint PGSIZE at *
        omega
      rw [if_pos below]
      refine .bind (walkpgdir_finds owners live low) fun r m₁ known => ?_
      obtain ⟨rfl, ⟨rfl, absent⟩ | ⟨t, rfl, table⟩⟩ := known
      · have skip : uint ((PDX (q * PGSIZE) + 1) * (NPDENTRIES * PGSIZE)) = (q / NPDENTRIES + 1) * NPDENTRIES * PGSIZE := by
          rw [index]
          unfold KERNBASE at user
          unfold uint PGSIZE NPDENTRIES at *
          omega
        rw [index] at absent
        have missing : ∀ pn, q ≤ pn → pn < (q / NPDENTRIES + 1) * NPDENTRIES → m₁.mapping d pn = none := by
          intro pn from' upto
          have same : pn / NPDENTRIES = q / NPDENTRIES := by
            unfold NPDENTRIES at *
            omega
          unfold Memory.mapping
          rw [same, absent]
        have further : oldsz ≤ ((q / NPDENTRIES + 1) * NPDENTRIES + fuel) * PGSIZE :=
          enough.trans (Nat.mul_le_mul_right PGSIZE (by unfold NPDENTRIES; omega))
        change Returns k (Vm.deallocLoop d oldsz fuel (uint ((PDX (q * PGSIZE) + 1) * (NPDENTRIES * PGSIZE)))) m₁ _
        rw [skip]
        refine (ih owners live further).mono fun _ m₂ known => ?_
        obtain ⟨owner₂, owners₂, dropped⟩ := known
        have none : Dropped d (fun pn => q ≤ pn ∧ pn < (q / NPDENTRIES + 1) * NPDENTRIES ∧ pn * PGSIZE < oldsz)
            m₁ owner m₁ owner := .nothing owners fun pn _ ⟨from', upto, _⟩ => missing pn from' upto
        exact ⟨owner₂, owners₂, (none.trans dropped live).congr (fun pn _ => inRange_skip) owners⟩
      · rw [index] at table
        simp only [column]
        rw [step]
        have later : oldsz ≤ (q + 1 + fuel) * PGSIZE := enough.trans (Nat.mul_le_mul_right PGSIZE (by omega))
        have missing := owners.missing (f := t) (by rw [table]; exact Owner.noConfusion)
        refine .bind (Vm.load_returns missing _) fun w m₂ known => ?_
        obtain ⟨rfl, rfl⟩ := known
        have mapping := owners.mapping_table table
        by_cases here : present (m₂.word t (q % NPDENTRIES)) = true
        · rw [if_pos here] at mapping ⊢
          have mapped := owners.mapping_page live (by unfold USERPAGES; unfold KERNBASE at *; unfold PGSIZE at *; omega) mapping
          have usable := owners.usable (f := m₂.word t (q % NPDENTRIES) / PGSIZE) (by rw [mapped]; exact Owner.noConfusion)
          have missing' := owners.missing (f := m₂.word t (q % NPDENTRIES) / PGSIZE) (by rw [mapped]; exact Owner.noConfusion)
          rw [if_neg (usable_pos usable)]
          refine .bind (Vm.kfree_returns usable missing') fun _ m₃ known => ?_
          subst known
          have apart : t ≠ m₂.word t (q % NPDENTRIES) / PGSIZE := by
            intro same
            rw [← same, table] at mapped
            exact Owner.noConfusion mapped
          have missing'' : t ∉ (m₂.release (m₂.word t (q % NPDENTRIES) / PGSIZE)).free := by
            rw [Memory.release_free, List.mem_cons]
            exact fun member => member.elim apart missing
          refine .bind (Vm.store_returns missing'' _ _) fun _ m₃ known => ?_
          subst known
          have first := owners.drops live mapped table
          have live₁ := (first.dir d 0).mpr live
          refine (ih (owners.dropPage mapped table) live₁ later).mono fun _ m₃ known => ?_
          obtain ⟨owner₂, owners₂, dropped⟩ := known
          exact ⟨owner₂, owners₂, (first.trans dropped live).congr (fun pn _ => inRange_step below) owners⟩
        · rw [if_neg here] at mapping ⊢
          refine (ih owners live later).mono fun _ m₃ known => ?_
          obtain ⟨owner₂, owners₂, dropped⟩ := known
          have none : Dropped d (· = q) m₂ owner m₂ owner := .nothing owners fun pn _ same => same ▸ mapping
          exact ⟨owner₂, owners₂, (none.trans dropped live).congr (fun pn _ => inRange_step below) owners⟩
    · rw [if_neg below]
      refine Returns.pure ⟨owner, owners, .nothing owners fun pn _ ⟨from', below'⟩ => ?_⟩
      unfold PGSIZE at *
      omega

/-- `PGROUNDUP` of a user address does not wrap around. -/
theorem PGROUNDUP_below (bound : newsz < KERNBASE) : PGROUNDUP newsz = (newsz + PGSIZE - 1) / PGSIZE * PGSIZE := by
  unfold KERNBASE at bound
  unfold PGROUNDUP PGSIZE
  omega

/-- A range begins at a page boundary. -/
theorem inRange_roundup : InRange ((newsz + PGSIZE - 1) / PGSIZE * PGSIZE) oldsz pn ↔ InRange newsz oldsz pn := by
  unfold InRange PGSIZE
  omega

/-- `deallocuvm` returns the size as `vm.c` says and frees the pages of its range. -/
theorem deallocuvm_drops (owners : PageOwners k m owner) (live : owner d = .dir 0) (user : oldsz ≤ KERNBASE) :
    Returns k (Vm.deallocuvm d oldsz newsz) m fun r m' => r = min oldsz newsz ∧ ∃ owner', PageOwners k m' owner' ∧
      Dropped d (InRange newsz oldsz) m owner m' owner' := by
  unfold Vm.deallocuvm
  by_cases empty : oldsz ≤ newsz
  · rw [if_pos empty]
    refine Returns.pure ⟨(Nat.min_eq_left empty).symm, owner, owners, .nothing owners fun pn _ ⟨from', below⟩ => ?_⟩
    omega
  · have all : KERNBASE ≤ 2 ^ 20 * PGSIZE := by decide
    have enough : oldsz ≤ ((newsz + PGSIZE - 1) / PGSIZE + 2 ^ 20) * PGSIZE :=
      (user.trans all).trans (Nat.mul_le_mul_right PGSIZE (Nat.le_add_left _ _))
    have bound : newsz < KERNBASE := Nat.lt_of_lt_of_le (Nat.lt_of_not_le empty) user
    rw [if_neg empty, PGROUNDUP_below bound]
    refine .bind (deallocLoop_drops user (2 ^ 20) owners live enough) fun _ m' known => ?_
    obtain ⟨owner', owners', dropped⟩ := known
    have size := (Nat.min_eq_right (Nat.le_of_not_le empty)).symm
    exact Returns.pure ⟨size, owner', owners', dropped.congr (fun pn _ => inRange_roundup) owners⟩

end Drops

/-! ## Directories -/

/-- The page is the directory, one of its page tables or mapped in it. -/
def Owner.Within (d f : Nat) (o : Owner) : Prop := f = d ∨ (∃ i, o = .table d i) ∨ ∃ pn, o = .page d pn

/-- The pages of a directory were freed, and nothing else has changed. -/
structure Dismantled (d : Nat) (m : Memory) (owner : Nat → Owner) (m' : Memory) (owner' : Nat → Owner) : Prop where
  /-- The pages of the directory. -/
  freed : ∀ f, (owner f).Within d f → owner' f = .free
  kept : ∀ f, ¬(owner f).Within d f → owner' f = owner f
  /-- The mappings of the other directories. -/
  mapping : ∀ d', d' ≠ d → owner d' = .dir 0 → ∀ pn < TABLEPAGES, m'.mapping d' pn = m.mapping d' pn

section Directories

variable {k : KernelImage} {m m' m'' : Memory} {owner owner' owner'' : Nat → Owner} {d f n : Nat}

/-- User pages begin below the kernel's addresses. -/
theorem user_inRange {pn : Nat} (owners : PageOwners k m owner) (owned : owner f = .page d pn) : InRange 0 KERNBASE pn := by
  obtain ⟨low, _⟩ := (owners.page f d pn).mp owned
  unfold USERPAGES KERNBASE PGSIZE at low
  unfold InRange KERNBASE PGSIZE
  omega

/-- The loop of `freevm` over the entries of a directory that maps no user page. -/
theorem freeTables_frees (count : Nat) : ∀ {n : Nat} {m : Memory} {owner : Nat → Owner}, PageOwners k m owner →
    owner d = .dir n → n + count = NPDENTRIES → (∀ f pn, owner f ≠ .page d pn) →
    Returns k (Vm.freeTables d count n) m fun _ m' => ∃ owner', PageOwners k m' owner' ∧ owner' d = .dir NPDENTRIES ∧
      (∀ f i, owner f = .table d i → owner' f = .free) ∧
      (∀ f, f ≠ d → (∀ i, owner f ≠ .table d i) → owner' f = owner f) ∧
      ∀ f, (∀ i, owner f ≠ .table d i) → m'.word f = m.word f := by
  induction count with
  | zero =>
    intro n m owner owners dir all bare
    have ended : n = NPDENTRIES := all
    refine Returns.pure ⟨owner, owners, ended ▸ dir, fun f i table => ?_, fun _ _ _ => rfl, fun _ _ => rfl⟩
    obtain ⟨low, n', dir', above, _⟩ := (owners.table f d i).mp table
    rw [dir] at dir'
    have same := Owner.dir.inj dir'
    omega
  | succ count ih =>
    intro n m owner owners dir all bare
    have low : n < NPDENTRIES := by omega
    have missing : d ∉ m.free := owners.missing (by rw [dir]; exact Owner.noConfusion)
    unfold Vm.freeTables
    refine .bind (Vm.load_returns missing n) fun w m₁ known => ?_
    obtain ⟨rfl, rfl⟩ := known
    unfold Vm.freeTable
    cases named : frameOf (m₁.word d n) with
    | none =>
      have skipped := owners.skipTable dir named
      have bare' : ∀ f pn, Function.update owner d (.dir (n + 1)) f ≠ .page d pn := by
        intro f pn
        rw [Function.update_apply]
        grind
      have idle : Returns k (pure ()) m₁ fun _ m' => m' = m₁ := Returns.pure rfl
      refine .bind idle fun _ m₂ known => ?_
      subst known
      refine (ih skipped (Function.update_self ..) (by omega) bare').mono fun _ m₃ known => ?_
      obtain ⟨owner₂, owners₂, ended, tables, others, words⟩ := known
      have table : ∀ f i, Function.update owner d (.dir (n + 1)) f = .table d i ↔ owner f = .table d i := by
        intro f i
        rw [Function.update_apply]
        grind
      simp only [ne_eq, table] at tables others words
      refine ⟨owner₂, owners₂, ended, tables, fun f other apart => ?_, words⟩
      rw [others f other apart, Function.update_of_ne other]
    | some t =>
      have was : owner t = .table d n := (owners.table t d n).mpr ⟨low, n, dir, Nat.le_refl n, named⟩
      have usable := owners.usable (f := t) (by rw [was]; exact Owner.noConfusion)
      have missing' := owners.missing (f := t) (by rw [was]; exact Owner.noConfusion)
      refine .bind (Vm.kfree_returns usable missing') fun _ m₂ known => ?_
      subst known
      have closed := owners.closeTable dir low named bare
      have bare' : ∀ f pn, Function.update (Function.update owner t .free) d (.dir (n + 1)) f ≠ .page d pn := by
        intro f pn
        simp only [Function.update_apply]
        grind
      refine (ih closed (Function.update_self ..) (by omega) bare').mono fun _ m₃ known => ?_
      obtain ⟨owner₂, owners₂, ended, tables, others, words⟩ := known
      have table : ∀ f i, Function.update (Function.update owner t .free) d (.dir (n + 1)) f = .table d i ↔
          f ≠ t ∧ owner f = .table d i := by
        intro f i
        simp only [Function.update_apply]
        grind
      refine ⟨owner₂, owners₂, ended, fun f i owned => ?_, fun f other apart => ?_, fun f apart => ?_⟩
      · by_cases here : f = t
        · have free := others f (by grind) fun i again => ((table f i).mp again).1 here
          rw [free, here]
          simp only [Function.update_apply]
          grind
        · exact tables f i ((table f i).mpr ⟨here, owned⟩)
      · rw [others f other fun i again => apart i ((table f i).mp again).2]
        simp only [Function.update_apply]
        grind
      · rw [words f fun i again => apart i ((table f i).mp again).2]
        exact Memory.release_other (by grind)

/-- `freevm` of a directory in use frees it with everything in it. -/
theorem freevm_frees (owners : PageOwners k m owner) (live : owner d = .dir 0) :
    Returns k (Vm.freevm d) m fun _ m' => ∃ owner', PageOwners k m' owner' ∧ Dismantled d m owner m' owner' := by
  have usable := owners.usable (f := d) (by rw [live]; exact Owner.noConfusion)
  unfold Vm.freevm
  rw [if_neg (usable_pos usable)]
  refine .bind (deallocuvm_drops owners live (Nat.le_refl KERNBASE)) fun _ m₁ known => ?_
  obtain ⟨_, owner₁, owners₁, dropped⟩ := known
  have live₁ : owner₁ d = .dir 0 := (dropped.dir d 0).mpr live
  have bare : ∀ f pn, owner₁ f ≠ .page d pn := by
    intro f pn page
    have kept : owner₁ f = owner f := by
      refine dropped.kept f fun pn' owned here => ?_
      rw [dropped.freed f pn' owned here] at page
      contradiction
    rw [dropped.freed f pn (kept.symm.trans page) (user_inRange owners₁ page)] at page
    contradiction
  refine .bind (freeTables_frees NPDENTRIES owners₁ live₁ (Nat.zero_add _) bare) fun _ m₂ known => ?_
  obtain ⟨owner₂, owners₂, dir, tables, others, words⟩ := known
  refine (Vm.kfree_returns usable (owners₂.missing (by rw [dir]; exact Owner.noConfusion))).mono fun _ m₃ known => ?_
  subst known
  refine ⟨_, owners₂.closeDir dir, fun f within => ?_, fun f outside => ?_, fun d' other dir' pn inside => ?_⟩
  · rcases within with rfl | ⟨i, owned⟩ | ⟨pn, owned⟩
    · exact Function.update_self ..
    · have apart : f ≠ d := by
        rintro rfl
        rw [live] at owned
        contradiction
      rw [Function.update_of_ne apart]
      exact tables f i ((dropped.table f d i).mpr owned)
    · have apart : f ≠ d := by
        rintro rfl
        rw [live] at owned
        contradiction
      have free := dropped.freed f pn owned (user_inRange owners owned)
      rw [Function.update_of_ne apart, others f apart fun i table => Owner.noConfusion (free.symm.trans table)]
      exact free
  · have apart : f ≠ d := fun same => outside (.inl same)
    have untabled : ∀ i, owner₁ f ≠ .table d i := fun i table => outside (.inr (.inl ⟨i, (dropped.table f d i).mp table⟩))
    rw [Function.update_of_ne apart, others f apart untabled]
    exact dropped.other fun pn owned => outside (.inr (.inr ⟨pn, owned⟩))
  · have dir₁ : owner₁ d' = .dir 0 := (dropped.dir d' 0).mpr dir'
    rw [← dropped.mapping d' dir' pn inside fun same => absurd same other]
    refine owners₁.mapping_congr dir₁ inside ?_ fun t i table => ?_
    · rw [Memory.release_other other]
      exact words d' fun i table => Owner.noConfusion (dir₁.symm.trans table)
    · have apart : t ≠ d := by
        rintro rfl
        rw [live₁] at table
        contradiction
      rw [Memory.release_other apart]
      refine words t fun i' table' => ?_
      rw [table] at table'
      exact other (Owner.table.inj table').1

end Directories

end Xv6
