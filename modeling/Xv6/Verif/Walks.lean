import Xv6.Verif.Owners

/-!
# Walking and mapping

What `walkpgdir` and `mappages` do to the owners of pages and to the mappings of the directories
that are in use, whether or not there is a page for a page table.
-/

namespace Xv6

/-- The program returns, and what it leaves satisfies `post`; it never stops. -/
def Returns {α : Type} (k : KernelImage) (p : Vm α) (m : Memory) (post : α → Memory → Prop) : Prop :=
  Program.wp (Memory.handler k) p post (fun _ => False) m

/-- If the program returns, what it leaves satisfies `post`. -/
def Yields {α : Type} (k : KernelImage) (p : Vm α) (m : Memory) (post : α → Memory → Prop) : Prop :=
  Program.wp (Memory.handler k) p post (fun _ => True) m

/-- A page number has an index in the directory. -/
def TABLEPAGES : Nat := NPDENTRIES * NPDENTRIES

section Programs

variable {α β : Type} {k : KernelImage} {p : Vm α} {next : α → Vm β} {m m' : Memory} {value : α} {post post' : α → Memory → Prop}
  {after : β → Memory → Prop} {f g i w : Nat}

/-- A program that returns at once. -/
theorem Returns.pure (holds : post value m) : Returns k (Pure.pure value) m post := holds

/-- One program after the other. -/
theorem Returns.bind (first : Returns k p m post) (rest : ∀ value m', post value m' → Returns k (next value) m' after) :
    Returns k (p >>= next) m after :=
  Program.wp_bind.mpr (Program.wp_mono first rest fun _ stop => stop)

/-- A program whose value is converted. -/
theorem Returns.map (returns : Returns k p m post) (f : α → β) :
    Returns k (p >>= fun value => Pure.pure (f value)) m fun result m' => ∃ value, result = f value ∧ post value m' :=
  returns.bind fun value _ known => Returns.pure ⟨value, rfl, known⟩

/-- A weaker postcondition. -/
theorem Returns.mono (returns : Returns k p m post) (weaker : ∀ value m', post value m' → post' value m') :
    Returns k p m post' := Program.wp_mono returns weaker fun _ stop => stop

/-- What the program leaves. -/
theorem Returns.ok (returns : Returns k p m post) :
    ∃ value m', Program.run (Memory.handler k) p m = .ok (value, m') ∧ post value m' := Program.wp_returns returns

/-- A program that may stop and returns at once. -/
theorem Yields.pure (holds : post value m) : Yields k (Pure.pure value) m post := holds

/-- One program after the other. -/
theorem Yields.bind (first : Yields k p m post) (rest : ∀ value m', post value m' → Yields k (next value) m' after) :
    Yields k (p >>= next) m after :=
  Program.wp_bind.mpr (Program.wp_mono first rest fun _ stop => stop)

/-- A weaker postcondition. -/
theorem Yields.mono (yields : Yields k p m post) (weaker : ∀ value m', post value m' → post' value m') :
    Yields k p m post' := Program.wp_mono yields weaker fun _ stop => stop

/-- A program that always returns. -/
theorem Returns.yields (returns : Returns k p m post) : Yields k p m post :=
  Program.wp_mono returns (fun _ _ holds => holds) fun _ _ => trivial

/-- A program that panics. -/
theorem Yields.panic (message : String) : Yields k (Vm.panic message : Vm α) m post := trivial

/-- Two postconditions. -/
theorem Yields.and (first : Yields k p m post) (second : Yields k p m post') :
    Yields k p m fun value m' => post value m' ∧ post' value m' := by
  unfold Yields Program.wp at *
  cases result : Program.run (Memory.handler k) p m with
  | error reason => trivial
  | ok passed =>
    rw [result] at first second
    exact ⟨first, second⟩

/-- What a program that returned left. -/
theorem Yields.ok (yields : Yields k p m post) (ran : Program.run (Memory.handler k) p m = .ok (value, m')) :
    post value m' := Program.wp_ok yields ran

/-- One operation that is answered. -/
theorem Returns.perform {op : memSignature.Op} {answer : memSignature.Answer op} {m' : Memory}
    {post : memSignature.Answer op → Memory → Prop} (answered : Memory.handler k op m = .ok (answer, m'))
    (holds : post answer m') : Returns k (Program.perform op) m post := by
  unfold Returns Program.wp
  rw [Program.run_perform, answered]
  exact holds

/-- One operation that stops. -/
theorem Yields.stops {op : memSignature.Op} {reason : MemStop} {post : memSignature.Answer op → Memory → Prop}
    (stops : Memory.handler k op m = .error reason) : Yields k (Program.perform op) m post := by
  unfold Yields Program.wp
  rw [Program.run_perform, stops]
  trivial

attribute [irreducible] Returns Yields

/-- `kalloc` takes the first free page, if there is one. -/
theorem Vm.kalloc_returns (k : KernelImage) (m : Memory) : Returns k kalloc m fun r m' =>
    (r = none ∧ m.free = [] ∧ m' = m) ∨ ∃ f rest, r = some f ∧ m.free = f :: rest ∧ m' = { m with free := rest } := by
  cases free : m.free with
  | nil =>
    have done : Memory.handler k .kalloc m = .ok (none, m) := by
      simp only [Memory.handler, free]
    exact Returns.perform done (.inl ⟨rfl, rfl, rfl⟩)
  | cons f rest =>
    have done : Memory.handler k .kalloc m = .ok (some f, { m with free := rest }) := by
      simp only [Memory.handler, free]
    exact Returns.perform done (.inr ⟨f, rest, rfl, rfl, rfl⟩)

/-- A read of a page that is not free. -/
theorem Vm.load_returns (missing : f ∉ m.free) (i : Nat) :
    Returns k (load f i) m fun w m' => w = m.word f i ∧ m' = m := by
  have done : Memory.handler k (.load f i) m = .ok (m.word f i, m) := if_neg missing
  exact Returns.perform done ⟨rfl, rfl⟩

/-- A write to a page that is not free. -/
theorem Vm.store_returns (missing : f ∉ m.free) (i w : Nat) : Returns k (store f i w) m fun _ m' => m' = m.set f i w := by
  have done : Memory.handler k (.store f i w) m = .ok ((), m.set f i w) := if_neg missing
  exact Returns.perform done rfl

/-- Zeros in a page that is not free. -/
theorem Vm.clear_returns (missing : f ∉ m.free) : Returns k (clear f) m fun _ m' => m' = m.setFrame f fun _ => 0 := by
  have done : Memory.handler k (.clear f) m = .ok ((), m.setFrame f fun _ => 0) := if_neg missing
  exact Returns.perform done rfl

/-- A copy of a page that is not free to one that is not free. -/
theorem Vm.copy_returns (source : g ∉ m.free) (missing : f ∉ m.free) :
    Returns k (copy f g) m fun _ m' => m' = m.setFrame f (m.word g) := by
  have done : Memory.handler k (.copy f g) m = .ok ((), m.setFrame f (m.word g)) := (if_neg source).trans (if_neg missing)
  exact Returns.perform done rfl

/-- `kfree` of a page that is not free. -/
theorem Vm.kfree_returns (usable : Memory.usable k f = true) (missing : f ∉ m.free) :
    Returns k (kfree f) m fun _ m' => m' = m.release f := by
  have done : Memory.handler k (.kfree f) m = .ok ((), m.release f) := by
    refine (if_neg ?_).trans (if_neg missing)
    rw [usable]
    exact Bool.true_eq_false.mp
  exact Returns.perform done rfl

/-- `kfree`, unless it panics or the page is free. -/
theorem Vm.kfree_yields (f : Nat) : Yields k (kfree f) m fun _ m' => m' = m.release f := by
  by_cases usable : Memory.usable k f = true
  · by_cases member : f ∈ m.free
    · have stops : Memory.handler k (.kfree f) m = .error (.freedTwice f) :=
        (if_neg fun unusable => Bool.true_eq_false.mp (usable.symm.trans unusable)).trans (if_pos member)
      exact Yields.stops stops
    · exact (Vm.kfree_returns usable member).yields
  · have stops : Memory.handler k (.kfree f) m = .error (.panic "kfree") := if_pos (Bool.not_eq_true _ ▸ usable)
    exact Yields.stops stops

end Programs

/-! ## Page tables -/

/-- Free pages were made page tables of the directory or mapped in it at `new` page numbers, and no
other mapping is another one. -/
structure Extended (d : Nat) (new : Nat → Prop) (m : Memory) (owner : Nat → Owner) (m' : Memory) (owner' : Nat → Owner) :
    Prop where
  owners : ∀ f, owner' f = owner f ∨
    owner f = .free ∧ ((∃ i, owner' f = .table d i) ∨ ∃ pn, new pn ∧ owner' f = .page d pn)
  mapping : ∀ d', owner d' = .dir 0 → ∀ pn < TABLEPAGES, (d' = d → ¬new pn) → m'.mapping d' pn = m.mapping d' pn

/-- No page number. -/
def nowhere (_ : Nat) : Prop := False

section Tables

variable {k : KernelImage} {new new' : Nat → Prop} {m m' m'' : Memory} {owner owner' owner'' : Nat → Owner}
  {d f n va : Nat}

/-- Nothing has happened. -/
theorem Extended.refl (m : Memory) (owner : Nat → Owner) : Extended d new m owner m owner :=
  ⟨fun _ => .inl rfl, fun _ _ _ _ _ => rfl⟩

/-- More page numbers may be new. -/
theorem Extended.mono (extended : Extended d new m owner m' owner') (more : ∀ pn, new pn → new' pn) :
    Extended d new' m owner m' owner' := by
  refine ⟨fun f => ?_, fun d' live pn inside kept => ?_⟩
  · rcases extended.owners f with same | ⟨free, table | ⟨pn, here, page⟩⟩
    · exact .inl same
    · exact .inr ⟨free, .inl table⟩
    · exact .inr ⟨free, .inr ⟨pn, more pn here, page⟩⟩
  · exact extended.mapping d' live pn inside fun own here => kept own (more pn here)

/-- The same pages have an owner outside of the directory. -/
theorem Extended.same (extended : Extended d new m owner m' owner') {o : Owner} (used : o ≠ .free)
    (table : ∀ i, o ≠ .table d i) (page : ∀ pn, o ≠ .page d pn) (f : Nat) : owner' f = o ↔ owner f = o := by
  rcases extended.owners f with same | ⟨free, ⟨i, own⟩ | ⟨pn, _, own⟩⟩
  · rw [same]
  · rw [free, own]
    exact ⟨fun same => absurd same.symm (table i), fun same => absurd same.symm used⟩
  · rw [free, own]
    exact ⟨fun same => absurd same.symm (page pn), fun same => absurd same.symm used⟩

/-- The directories are the same. -/
theorem Extended.dir (extended : Extended d new m owner m' owner') (f n : Nat) : owner' f = .dir n ↔ owner f = .dir n :=
  extended.same (o := .dir n) Owner.noConfusion (fun _ => Owner.noConfusion) (fun _ => Owner.noConfusion) f

/-- The same pages are in hand. -/
theorem Extended.hand (extended : Extended d new m owner m' owner') (f : Nat) : owner' f = .hand ↔ owner f = .hand :=
  extended.same (o := .hand) Owner.noConfusion (fun _ => Owner.noConfusion) (fun _ => Owner.noConfusion) f

/-- Every mapping is the same. -/
theorem Extended.unmoved (extended : Extended d nowhere m owner m' owner') {d' pn : Nat} (live : owner d' = .dir 0)
    (inside : pn < TABLEPAGES) : m'.mapping d' pn = m.mapping d' pn :=
  extended.mapping d' live pn inside fun _ => id

/-- One change after the other. -/
theorem Extended.trans (first : Extended d new m owner m' owner') (second : Extended d new' m' owner' m'' owner'') :
    Extended d (fun pn => new pn ∨ new' pn) m owner m'' owner'' := by
  refine ⟨fun f => ?_, fun d' live pn inside kept => ?_⟩
  · rcases second.owners f with same | ⟨free, became⟩
    · rw [same]
      exact (first.mono fun _ => .inl).owners f
    · have was : owner f = .free := by
        rcases first.owners f with same | ⟨was, _⟩
        · exact same.symm.trans free
        · exact was
      rcases became with table | ⟨pn, here, page⟩
      · exact .inr ⟨was, .inl table⟩
      · exact .inr ⟨was, .inr ⟨pn, .inr here, page⟩⟩
  · rw [second.mapping d' ((first.dir d' 0).mpr live) pn inside fun own late => kept own (.inr late),
      first.mapping d' live pn inside fun own early => kept own (.inl early)]

/-- The index of an address in the directory. -/
theorem PDX_eq (va : Nat) : PDX va = va / PGSIZE / NPDENTRIES := by
  unfold PDX NPDENTRIES PGSIZE
  omega

/-- `walkpgdir` that does not allocate finds the page table, if there is one. -/
theorem walkpgdir_finds (owners : PageOwners k m owner) (live : owner d = .dir 0) (inside : va < 2 ^ 32) :
    Returns k (Vm.walkpgdir d va false) m fun r m' => m' = m ∧
      ((r = none ∧ frameOf (m.word d (PDX va)) = none) ∨ ∃ t, r = some (t, PTX va) ∧ owner t = .table d (PDX va)) := by
  have missing : d ∉ m.free := owners.missing (by rw [live]; exact Owner.noConfusion)
  unfold Vm.walkpgdir
  refine .bind (Vm.load_returns missing _) fun w m' known => ?_
  obtain ⟨rfl, rfl⟩ := known
  cases named : frameOf (m'.word d (PDX va)) with
  | none => exact Returns.pure ⟨rfl, .inl ⟨rfl, rfl⟩⟩
  | some t =>
    refine Returns.pure ⟨rfl, .inr ⟨t, rfl, (owners.table t d _).mpr ⟨?_, 0, live, Nat.zero_le _, named⟩⟩⟩
    unfold PDX NPDENTRIES PGSIZE
    omega

/-- `walkpgdir` that allocates sets up a page table, if there is a page. -/
theorem walkpgdir_allocates (owners : PageOwners k m owner) (live : owner d = .dir 0) (inside : va < 2 ^ 32) :
    Returns k (Vm.walkpgdir d va true) m fun r m' => ∃ owner', PageOwners k m' owner' ∧
      Extended d nowhere m owner m' owner' ∧
      (r = none ∨ ∃ t, r = some (t, PTX va) ∧ owner' t = .table d (PDX va)) := by
  have missing : d ∉ m.free := owners.missing (by rw [live]; exact Owner.noConfusion)
  have low : PDX va < NPDENTRIES := by
    unfold PDX NPDENTRIES PGSIZE
    omega
  unfold Vm.walkpgdir
  refine .bind (Vm.load_returns missing _) fun w m' known => ?_
  obtain ⟨rfl, rfl⟩ := known
  cases named : frameOf (m'.word d (PDX va)) with
  | some t =>
    exact Returns.pure ⟨owner, owners, .refl m' owner,
      .inr ⟨t, rfl, (owners.table t d _).mpr ⟨low, 0, live, Nat.zero_le _, named⟩⟩⟩
  | none =>
    simp only [if_true]
    refine .bind (Vm.kalloc_returns k m') fun r m'' known => ?_
    rcases known with ⟨rfl, _, rfl⟩ | ⟨t, rest, rfl, head, rfl⟩
    · exact Returns.pure ⟨owner, owners, .refl m'' owner, .inl rfl⟩
    · have was : owner t = .free := (owners.free t).mpr (by rw [head]; exact List.mem_cons_self)
      have apart : d ≠ t := by
        rintro rfl
        rw [live] at was
        contradiction
      have taken := owners.take head
      have hand : Function.update owner t .hand t = .hand := Function.update_self ..
      have live' : Function.update owner t .hand d = .dir 0 := by
        rw [Function.update_of_ne apart]
        exact live
      have missing' := taken.missing (by rw [hand]; exact Owner.noConfusion)
      refine .bind (Vm.clear_returns missing') fun _ m'' known => ?_
      subst known
      have zeroed := taken.write hand fun _ => 0
      have empty : ∀ j, (Memory.setFrame { m' with free := rest } t fun _ => 0).word t j = 0 := by
        intro j
        rw [Memory.setFrame_self]
      have absent : frameOf ((Memory.setFrame { m' with free := rest } t fun _ => 0).word d (PDX va)) = none := by
        rw [Memory.setFrame_other apart]
        exact named
      have word := frameOf_pteWord t (PTE_W + PTE_U) (by decide)
      refine .bind (Vm.store_returns (zeroed.missing (by rw [live']; exact Owner.noConfusion)) _ _) fun _ m'' known => ?_
      subst known
      refine Returns.pure ⟨_, zeroed.addTable live' hand empty absent low word, ⟨fun f => ?_, fun d' dir pn within _ => ?_⟩,
        .inr ⟨t, rfl, Function.update_self ..⟩⟩
      · by_cases here : f = t
        · rw [here]
          exact .inr ⟨was, .inl ⟨PDX va, Function.update_self ..⟩⟩
        · rw [Function.update_of_ne here, Function.update_of_ne here]
          exact .inl rfl
      · have other : d' ≠ t := by
          rintro rfl
          rw [dir] at was
          contradiction
        have dir' : Function.update owner t .hand d' = .dir 0 := by
          rw [Function.update_of_ne other]
          exact dir
        rw [zeroed.addTable_mapping live' hand empty absent word dir' within]
        refine owners.mapping_congr dir within ?_ fun t' j table => ?_
        · exact Memory.setFrame_other other
        · refine Memory.setFrame_other ?_
          rintro rfl
          rw [table] at was
          contradiction

/-- The word that `mappages` writes is present. -/
theorem present_pteWord {pa perm : Nat} (aligned : pa % PGSIZE = 0) : present (pteWord pa perm) = true := by
  unfold present pteWord
  unfold PGSIZE at aligned
  rw [beq_iff_eq]
  omega

/-- The entry of a mapping that is absent is not present. -/
theorem PageOwners.absent_entry (owners : PageOwners k m owner) {t pn : Nat} (table : owner t = .table d (pn / NPDENTRIES))
    (absent : m.mapping d pn = none) : present (m.word t (pn % NPDENTRIES)) = false := by
  rw [owners.mapping_table table] at absent
  by_contra here
  rw [if_pos (Bool.not_eq_false _ ▸ here)] at absent
  contradiction

/-- `mappages` of one user page that is absent: it is mapped, or there is no page for its table. -/
theorem mappages_page (owners : PageOwners k m owner) (live : owner d = .dir 0) (hand : owner f = .hand) {pn perm : Nat}
    (user : pn < USERPAGES) (small : perm < PGSIZE) (absent : m.mapping d pn = none) :
    Returns k (Vm.mappages d (pn * PGSIZE) PGSIZE (f * PGSIZE) perm) m fun r m' => ∃ owner', PageOwners k m' owner' ∧
      ((r = false ∧ Extended d nowhere m owner m' owner') ∨
        ∃ m₁ owner₁, r = true ∧ Extended d nowhere m owner m₁ owner₁ ∧ owner' = Function.update owner₁ f (.page d pn) ∧
          ∀ d', owner d' = .dir 0 → ∀ pn' < TABLEPAGES, m'.mapping d' pn' =
            if d' = d ∧ pn' = pn then some (pteWord (f * PGSIZE) perm) else m.mapping d' pn') := by
  have here : pn * PGSIZE / PGSIZE = pn := Nat.mul_div_cancel pn (by decide)
  have last : uint ((pn * PGSIZE : Nat) + PGSIZE - 1) / PGSIZE * PGSIZE = pn * PGSIZE := by
    unfold USERPAGES KERNBASE at user
    unfold uint
    unfold PGSIZE at *
    omega
  have low : pn * PGSIZE < 2 ^ 32 := by
    unfold USERPAGES KERNBASE at user
    unfold PGSIZE at *
    omega
  have inside : pn < TABLEPAGES := by
    unfold USERPAGES KERNBASE PGSIZE at user
    unfold TABLEPAGES NPDENTRIES
    omega
  have index : PDX (pn * PGSIZE) = pn / NPDENTRIES := by rw [PDX_eq, here]
  have column : PTX (pn * PGSIZE) = pn % NPDENTRIES := by
    unfold PTX
    rw [here]
  unfold Vm.mappages
  rw [here, last]
  change Returns k (Vm.mapLoop d (pn * PGSIZE) perm (2 ^ 20 - 1 + 1) (pn * PGSIZE) (f * PGSIZE)) m _
  unfold Vm.mapLoop
  refine .bind (walkpgdir_allocates owners live low) fun r m₁ known => ?_
  obtain ⟨owner₁, owners₁, extended, rfl | ⟨t, rfl, table⟩⟩ := known
  · exact Returns.pure ⟨owner₁, owners₁, .inl ⟨rfl, extended⟩⟩
  · rw [index] at table
    simp only [column]
    have missing := owners₁.missing (f := t) (by rw [table]; exact Owner.noConfusion)
    have absent₁ : m₁.mapping d pn = none := (extended.unmoved live inside).trans absent
    have entry := owners₁.absent_entry table absent₁
    refine .bind (Vm.load_returns missing _) fun w m₂ known => ?_
    obtain ⟨rfl, rfl⟩ := known
    rw [entry]
    refine .bind (Vm.store_returns missing _ _) fun _ m₃ known => ?_
    subst known
    rw [if_pos trivial]
    have hand₁ := (extended.hand f).mpr hand
    have live₁ := (extended.dir d 0).mpr live
    refine Returns.pure ⟨_, owners₁.addPage table user (frameOf_none.mpr entry) hand₁ (frameOf_pteWord f perm small),
      .inr ⟨m₂, owner₁, rfl, extended, rfl, fun d' live' pn' inside' => ?_⟩⟩
    have live₂ := (extended.dir d' 0).mpr live'
    by_cases same : d' = d ∧ pn' = pn
    · rw [if_pos same, same.1, same.2, owners₁.set_mapping_self table live₁,
        if_pos (present_pteWord (Nat.mul_mod_left f PGSIZE))]
    · rw [if_neg same, owners₁.set_mapping table live₂ inside' (not_and_or.mp same),
        extended.unmoved live' inside']

/-- Page numbers from one to another. -/
def PagesBetween (low last pn : Nat) : Prop := low ≤ pn ∧ pn ≤ last

/-- The loop of `mappages` over kernel pages that are absent maps them all or runs out of pages for
page tables. -/
theorem mapLoop_kernel {last perm : Nat} (fuel : Nat) : ∀ {q : Nat} (f : Nat) {m : Memory} {owner : Nat → Owner},
    PageOwners k m owner → owner d = .dir 0 → q ≤ last → last < q + fuel → last < TABLEPAGES → USERPAGES ≤ q →
    (∀ pn, q ≤ pn → pn ≤ last → m.mapping d pn = none) →
    Returns k (Vm.mapLoop d (last * PGSIZE) perm fuel (q * PGSIZE) (f * PGSIZE)) m fun r m' => ∃ owner',
      PageOwners k m' owner' ∧ Extended d (PagesBetween q last) m owner m' owner' ∧
        (r = true → ∀ pn, q ≤ pn → pn ≤ last → (m'.mapping d pn).isSome) := by
  induction fuel with
  | zero =>
    intro q f m owner owners live start enough
    omega
  | succ fuel ih =>
    intro q f m owner owners live start enough inside high absent
    have here : q * PGSIZE / PGSIZE = q := Nat.mul_div_cancel q (by decide)
    have index : PDX (q * PGSIZE) = q / NPDENTRIES := by rw [PDX_eq, here]
    have column : PTX (q * PGSIZE) = q % NPDENTRIES := by
      unfold PTX
      rw [here]
    have low : q * PGSIZE < 2 ^ 32 := by
      unfold TABLEPAGES NPDENTRIES at inside
      unfold PGSIZE
      omega
    unfold Vm.mapLoop
    refine .bind (walkpgdir_allocates owners live low) fun r m₁ known => ?_
    obtain ⟨owner₁, owners₁, extended, rfl | ⟨t, rfl, table⟩⟩ := known
    · exact Returns.pure ⟨owner₁, owners₁, extended.mono fun _ => False.elim, fun wrong => absurd wrong Bool.false_ne_true⟩
    · rw [index] at table
      simp only [column]
      have missing := owners₁.missing (f := t) (by rw [table]; exact Owner.noConfusion)
      have within : q < TABLEPAGES := Nat.lt_of_le_of_lt start inside
      have absent₁ : m₁.mapping d q = none := (extended.unmoved live within).trans (absent q (Nat.le_refl q) start)
      have entry := owners₁.absent_entry table absent₁
      refine .bind (Vm.load_returns missing _) fun w m₂ known => ?_
      obtain ⟨rfl, rfl⟩ := known
      rw [entry]
      refine .bind (Vm.store_returns missing _ _) fun _ m₃ known => ?_
      subst known
      have live₁ := (extended.dir d 0).mpr live
      have owners₂ := owners₁.kernelEntry (w := pteWord (f * PGSIZE) perm) table high
      have mapped : (m₂.set t (q % NPDENTRIES) (pteWord (f * PGSIZE) perm)).mapping d q =
          some (pteWord (f * PGSIZE) perm) := by
        rw [owners₁.set_mapping_self table live₁, if_pos (present_pteWord (Nat.mul_mod_left f PGSIZE))]
      have entered : Extended d (PagesBetween q last) m owner
          (m₂.set t (q % NPDENTRIES) (pteWord (f * PGSIZE) perm)) owner₁ := by
        refine ⟨(extended.mono fun _ => False.elim).owners, fun d' live' pn within' kept => ?_⟩
        have other : d' ≠ d ∨ pn ≠ q := by
          by_contra same
          obtain ⟨own, rfl⟩ : d' = d ∧ pn = q := by omega
          exact kept own ⟨Nat.le_refl _, start⟩
        rw [owners₁.set_mapping table ((extended.dir d' 0).mpr live') within' other, extended.unmoved live' within']
      by_cases done : q = last
      · rw [if_pos (congrArg (· * PGSIZE) done)]
        refine Returns.pure ⟨owner₁, owners₂, entered, fun _ pn from' upto => ?_⟩
        obtain rfl : pn = q := by omega
        rw [mapped]
        rfl
      · have before : q * PGSIZE ≠ last * PGSIZE := by
          unfold PGSIZE
          omega
        have step : uint ((q * PGSIZE : Nat) + PGSIZE) = (q + 1) * PGSIZE := by
          unfold TABLEPAGES NPDENTRIES at inside
          unfold uint PGSIZE
          omega
        have frame : uint ((f * PGSIZE : Nat) + PGSIZE) = (f + 1) % 2 ^ 20 * PGSIZE := by
          unfold uint PGSIZE
          omega
        have absent₂ : ∀ pn, q + 1 ≤ pn → pn ≤ last →
            (m₂.set t (q % NPDENTRIES) (pteWord (f * PGSIZE) perm)).mapping d pn = none := by
          intro pn from' upto
          rw [owners₁.set_mapping table live₁ (Nat.lt_of_le_of_lt upto inside) (.inr (by omega)),
            extended.unmoved live (Nat.lt_of_le_of_lt upto inside)]
          exact absent pn (by omega) upto
        rw [if_neg before, step, frame]
        refine (ih _ owners₂ live₁ (by omega) (by omega) inside (by omega) absent₂).mono fun r m₃ known => ?_
        obtain ⟨owner₃, owners₃, rest, all⟩ := known
        have all' := (entered.trans rest).mono fun pn new => new.elim id fun ⟨from', upto⟩ => ⟨by omega, upto⟩
        refine ⟨owner₃, owners₃, all', fun good pn from' upto => ?_⟩
        by_cases first : pn = q
        · have kept : d = d → ¬PagesBetween (q + 1) last q := fun _ ⟨from', _⟩ => Nat.not_succ_le_self q from'
          rw [first, rest.mapping d live₁ q within kept, mapped]
          rfl
        · exact all good pn (by omega) upto

/-- `mappages` over kernel pages that are absent. -/
theorem mappages_kernel (owners : PageOwners k m owner) (live : owner d = .dir 0) {q last perm size : Nat} (f : Nat)
    (start : q ≤ last) (inside : last < TABLEPAGES) (high : USERPAGES ≤ q)
    (finish : uint ((q * PGSIZE : Nat) + size - 1) / PGSIZE = last)
    (absent : ∀ pn, q ≤ pn → pn ≤ last → m.mapping d pn = none) :
    Returns k (Vm.mappages d (q * PGSIZE) size (f * PGSIZE) perm) m fun r m' => ∃ owner', PageOwners k m' owner' ∧
      Extended d (PagesBetween q last) m owner m' owner' ∧
        (r = true → ∀ pn, q ≤ pn → pn ≤ last → (m'.mapping d pn).isSome) := by
  unfold Vm.mappages
  rw [finish, Nat.mul_div_cancel q (by decide)]
  refine mapLoop_kernel (2 ^ 20) f owners live start ?_ inside high absent
  unfold TABLEPAGES NPDENTRIES at inside
  omega

end Tables

end Xv6
