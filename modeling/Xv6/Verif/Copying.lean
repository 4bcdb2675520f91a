import Xv6.Verif.KernelHalf
import Xv6.Verif.Reaping
import Xv6.Verif.Growproc

/-!
# A copied image

`copyuvm` makes a directory with the contents and the permissions of another one. All its pages come
from the free list, so the two images share no page, and what is written through one is not seen through
the other.
-/

namespace Xv6

/-- The words of a page that is mapped. -/
def Memory.contents (m : Memory) (d pn : Nat) : Option (Nat → Nat) := (m.mapping d pn).map fun w => m.word (w / PGSIZE)

/-- A word of a user page is written through the directory: its page number, its index and the word. -/
def Memory.writeUser (d : Nat) (m : Memory) (write : Nat × Nat × Nat) : Memory :=
  match m.mapping d write.1 with
  | some w => if write.1 < USERPAGES then m.set (w / PGSIZE) write.2.1 write.2.2 else m
  | none => m

/-- The two directories have no page in common. -/
def Memory.Apart (m : Memory) (d d' : Nat) : Prop := ∀ f, m.InSpace d f → ¬m.InSpace d' f

section Spaces

variable {k : KernelImage} {m m' : Memory} {d d' f pn w : Nat}

/-- No page of the directory is free. -/
theorem OwnPages.used (own : OwnPages k m d) (within : m.InSpace d f) : f ∉ m.free := by
  rcases within with rfl | ⟨i, index, named⟩ | ⟨pn, user, w, mapped, rfl⟩
  · exact own.dir
  · exact (own.table i index f named).1
  · exact (own.page pn user w mapped).2.1

/-- What is seen through a directory depends on its pages only. -/
theorem Memory.seen (same : ∀ g, m.InSpace d g → m'.word g = m.word g) :
    SameTables m d m' ∧ ∀ pn < USERPAGES, m'.contents d pn = m.contents d pn := by
  have tables : SameTables m d m' := ⟨same d (.inl rfl), fun i index t named => same t (.inr (.inl ⟨i, index, named⟩))⟩
  refine ⟨tables, fun pn user => ?_⟩
  unfold Memory.contents
  rw [tables.mapping (user_inside user)]
  cases mapped : m.mapping d pn with
  | none => rfl
  | some w => exact congrArg some (same _ (.inr (.inr ⟨pn, user, w, mapped, rfl⟩)))

/-- The pages of the directory are the same. -/
theorem SameTables.inSpace (same : SameTables m d m') : m'.InSpace d f ↔ m.InSpace d f := by
  unfold Memory.InSpace
  rw [same.1]
  refine or_congr Iff.rfl (or_congr Iff.rfl ⟨?_, ?_⟩)
  · rintro ⟨pn, user, w, mapped, here⟩
    exact ⟨pn, user, w, (same.mapping (user_inside user)).symm.trans mapped, here⟩
  · rintro ⟨pn, user, w, mapped, here⟩
    exact ⟨pn, user, w, (same.mapping (user_inside user)).trans mapped, here⟩

/-- A write through a directory changes one of its user pages at most. -/
theorem OwnPages.writeUser (own : OwnPages k m d) (write : Nat × Nat × Nat) :
    (m.writeUser d write).free = m.free ∧ SameTables m d (m.writeUser d write) ∧
      ∀ g, ¬m.InSpace d g → (m.writeUser d write).word g = m.word g := by
  have idle : m.free = m.free ∧ SameTables m d m ∧ ∀ g, ¬m.InSpace d g → m.word g = m.word g :=
    ⟨rfl, ⟨rfl, fun _ _ _ _ => rfl⟩, fun _ _ => rfl⟩
  unfold Memory.writeUser
  cases mapped : m.mapping d write.1 with
  | none => exact idle
  | some w =>
    dsimp only
    by_cases user : write.1 < USERPAGES
    · rw [if_pos user]
      obtain ⟨_, _, apart, untabled⟩ := own.page _ user w mapped
      refine ⟨rfl, .of_kept apart untabled fun g other => Memory.set_other other, fun g outside => Memory.set_other ?_⟩
      rintro rfl
      exact outside (.inr (.inr ⟨_, user, w, mapped, rfl⟩))
    · rw [if_neg user]
      exact idle

/-- Writes through one directory are not seen through the other. -/
theorem OwnPages.unseen (own : OwnPages k m d) (apart : m.Apart d d') (writes : List (Nat × Nat × Nat)) :
    ∀ pn < USERPAGES, (writes.foldl (Memory.writeUser d) m).contents d' pn = m.contents d' pn := by
  induction writes generalizing m with
  | nil => exact fun _ _ => rfl
  | cons write rest ih =>
    intro pn user
    obtain ⟨free, same, kept⟩ := own.writeUser write
    have others : ∀ g, m.InSpace d' g → (m.writeUser d write).word g = m.word g := fun g within =>
      kept g fun here => apart g here within
    obtain ⟨same', seen⟩ := Memory.seen others
    have own' : OwnPages k (m.writeUser d write) d := own.congr (fun g member => free ▸ member) same
    have apart' : (m.writeUser d write).Apart d d' := fun f here there =>
      apart f (same.inSpace.mp here) (same'.inSpace.mp there)
    rw [List.foldl_cons, ih own' apart' pn user, seen pn user]

end Spaces

/-! ## The loop -/

/-- The first `q` pages were copied to a directory that was made of free pages. -/
structure Duplicated (k : KernelImage) (m : Memory) (pgdir d q : Nat) (m' : Memory) : Prop where
  /-- The pages of the directory are its own. -/
  own : OwnPages k m' d
  stock : Stock k m'
  /-- The directory and its page tables were free. -/
  tables : d ∈ m.free ∧ ∀ i < NPDENTRIES, ∀ t, frameOf (m'.word d i) = some t → t ∈ m.free
  /-- The pages that are still free. -/
  free : ∀ g, g ∈ m'.free → g ∈ m.free
  kept : ∀ g, g ∉ m.free → m'.word g = m.word g
  /-- The copies. -/
  fresh : ∀ pn < q, ∃ f ∈ m.free, m'.mapping d pn = some (pteWord (f * PGSIZE) (m.flags pgdir pn)) ∧
    m.contents pgdir pn = some (m'.word f)
  /-- No other user page is mapped. -/
  empty : ∀ pn < USERPAGES, q ≤ pn → m'.mapping d pn = none
  /-- The user cannot use the kernel's half. -/
  hidden : ∀ pn < TABLEPAGES, USERPAGES ≤ pn → ∀ w, m'.mapping d pn = some w → w / PTE_U % 2 = 0
  /-- The first page of the kernel. -/
  kernel : (m'.mapping d USERPAGES).isSome

section Copying

variable {k : KernelImage} {m m' m₀ : Memory} {pgdir d f g pn q sz w : Nat} {rest : List Nat}

/-- Before the first page. -/
theorem NewDirectory.duplicated (directory : NewDirectory k m d m') : Duplicated k m pgdir d 0 m' :=
  ⟨directory.own, directory.stock, ⟨directory.dir, directory.tables⟩, directory.free, directory.kept,
    fun pn low => absurd low (Nat.not_lt_zero pn), fun pn user _ => directory.empty pn user, directory.hidden, directory.kernel⟩

/-- A copy of a page, unless one of the two is free and it stops. -/
theorem Vm.copy_yields (f g : Nat) : Yields k (copy f g) m fun _ m' => m' = m.setFrame f (m.word g) := by
  by_cases source : g ∈ m.free
  · have stops : Memory.handler k (.copy f g) m = .error (.dangling g) := if_pos source
    exact Yields.stops stops
  · by_cases target : f ∈ m.free
    · have stops : Memory.handler k (.copy f g) m = .error (.dangling f) := (if_neg source).trans (if_pos target)
      exact Yields.stops stops
    · exact (Vm.copy_returns source target).yields

/-- `mappages` of a page that is mapped panics. -/
theorem mappages_remaps (own : OwnPages k m d) (stock : Stock k m) (mapped : (m.mapping d USERPAGES).isSome) (pa perm : Nat) :
    Yields k (Vm.mappages d (USERPAGES * PGSIZE) PGSIZE pa perm) m fun _ _ => False := by
  have inside : USERPAGES < TABLEPAGES := by decide
  unfold Vm.mappages
  rw [Nat.mul_div_cancel USERPAGES (by decide)]
  change Yields k (Vm.mapLoop d _ perm (2 ^ 20 - 1 + 1) (USERPAGES * PGSIZE) pa) m _
  unfold Vm.mapLoop
  refine (walkpgdir_provides own stock inside).yields.bind fun r m₁ known => ?_
  obtain ⟨w, entry⟩ := Option.isSome_iff_exists.mp mapped
  rcases known with ⟨rfl, missing, _⟩ | ⟨t, rfl, named, provided, same⟩
  · obtain ⟨t, named, _⟩ := Memory.mapping_some entry
    rw [missing] at named
    contradiction
  · have table := provided.own.table _ (table_index inside) t named
    refine (Vm.load_returns table.1 _).yields.bind fun pte m₂ known => ?_
    obtain ⟨rfl, rfl⟩ := known
    obtain ⟨t', named', word, shown⟩ := Memory.mapping_some (same.trans entry)
    rw [named] at named'
    cases named'
    rw [word, shown]
    exact Yields.panic _

/-- The word that maps a copy has the flags of the page that was copied. -/
theorem flags_present (mapped : m.mapping d pn = some w) : m.flags d pn = w % PGSIZE ∧ m.flags d pn % 2 = 1 := by
  obtain ⟨_, _, _, shown⟩ := Memory.mapping_some mapped
  have odd : w % 2 = 1 := by
    unfold present at shown
    exact beq_iff_eq.mp shown
  have flags : m.flags d pn = w % PGSIZE := by
    unfold Memory.flags
    rw [mapped]
    rfl
  refine ⟨flags, ?_⟩
  rw [flags]
  unfold PGSIZE
  omega

/-- One more page was copied. -/
theorem Duplicated.next (duplicated : Duplicated k m₀ pgdir d q m) (user : q < USERPAGES) (head : m.free = f :: rest)
    (contents : m₀.contents pgdir q = some (m.word g)) (provided : Provided k (Memory.setFrame { m with free := rest } f (m.word g)) d q m')
    (mapped : m'.mapping d q = some (pteWord (f * PGSIZE) (m₀.flags pgdir q))) :
    Duplicated k m₀ pgdir d (q + 1) m' := by
  have small : ∀ p, m₀.flags pgdir p < PGSIZE := fun p => Nat.mod_lt _ (by decide)
  obtain ⟨_, _, loose⟩ := duplicated.own.take duplicated.stock head
  have here : f ∈ m.free := by
    rw [head]
    exact List.mem_cons_self
  have within : ∀ h, h ∈ rest → h ∈ m.free := by
    intro h member
    rw [head]
    exact List.mem_cons_of_mem f member
  have same := loose.write (m.word g)
  have word : ∀ h, h ≠ f → (Memory.setFrame { m with free := rest } f (m.word g)).word h = m.word h := fun h other =>
    Memory.setFrame_other other
  have mapping : ∀ p < TABLEPAGES, p ≠ q → m'.mapping d p = m.mapping d p := fun p inside other =>
    (provided.mapping p inside other).trans (same.mapping inside)
  refine ⟨provided.own, provided.stock, ⟨duplicated.tables.1, fun i index t named => ?_⟩,
    fun h member => duplicated.free h (within h (provided.free h member)), fun h used => ?_, fun p low => ?_,
    fun p low above => ?_, fun p inside high w found => ?_, ?_⟩
  · rcases provided.tables i index t named with old | new
    · exact duplicated.tables.2 i index t (same.1 ▸ old)
    · exact duplicated.free t (within t new)
  · have other : h ≠ f := by
      rintro rfl
      exact used (duplicated.free h here)
    have aside : h ≠ d := by
      rintro rfl
      exact used duplicated.tables.1
    rw [provided.kept h (fun member => used (duplicated.free h (within h member))) aside fun i index named => ?_, word h other,
      duplicated.kept h used]
    exact used (duplicated.tables.2 i index h (same.1 ▸ named))
  · by_cases last : p = q
    · refine ⟨f, duplicated.free f here, last ▸ mapped, ?_⟩
      rw [last, contents, provided.kept f loose.missing loose.dir fun i index named => ?_, Memory.setFrame_self]
      exact loose.table i index (same.1 ▸ named)
    · obtain ⟨f', free', mapped', copy⟩ := duplicated.fresh p (by omega)
      have inside := user_inside (Nat.lt_trans (show p < q by omega) user)
      obtain ⟨_, missing, aside, untabled⟩ := duplicated.own.page p (by omega) _ mapped'
      rw [pteWord_frame f' (small p)] at missing aside untabled
      have other : f' ≠ f := by
        rintro rfl
        exact missing here
      refine ⟨f', free', (mapping p inside last).trans mapped', ?_⟩
      rw [copy, provided.kept f' (fun member => missing (within f' member)) aside fun i index named => ?_, word f' other]
      exact untabled i index (same.1 ▸ named)
  · rw [mapping p (user_inside low) (by omega)]
    exact duplicated.empty p low (by omega)
  · rw [mapping p inside (by omega)] at found
    exact duplicated.hidden p inside high w found
  · rw [mapping USERPAGES (by decide) (by omega)]
    exact duplicated.kernel

/-- The source is as it was. -/
theorem Duplicated.source (duplicated : Duplicated k m₀ pgdir d q m) (own₀ : OwnPages k m₀ pgdir) :
    pgdir ∉ m.free ∧ SameTables m₀ pgdir m ∧ ∀ pn < USERPAGES, m.contents pgdir pn = m₀.contents pgdir pn := by
  have seen := Memory.seen fun g within => duplicated.kept g (own₀.used within)
  exact ⟨fun member => own₀.dir (duplicated.free pgdir member), seen⟩

/-- The loop of `copyuvm`, from a state in which the pages before `q` have been copied: if it gets to the
end, every page is a user page and has been copied. It does if there are enough free pages. -/
theorem copyLoop_duplicates (own₀ : OwnPages k m₀ pgdir)
    (image : ∀ pn, pn * PGSIZE < sz → (m₀.mapping pgdir pn).isSome) (fuel : Nat) :
    ∀ {q : Nat} {m : Memory}, Duplicated k m₀ pgdir d q m → q ≤ USERPAGES → (∀ pn < q, pn * PGSIZE < sz) →
    sz ≤ (q + fuel) * PGSIZE →
    Yields k (Vm.copyLoop pgdir d sz fuel (q * PGSIZE)) m fun r m' => (r = true → ∃ last ≤ USERPAGES,
      sz ≤ last * PGSIZE ∧ (∀ pn < last, pn * PGSIZE < sz) ∧ Duplicated k m₀ pgdir d last m') ∧
        (pagesNeeded m d (List.range' q ((sz + PGSIZE - 1) / PGSIZE - q)) ≤ m.free.length → r = true) := by
  induction fuel with
  | zero => exact fun duplicated low before enough => Yields.pure ⟨fun _ => ⟨_, low, enough, before, duplicated⟩, fun _ => rfl⟩
  | succ fuel ih =>
    intro q m duplicated low before enough
    obtain ⟨missing, same, contents⟩ := duplicated.source own₀
    unfold Vm.copyLoop
    by_cases below : q * PGSIZE < sz
    · have inside : q < TABLEPAGES := Nat.lt_of_le_of_lt low (by decide)
      obtain ⟨w, mapped⟩ := Option.isSome_iff_exists.mp (image q below)
      obtain ⟨t, named, word, shown⟩ := Memory.mapping_some ((same.mapping inside).trans mapped)
      have table := own₀.table _ (table_index inside) t (same.1 ▸ named)
      have here : q < (sz + PGSIZE - 1) / PGSIZE := by
        unfold PGSIZE at *
        omega
      rw [if_pos below, range'_first here]
      refine (walkpgdir_reads missing _).yields.bind fun r m₁ known => ?_
      obtain ⟨rfl, rfl⟩ := known
      rw [PDX_page, PTX_page, named]
      dsimp only [Option.map_some]
      refine (Vm.load_returns (fun member => table.1 (duplicated.free t member)) _).yields.bind fun pte m₂ known => ?_
      obtain ⟨rfl, rfl⟩ := known
      rw [word, if_neg (by rw [shown]; exact Bool.true_eq_false.mp)]
      refine (Vm.kalloc_returns k m₂).yields.bind fun r m₃ known => ?_
      rcases known with ⟨rfl, empty, rfl⟩ | ⟨f, rest, rfl, head, rfl⟩
      · refine Yields.pure ⟨fun wrong => absurd wrong Bool.false_ne_true, fun fits => ?_⟩
        unfold pagesNeeded at fits
        rw [empty, List.length_cons, List.length_nil] at fits
        omega
      · have count : m₂.free.length = rest.length + 1 := by rw [head, List.length_cons]
        dsimp only
        refine (Vm.copy_yields f (w / PGSIZE)).bind fun _ m₄ known => ?_
        subst known
        obtain ⟨own₁, stock₁, loose⟩ := duplicated.own.take duplicated.stock head
        have same₁ := loose.write (m₂.word (w / PGSIZE))
        have own₂ : OwnPages k (Memory.setFrame { m₂ with free := rest } f (m₂.word (w / PGSIZE))) d :=
          own₁.congr (fun _ => id) same₁
        have stock₂ : Stock k (Memory.setFrame { m₂ with free := rest } f (m₂.word (w / PGSIZE))) :=
          ⟨stock₁.nodup, stock₁.usable⟩
        by_cases user : q < USERPAGES
        · have loose₂ : Loose k (Memory.setFrame { m₂ with free := rest } f (m₂.word (w / PGSIZE))) d f :=
            loose.congr loose.missing same₁
          have absent : (Memory.setFrame { m₂ with free := rest } f (m₂.word (w / PGSIZE))).mapping d q = none :=
            (same₁.mapping inside).trans (duplicated.empty q user (Nat.le_refl q))
          have small : w % PGSIZE < PGSIZE := Nat.mod_lt w (by decide)
          refine (mappages_enters own₂ stock₂ loose₂ user small absent).yields.bind fun r m₅ known => ?_
          have dir : (Memory.setFrame { m₂ with free := rest } f (m₂.word (w / PGSIZE))).word d = m₂.word d :=
            Memory.setFrame_other (Ne.symm loose.dir)
          rcases known with ⟨rfl, table, empty, _⟩ | ⟨rfl, provided, entered⟩
          · rw [if_neg Bool.false_ne_true]
            refine (Yields.any _ _).bind fun _ _ _ => Yields.pure ⟨fun wrong => absurd wrong Bool.false_ne_true, fun fits => ?_⟩
            have empty' : rest = [] := empty
            rw [dir] at table
            have two := (pagesNeeded_missing table _).trans fits
            rw [count, empty'] at two
            exact absurd two (by decide)
          · rw [if_pos rfl, next_page user]
            have needed : pagesNeeded _ d (q :: List.range' (q + 1) ((sz + PGSIZE - 1) / PGSIZE - (q + 1))) = _ :=
              pagesNeeded_cons provided.missing
            have left : rest.length = m₅.free.length + _ := provided.count
            rw [pagesNeeded_congr dir] at needed
            have copied : m₀.contents pgdir q = some (m₂.word (w / PGSIZE)) := by
              rw [← contents q user, Memory.contents, same.mapping inside, mapped]
              rfl
            rw [← (flags_present mapped).1] at entered
            refine (ih (duplicated.next user head copied provided entered) user (fun pn under => ?_) ?_).mono
              fun r m' known => ⟨known.1, fun fits => known.2 (by omega)⟩
            · by_cases last : pn = q
              · rw [last]
                exact below
              · exact before pn (by omega)
            · rw [Nat.add_right_comm]
              exact enough
        · have final : q = USERPAGES := by omega
          have kernel : ((Memory.setFrame { m₂ with free := rest } f (m₂.word (w / PGSIZE))).mapping d USERPAGES).isSome := by
            rw [same₁.mapping (by decide)]
            exact duplicated.kernel
          rw [final]
          exact (mappages_remaps own₂ stock₂ kernel _ _).bind fun _ _ wrong => wrong.elim
    · rw [if_neg below]
      exact Yields.pure ⟨fun _ => ⟨q, low, Nat.le_of_not_lt below, before, duplicated⟩, fun _ => rfl⟩

end Copying

/-! ## `copyuvm` -/

/-- The directory has a copy of the image of another one, in pages that were free. -/
structure ForkedImage (k : KernelImage) (m : Memory) (pgdir sz d : Nat) (m' : Memory) : Prop where
  /-- The pages of the image, with their permissions. -/
  copied : ∀ pn, pn * PGSIZE < PGROUNDUP sz → (m'.mapping d pn).isSome ∧ m'.flags d pn = m.flags pgdir pn ∧
    m'.contents d pn = m.contents pgdir pn
  /-- No other user page is mapped. -/
  only : ∀ pn < USERPAGES, PGROUNDUP sz ≤ pn * PGSIZE → m'.mapping d pn = none
  /-- The user cannot use the kernel's half. -/
  hidden : ∀ pn < TABLEPAGES, USERPAGES ≤ pn → ∀ w, m'.mapping d pn = some w → w / PTE_U % 2 = 0
  /-- Its page tables and user pages are distinct pages. -/
  own : OwnPages k m' d
  /-- They were free, and the copied directory still has none of them. -/
  apart : m'.Apart d pgdir ∧ ∀ f, m'.InSpace d f → f ∈ m.free
  /-- The copied image is as it was. -/
  source : SameTables m pgdir m' ∧ ∀ pn < USERPAGES, m'.contents pgdir pn = m.contents pgdir pn
  /-- What is written through the copied directory is not seen through the new one. -/
  fromParent : ∀ writes : List (Nat × Nat × Nat), ∀ pn < USERPAGES,
    (writes.foldl (Memory.writeUser pgdir) m').contents d pn = m'.contents d pn
  /-- What is written through the new directory is not seen through the copied one. -/
  fromChild : ∀ writes : List (Nat × Nat × Nat), ∀ pn < USERPAGES,
    (writes.foldl (Memory.writeUser d) m').contents pgdir pn = m'.contents pgdir pn

section Forking

variable {k : KernelImage} {m m' : Memory} {pgdir d last sz : Nat}

/-- What has been copied when the loop is done. -/
theorem Duplicated.forked (duplicated : Duplicated k m pgdir d last m') (own : OwnPages k m pgdir) (low : last ≤ USERPAGES)
    (enough : sz ≤ last * PGSIZE) (before : ∀ pn < last, pn * PGSIZE < sz) : ForkedImage k m pgdir sz d m' := by
  obtain ⟨missing, same, contents⟩ := duplicated.source own
  have rounded : PGROUNDUP sz = last * PGSIZE := by
    have least : last = 0 ∨ (last - 1) * PGSIZE < sz := by
      by_cases some_page : last = 0
      · exact .inl some_page
      · exact .inr (before (last - 1) (by omega))
    unfold USERPAGES KERNBASE at low
    unfold PGROUNDUP
    unfold PGSIZE at *
    omega
  have fresh : ∀ f, m'.InSpace d f → f ∈ m.free := by
    rintro f (rfl | ⟨i, index, named⟩ | ⟨pn, user, w, mapped, rfl⟩)
    · exact duplicated.tables.1
    · exact duplicated.tables.2 i index f named
    · by_cases copied : pn < last
      · obtain ⟨f, free, entered, _⟩ := duplicated.fresh pn copied
        rw [mapped] at entered
        cases entered
        have small : m.flags pgdir pn < PGSIZE := Nat.mod_lt _ (by decide)
        rw [pteWord_frame f small]
        exact free
      · rw [duplicated.empty pn user (Nat.le_of_not_lt copied)] at mapped
        contradiction
  have apart : m'.Apart d pgdir := fun f here there => own.used (same.inSpace.mp there) (fresh f here)
  have own' : OwnPages k m' pgdir := own.congr duplicated.free same
  refine ⟨fun pn under => ?_, fun pn user above => ?_, duplicated.hidden, duplicated.own, ⟨apart, fresh⟩, ⟨same, contents⟩,
    own'.unseen fun f there here => apart f here there, duplicated.own.unseen apart⟩
  · have within : pn < last := by
      rw [rounded] at under
      exact Nat.lt_of_mul_lt_mul_right under
    obtain ⟨f, _, entered, copy⟩ := duplicated.fresh pn within
    obtain ⟨w, mapped, _⟩ := Option.map_eq_some_iff.mp copy
    have odd := (flags_present mapped).2
    have small : m.flags pgdir pn < PGSIZE := Nat.mod_lt _ (by decide)
    refine ⟨?_, ?_, ?_⟩
    · rw [entered]
      rfl
    · unfold Memory.flags at odd small ⊢
      rw [entered]
      show pteWord (f * PGSIZE) ((m.mapping pgdir pn).getD 0 % PGSIZE) % PGSIZE = _
      generalize (m.mapping pgdir pn).getD 0 % PGSIZE = flags at odd small
      unfold pteWord
      unfold PGSIZE at *
      omega
    · rw [copy, Memory.contents, entered, Option.map_some, pteWord_frame f small]
  · refine duplicated.empty pn user ?_
    rw [rounded] at above
    exact Nat.le_of_mul_le_mul_right above (by decide)

/-- `copyuvm` of a directory whose pages below `sz` are present: if it succeeds it has copied the image,
and it does with 65 free pages for the kernel's half, one for each page and one for each page table. -/
theorem copyuvm_duplicates (own : OwnPages k m pgdir) (stock : Stock k m) (bound : sz < 2 ^ 32)
    (image : ∀ pn, pn * PGSIZE < sz → (m.mapping pgdir pn).isSome) :
    Yields k (Vm.copyuvm k pgdir sz) m fun r m' => (∀ d, r = some d → ForkedImage k m pgdir sz d m') ∧
      (65 + pagesAtMost (List.range' 0 ((sz + PGSIZE - 1) / PGSIZE)) ≤ m.free.length → r ≠ none) := by
  unfold Vm.copyuvm
  refine (setupkvm_yields stock).bind fun r m₁ known => ?_
  obtain ⟨_, directory, succeeds⟩ := known
  cases r with
  | none => exact Yields.pure ⟨nofun, fun fits => succeeds (by omega)⟩
  | some d =>
    have started : Duplicated k m pgdir d 0 m₁ := (directory d rfl).duplicated
    have taken := (directory d rfl).taken
    have enough : sz ≤ (0 + 2 ^ 20) * PGSIZE := by
      unfold PGSIZE
      omega
    have copies := copyLoop_duplicates own image (2 ^ 20) started (Nat.zero_le _)
      (fun pn low => absurd low (Nat.not_lt_zero pn)) enough
    have most := pagesNeeded_le m₁ d (List.range' 0 ((sz + PGSIZE - 1) / PGSIZE))
    rw [Nat.zero_mul, Nat.sub_zero] at copies
    dsimp only
    refine copies.bind fun r m₂ known₂ => ?_
    cases r with
    | false =>
      refine (Yields.any _ _).bind fun _ _ _ => Yields.pure ⟨nofun, fun fits => ?_⟩
      exact absurd (known₂.2 (by omega)) Bool.false_ne_true
    | true =>
      obtain ⟨last, low, covered, before, duplicated⟩ := known₂.1 rfl
      refine Yields.pure ⟨fun d' same => ?_, fun _ => Option.some_ne_none d⟩
      cases same
      exact duplicated.forked own low covered before

/-- `copyuvm` of a directory whose pages below `sz` are present copies the image, if it succeeds. -/
theorem copyuvm_forks (own : OwnPages k m pgdir) (stock : Stock k m) (bound : sz < 2 ^ 32)
    (image : ∀ pn, pn * PGSIZE < sz → (m.mapping pgdir pn).isSome) :
    Yields k (Vm.copyuvm k pgdir sz) m fun r m' => ∀ d, r = some d → ForkedImage k m pgdir sz d m' :=
  (copyuvm_duplicates own stock bound image).mono fun _ _ known => known.1

end Forking

/-- An image of two pages that was made of 200 free pages is copied. -/
theorem copyuvm_forks_two : ∃ pgdir m₁ m d m',
    Program.run (Memory.handler smallKernel) (Vm.setupkvm smallKernel) (blank (List.range' 0x110 200)) = .ok (some pgdir, m₁) ∧
      Program.run (Memory.handler smallKernel) (Vm.allocuvm pgdir 0 8192) m₁ = .ok (8192, m) ∧
      Program.run (Memory.handler smallKernel) (Vm.copyuvm smallKernel pgdir 8192) m = .ok (some d, m') ∧
        ForkedImage smallKernel m pgdir 8192 d m' := by
  have atMost : pagesAtMost (pagesBetween 0 8192) = 3 := by decide
  have length : (blank (List.range' 0x110 200)).free.length = 200 := List.length_range'
  obtain ⟨pgdir, m₁, m, owner, made, grown, owners, live, mapped, left⟩ :=
    @image_built smallKernel _ 8192 (@blank_stock 200 (by decide)) (by decide) (by rw [atMost, length]; decide)
  have image : ∀ pn, pn * PGSIZE < 8192 → (m.mapping pgdir pn).isSome := by
    intro pn below
    have user : pn < USERPAGES := by
      unfold PGSIZE at below
      unfold USERPAGES KERNBASE PGSIZE
      omega
    exact (mapped pn user).mpr below
  have own := owners.ownPages live
  obtain ⟨r, m', ran, _⟩ := (copyuvm_copies owners live (by decide) fun pn here => image pn here.2).ok
  have enough : 65 + pagesAtMost (List.range' 0 ((8192 + PGSIZE - 1) / PGSIZE)) ≤ m.free.length := by
    rw [atMost, length] at left
    show 65 + 3 ≤ m.free.length
    omega
  obtain ⟨d, rfl⟩ := Option.ne_none_iff_exists'.mp
    (((copyuvm_duplicates own owners.stock (by decide) image).ok ran).2 enough)
  exact ⟨pgdir, m₁, m, d, m', made, grown, ran, (copyuvm_forks own owners.stock (by decide) image).ok ran d rfl⟩

end Xv6
