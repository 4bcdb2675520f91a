import Xv6.ThreadCreate
import Xv6.Verif.UserWrites

/-!
# The stack of a new thread

What `threadStack` leaves whenever it returns: a stack over vacant pages, the old pages if there are too
few free ones, or two pages fewer if one of them was there already.
-/

namespace Xv6

section Growth

variable {k : KernelImage} {m m' m₁ : Memory} {d f g pn q w oldsz newsz : Nat} {rest : List Nat}

/-- A loose page stays loose when a page number gets its page table. -/
theorem Provided.loose (provided : Provided k m d pn m') (loose : Loose k m d f)
    (new : ∀ w, m'.mapping d pn = some w → w / PGSIZE ≠ f) : Loose k m' d f := by
  refine ⟨loose.usable, fun member => loose.missing (provided.free f member), loose.dir, fun i index named => ?_, ?_⟩
  · rcases provided.tables i index f named with old | free
    · exact loose.table i index old
    · exact loose.missing free
  · intro q user w mapped
    by_cases here : q = pn
    · subst here
      exact new w mapped
    · rw [provided.mapping q (user_inside user) here] at mapped
      exact loose.page q user w mapped

/-- `mappages` of a page that is there panics. -/
theorem mappages_remap (own : OwnPages k m d) (user : pn < USERPAGES) (mapped : m.mapping d pn = some w) (perm : Nat)
    {post : Bool → Memory → Prop} : Yields k (Vm.mappages d (pn * PGSIZE) PGSIZE (f * PGSIZE) perm) m post := by
  obtain ⟨t, named, entry, shown⟩ := Memory.mapping_some mapped
  have table := own.table _ (user_index user) t named
  rw [mappages_user user]
  unfold Vm.mapLoop Vm.walkpgdir
  rw [Program.bind_assoc]
  refine (Vm.load_returns own.dir _).yields.bind fun pde m₁ known => ?_
  obtain ⟨rfl, rfl⟩ := known
  rw [PDX_page, named, PTX_page]
  refine (Vm.load_returns table.1 _).yields.bind fun pte m₂ known => ?_
  obtain ⟨rfl, rfl⟩ := known
  rw [entry, if_pos shown]
  exact .panic _

/-- Freeing a loose page keeps the tables. -/
theorem Loose.sameTables (loose : Loose k m d f) : SameTables m d (m.release f) :=
  .of_kept loose.dir loose.table fun _ other => Memory.release_other other

/-- Other loose pages stay loose when one is freed. -/
theorem Loose.release (loose : Loose k m d f) (other : Loose k m d g) (apart : g ≠ f) : Loose k (m.release f) d g := by
  refine other.congr ?_ loose.sameTables
  rw [Memory.release_free, List.mem_cons]
  exact fun member => member.elim apart other.missing

/-- Loose pages stay loose when a page is taken and cleared. -/
theorem Loose.beside (loose : Loose k m d g) (head : m.free = f :: rest) (taken : Loose k { m with free := rest } d f) :
    Loose k (Memory.setFrame { m with free := rest } f fun _ => 0) d g ∧ f ≠ g := by
  have missing : g ∉ f :: rest := head ▸ loose.missing
  have same : SameTables m d (Memory.setFrame { m with free := rest } f fun _ => 0) := taken.write _
  exact ⟨loose.congr (fun member => missing (List.mem_cons_of_mem f member)) same,
    fun equal => missing (equal ▸ List.mem_cons_self)⟩

/-- Whatever the loop of `allocuvm` finds, loose pages stay loose. If one of the pages that are left is
mapped already, it can only fail, and all pages of its range are unmapped then. -/
theorem allocLoop_yields {last : Nat} (to_last : last = (newsz + PGSIZE - 1) / PGSIZE) (user : newsz ≤ KERNBASE)
    (own : OwnPages k m d) (stock : Stock k m) (above : (oldsz + PGSIZE - 1) / PGSIZE ≤ q) {fuel : Nat}
    (enough : last ≤ q + fuel) :
    Yields k (Vm.allocLoop d oldsz newsz fuel (q * PGSIZE)) m fun r m' =>
      (∀ g, Loose k m d g → Loose k m' d g) ∧
        ((∃ pn ∈ List.range' q (last - q), m.mapping d pn ≠ none) →
          r = 0 ∧ ∀ pn ∈ pagesBetween oldsz newsz, m'.mapping d pn = none) := by
  have inside : ∀ pn ∈ pagesBetween oldsz newsz, pn < USERPAGES := pagesBetween_user user
  have distinct := pagesBetween_nodup oldsz newsz
  have unmapped : ∀ {m : Memory}, OwnPages k m d → ∀ pn ∈ pagesBetween oldsz newsz,
      ((pagesBetween oldsz newsz).foldl (Memory.unmapPage d) m).mapping d pn = none := by
    intro m own pn member
    rw [own.unmapPages_mapping inside distinct (user_inside (inside pn member)), if_pos member]
  induction fuel generalizing m q with
  | zero =>
    refine Yields.pure ⟨fun _ => id, fun ⟨pn, member, _⟩ => ?_⟩
    rw [List.mem_range'_1] at member
    omega
  | succ fuel ih =>
    unfold Vm.allocLoop
    by_cases below : q * PGSIZE < newsz
    · have here : q < last := by
        rw [to_last]
        unfold PGSIZE at *
        omega
      have page : q ∈ pagesBetween oldsz newsz := by
        rw [mem_pagesBetween]
        unfold PGSIZE at *
        omega
      rw [if_pos below]
      refine (Vm.kalloc_returns k m).yields.bind fun r m₁ known => ?_
      rcases known with ⟨rfl, empty, rfl⟩ | ⟨f, rest, rfl, head, rfl⟩
      · refine (deallocuvm_folds own user).yields.bind fun _ m₂ known => ?_
        obtain ⟨_, rfl⟩ := known
        exact Yields.pure ⟨fun g loose => loose.unmapPages own inside distinct, fun _ => ⟨rfl, unmapped own⟩⟩
      · obtain ⟨own₁, stock₁, taken⟩ := own.take stock head
        have same := taken.write fun _ => 0
        have own₂ : OwnPages k (Memory.setFrame { m with free := rest } f fun _ => 0) d := own₁.congr (fun _ => id) same
        have stock₂ : Stock k (Memory.setFrame { m with free := rest } f fun _ => 0) := ⟨stock₁.nodup, stock₁.usable⟩
        have taken₂ : Loose k (Memory.setFrame { m with free := rest } f fun _ => 0) d f := taken.congr taken.missing same
        have mapping : ∀ pn < USERPAGES,
            (Memory.setFrame { m with free := rest } f fun _ => 0).mapping d pn = m.mapping d pn :=
          fun pn user => same.mapping (user_inside user)
        refine (Vm.clear_returns taken.missing).yields.bind fun _ m₁ known => ?_
        subst known
        cases mapped : m.mapping d q with
        | some w =>
          have never : Yields k (Vm.mappages d (q * PGSIZE) PGSIZE (f * PGSIZE) (PTE_W + PTE_U))
              (Memory.setFrame { m with free := rest } f fun _ => 0) fun _ _ => False :=
            mappages_remap own₂ (inside q page) ((mapping q (inside q page)).trans mapped) _
          exact never.bind fun _ _ impossible => impossible.elim
        | none =>
          refine (mappages_enters own₂ stock₂ taken₂ (inside q page) (by decide)
            ((mapping q (inside q page)).trans mapped)).yields.bind fun r m₂ known => ?_
          rcases known with ⟨rfl, table, empty, rfl⟩ | ⟨rfl, provided, entered⟩
          · refine (deallocuvm_folds own₂ user).yields.bind fun _ m₃ known => ?_
            obtain ⟨_, rfl⟩ := known
            have taken₃ := taken₂.unmapPages own₂ inside distinct
            refine (Vm.kfree_returns taken₃.usable taken₃.missing).yields.bind fun _ m₃ known => ?_
            subst known
            refine Yields.pure ⟨fun g loose => ?_, fun _ => ⟨rfl, fun pn member => ?_⟩⟩
            · obtain ⟨loose₂, apart⟩ := loose.beside head taken
              exact taken₃.release (loose₂.unmapPages own₂ inside distinct) (Ne.symm apart)
            · rw [taken₃.sameTables.mapping (user_inside (inside pn member))]
              exact unmapped own₂ pn member
          · rw [if_pos rfl, next_page (inside q page)]
            refine (ih provided.own provided.stock (by omega) (by omega)).mono fun r m' outcome => ⟨fun g loose => ?_, ?_⟩
            · obtain ⟨loose₂, apart⟩ := loose.beside head taken
              refine outcome.1 g (provided.loose loose₂ fun w found => ?_)
              rw [entered] at found
              cases found
              rw [pteWord_frame f (by decide)]
              exact apart
            · rintro ⟨pn, member, there⟩
              rw [List.mem_range'_1] at member
              have other : pn ≠ q := by
                rintro rfl
                exact there mapped
              have page' : pn ∈ pagesBetween oldsz newsz := by
                rw [mem_pagesBetween]
                unfold PGSIZE at *
                omega
              refine outcome.2 ⟨pn, ?_, ?_⟩
              · rw [List.mem_range'_1]
                omega
              · rw [provided.mapping pn (user_inside (inside pn page')) other, mapping pn (inside pn page')]
                exact there
    · rw [if_neg below]
      refine Yields.pure ⟨fun _ => id, fun ⟨pn, member, _⟩ => ?_⟩
      rw [List.mem_range'_1, to_last] at member
      unfold PGSIZE at *
      omega

/-- Whatever `allocuvm` finds, loose pages stay loose; it fails if one of its pages is mapped already, and
all of them are unmapped then. -/
theorem allocuvm_yields (own : OwnPages k m d) (stock : Stock k m) (larger : oldsz ≤ newsz) (user : newsz < KERNBASE) :
    Yields k (Vm.allocuvm d oldsz newsz) m fun r m' => (∀ g, Loose k m d g → Loose k m' d g) ∧
      ((∃ pn ∈ pagesBetween oldsz newsz, m.mapping d pn ≠ none) →
        r = 0 ∧ ∀ pn ∈ pagesBetween oldsz newsz, m'.mapping d pn = none) := by
  have start : PGROUNDUP oldsz = (oldsz + PGSIZE - 1) / PGSIZE * PGSIZE := by
    unfold PGROUNDUP
    unfold KERNBASE PGSIZE at *
    omega
  have enough : (newsz + PGSIZE - 1) / PGSIZE ≤ (oldsz + PGSIZE - 1) / PGSIZE + 2 ^ 20 := by
    unfold KERNBASE PGSIZE at *
    omega
  unfold Vm.allocuvm
  rw [if_neg (Nat.not_le.mpr user), if_neg (Nat.not_lt.mpr larger), start]
  exact allocLoop_yields rfl (Nat.le_of_lt user) own stock (Nat.le_refl _) enough

end Growth

/-! ## The two pages -/

/-- The memory of a group: the pages of its directory are its own, and the user cannot access the kernel's
part. -/
structure GroupSpace (k : KernelImage) (m : Memory) (d : Nat) : Prop where
  own : OwnPages k m d
  stock : Stock k m
  /-- The kernel's part. -/
  kernel : ∀ pn < TABLEPAGES, USERPAGES ≤ pn → ∀ w, m.mapping d pn = some w → w / PTE_U % 2 = 0

/-- The page numbers of a stack from a base on. -/
def stackPages (base : Nat) : List Nat := pagesBetween base (base + 2 * PGSIZE)

section Stacks

variable {k : KernelImage} {m m' m₁ : Memory} {d base arg pn : Nat}

/-- They are two. -/
theorem mem_stackPages (base pn : Nat) :
    pn ∈ stackPages base ↔ pn = (base + PGSIZE - 1) / PGSIZE ∨ pn = (base + PGSIZE - 1) / PGSIZE + 1 := by
  unfold stackPages
  rw [mem_pagesBetween]
  unfold PGSIZE
  omega

/-- `thread_create` above the end of user memory. -/
theorem threadStack_refused (high : KERNBASE ≤ uint (base + 2 * PGSIZE)) :
    Returns k (Vm.threadStack d base arg) m fun r m' => r.1 = .noMemory ∧ m' = m := by
  have refused : Vm.allocuvm d base (uint (base + 2 * PGSIZE)) = Pure.pure 0 := by
    unfold Vm.allocuvm
    exact if_pos high
  unfold Vm.threadStack
  rw [refused]
  exact Returns.pure ⟨rfl, rfl⟩

/-- `thread_create` where the end of the stack wraps around: `allocuvm` does nothing, and `copyout` cannot
write to the kernel's part. -/
theorem threadStack_wraps (space : GroupSpace k m d) (narrow : base < 2 ^ 32) (wraps : 2 ^ 32 ≤ base + 2 * PGSIZE) :
    Yields k (Vm.threadStack d base arg) m fun r m' => r.1 = .noCopy ∧ m'.free = m.free ∧ m'.word d = m.word d ∧
      ∀ pn < USERPAGES, m'.mapping d pn = m.mapping d pn := by
  have own := space.own
  have low : uint (base + 2 * PGSIZE) < 2 * PGSIZE := by
    unfold uint
    unfold PGSIZE at *
    omega
  have skipped : Vm.allocuvm d base (uint (base + 2 * PGSIZE)) = Pure.pure base := by
    unfold Vm.allocuvm
    unfold PGSIZE at low wraps
    rw [if_neg (by unfold KERNBASE PGSIZE; omega), if_pos (by unfold PGSIZE; omega)]
  have ends : Vm.deallocuvm d (uint (base + 2 * PGSIZE)) base = Pure.pure (uint (base + 2 * PGSIZE)) := by
    unfold Vm.deallocuvm
    unfold PGSIZE at low wraps
    exact if_pos (by unfold PGSIZE; omega)
  have positive : base ≠ 0 := by
    unfold PGSIZE at wraps
    omega
  have guard : uint ((base : Int) - 2 * PGSIZE) = base - 2 * PGSIZE := by
    unfold uint
    unfold PGSIZE at *
    omega
  have top : uint ((base : Int) - 8) = base - 8 := by
    unfold uint
    unfold PGSIZE at wraps
    omega
  unfold Vm.threadStack
  rw [skipped]
  have beyond : ∀ va, 2 ^ 32 - 4 * PGSIZE ≤ va → USERPAGES ≤ va / PGSIZE := by
    intro va above
    unfold USERPAGES KERNBASE
    unfold PGSIZE at *
    omega
  have within : ∀ va, va < 2 ^ 32 → va / PGSIZE < TABLEPAGES := by
    intro va below
    unfold TABLEPAGES NPDENTRIES PGSIZE
    omega
  show Yields k (if base = 0 then _ else _) m _
  rw [if_neg positive, guard, top]
  refine (clearpteu_yields own (within (base - 2 * PGSIZE) (by omega))).bind fun _ m₁ cleared => ?_
  obtain ⟨own₁, free, dir, mapping⟩ := cleared
  have kernel : ∀ w, m₁.mapping d ((base - 8) / PGSIZE) = some w → w / PTE_U % 2 = 0 := by
    intro w mapped
    rw [mapping _ (within (base - 8) (by omega))] at mapped
    split at mapped
    · obtain ⟨old, _, rfl⟩ := Option.map_eq_some_iff.mp mapped
      exact withoutUser_user old
    · refine space.kernel _ (within (base - 8) (by omega)) (beyond _ ?_) w mapped
      unfold PGSIZE at *
      omega
  refine (copyout_yields own₁ (by omega) (List.cons_ne_nil _ _) kernel).bind fun r m₂ known => ?_
  obtain ⟨rfl, rfl⟩ := known
  rw [if_neg (by decide), ends]
  refine Yields.pure ⟨rfl, free, dir, fun pn user => ?_⟩
  have apart : pn ≠ (base - 2 * PGSIZE) / PGSIZE := by
    have above := beyond (base - 2 * PGSIZE) (by unfold PGSIZE at *; omega)
    omega
  rw [mapping pn (user_inside user), if_neg apart]

/-- The stack is user memory, and its end does not wrap around. -/
theorem stack_end (inside : base + 2 * PGSIZE < KERNBASE) : uint (base + 2 * PGSIZE) = base + 2 * PGSIZE := by
  unfold uint
  unfold KERNBASE PGSIZE at *
  omega

/-- `thread_create` over pages one of which is there already: it fails, and both are unmapped. -/
theorem threadStack_taken (own : OwnPages k m d) (stock : Stock k m) (inside : base + 2 * PGSIZE < KERNBASE)
    (there : ∃ pn ∈ stackPages base, m.mapping d pn ≠ none) :
    Yields k (Vm.threadStack d base arg) m fun r m' => r.1 = .noMemory ∧ (∀ g, Loose k m d g → Loose k m' d g) ∧
      ∀ pn ∈ stackPages base, m'.mapping d pn = none := by
  unfold Vm.threadStack
  rw [stack_end inside]
  have grows := @allocuvm_yields k m d base (base + 2 * PGSIZE) own stock (Nat.le_add_right base _) inside
  refine grows.bind fun r m₁ outcome => ?_
  obtain ⟨rfl, gone⟩ := outcome.2 there
  exact Yields.pure ⟨rfl, outcome.1, gone⟩

/-- The word that `allocuvm` writes is one for the user. -/
theorem pteWord_user (f : Nat) : pteWord (f * PGSIZE) (PTE_W + PTE_U) / PTE_U % 2 = 1 := by
  unfold pteWord PGSIZE PTE_W PTE_U
  omega

/-- What `thread_create` over vacant pages maps: two new pages, and the page of the base without `PTE_U`. -/
def Guarded (k : KernelImage) (m : Memory) (d base : Nat) (m' : Memory) : Prop :=
  ∃ m₁, Stretched k m d (stackPages base) m₁ ∧ ∀ q < TABLEPAGES,
    m'.mapping d q = if q = base / PGSIZE then (m₁.mapping d q).map withoutUser else m₁.mapping d q

/-- `thread_create` over vacant pages: it maps the stack if there are enough free pages, and otherwise
fails with the pages as they were. -/
theorem threadStack_vacant (own : OwnPages k m d) (stock : Stock k m) (inside : base + 2 * PGSIZE < KERNBASE)
    (vacant : ∀ pn ∈ stackPages base, m.mapping d pn = none) :
    Yields k (Vm.threadStack d base arg) m fun r m' =>
      pagesNeeded m d (stackPages base) ≤ m.free.length ∧ r = (.mapped, base + 2 * PGSIZE - 8) ∧ Guarded k m d base m' ∨
        m.free.length < pagesNeeded m d (stackPages base) ∧ r.1 = .noMemory ∧ Reverted k m d m' ∧
          ∀ g, Loose k m d g → Loose k m' d g := by
  unfold Vm.threadStack
  rw [stack_end inside]
  have larger : base ≤ base + 2 * PGSIZE := Nat.le_add_right base (2 * PGSIZE)
  have grows := (@allocuvm_exact k m d base (base + 2 * PGSIZE) own stock larger inside vacant).yields
  refine (grows.and (@allocuvm_yields k m d base (base + 2 * PGSIZE) own stock larger inside)).bind fun r m₁ outcome => ?_
  obtain ⟨⟨fits, rfl, stretched⟩ | ⟨short, rfl, reverted⟩, loose, _⟩ := outcome
  · have guard : uint ((base + 2 * PGSIZE : Nat) - 2 * PGSIZE) = base := by
      unfold uint
      unfold KERNBASE PGSIZE at *
      omega
    have top : uint ((base + 2 * PGSIZE : Nat) - 8) = base + 2 * PGSIZE - 8 := by
      unfold uint
      unfold KERNBASE PGSIZE at *
      omega
    rw [if_neg (by unfold PGSIZE; omega), guard, top]
    have within : base / PGSIZE < TABLEPAGES := by
      unfold TABLEPAGES NPDENTRIES
      unfold KERNBASE PGSIZE at *
      omega
    refine (clearpteu_yields stretched.own within).bind fun _ m₂ cleared => ?_
    obtain ⟨own₂, free, dir, mapping⟩ := cleared
    have bytes : (wordBytes 0xffffffff ++ wordBytes arg).length = 8 := rfl
    have touched : ∀ pn, (base + 2 * PGSIZE - 8) / PGSIZE ≤ pn → pn * PGSIZE < base + 2 * PGSIZE - 8 + 8 →
        ∃ w, m₂.mapping d pn = some w ∧ w / PTE_U % 2 ≠ 0 := by
      intro pn above below
      have page : pn ∈ stackPages base := by
        rw [mem_stackPages]
        unfold PGSIZE at *
        omega
      have apart : pn ≠ base / PGSIZE := by
        unfold PGSIZE at *
        omega
      have user : pn < TABLEPAGES := by
        unfold TABLEPAGES NPDENTRIES
        unfold KERNBASE PGSIZE at *
        omega
      obtain ⟨f, _, mapped, _⟩ := stretched.fresh pn page
      refine ⟨_, (mapping pn user).trans ((if_neg apart).trans mapped), ?_⟩
      rw [pteWord_user]
      decide
    have copied : Returns k (Vm.copyout d (base + 2 * PGSIZE - 8) (wordBytes 0xffffffff ++ wordBytes arg)) m₂
        fun r m' => r = true ∧ m'.free = m₂.free ∧ SameTables m₂ d m' := by
      refine copyoutLoop_returns own₂ ?_ ?_ (Nat.le_refl _)
      · rw [bytes]
        unfold PGSIZE at *
        omega
      · rw [bytes]
        exact touched
    refine copied.yields.bind fun r m₃ known => ?_
    obtain ⟨rfl, free', same⟩ := known
    rw [if_pos rfl]
    refine Yields.pure (.inl ⟨Nat.le.intro fits, rfl, m₁, stretched, fun q user => ?_⟩)
    rw [same.mapping user, mapping q user]
  · rw [if_pos rfl]
    exact Yields.pure (.inr ⟨short, rfl, reverted, loose⟩)

end Stacks

end Xv6
