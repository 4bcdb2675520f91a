import Xv6.Verif.Conservation

/-!
# Reaping a process

`delete_thread` of a master frees the address space and the kernel stack and then calls
`deallocuvm` on the page directory it has just freed. When that call has a page to visit it reads a
free page; otherwise exactly the pages of the process have become free.
-/

namespace Xv6

/-- The page is the page directory, one of its page tables or a user page mapped in it. -/
def Memory.InSpace (m : Memory) (pgdir f : Nat) : Prop :=
  f = pgdir ∨ (∃ i < NPDENTRIES, frameOf (m.word pgdir i) = some f) ∨
    ∃ pn < USERPAGES, ∃ w, m.mapping pgdir pn = some w ∧ w / PGSIZE = f

/-- The memory of a single-threaded process comes back: the code returns, and so has read and written
no free page, and the free list has each page of the process once and nothing else in addition. -/
def Reclaims (k : KernelImage) (m : Memory) (pgdir kstack sz base : Nat) : Prop :=
  ∃ m', Program.run (Memory.handler k) (Vm.deleteThread 1 pgdir kstack sz base) m = .ok ((), m') ∧ m'.free.Nodup ∧
    ∀ f, f ∈ m'.free ↔ f ∈ m.free ∨ f = kstack ∨ m.InSpace pgdir f

section Reaping

variable {k : KernelImage} {m m' : Memory} {owner : Nat → Owner} {pgdir kstack f sz base : Nat}

/-- The pages of an address space are those whose owner is in it. -/
theorem PageOwners.inSpace (owners : PageOwners k m owner) (live : owner pgdir = .dir 0) :
    m.InSpace pgdir f ↔ (owner f).Within pgdir f := by
  unfold Memory.InSpace Owner.Within
  refine or_congr Iff.rfl (or_congr ?_ ?_)
  · constructor
    · rintro ⟨i, low, named⟩
      exact ⟨i, (owners.table f pgdir i).mpr ⟨low, 0, live, Nat.zero_le i, named⟩⟩
    · rintro ⟨i, table⟩
      obtain ⟨low, _, _, _, named⟩ := (owners.table f pgdir i).mp table
      exact ⟨i, low, named⟩
  · constructor
    · rintro ⟨pn, user, w, mapped, rfl⟩
      exact ⟨pn, owners.mapping_page live user mapped⟩
    · rintro ⟨pn, page⟩
      exact ⟨pn, ((owners.page f pgdir pn).mp page).1, owners.page_mapping page⟩

/-- `deallocuvm` with no page to visit does nothing. -/
theorem deallocuvm_idle (idle : sz ≤ max base (PGROUNDUP base)) :
    ∃ r, Program.run (Memory.handler k) (Vm.deallocuvm pgdir sz base) m = .ok (r, m) := by
  unfold Vm.deallocuvm
  by_cases empty : sz ≤ base
  · rw [if_pos empty]
    exact ⟨sz, rfl⟩
  · have start : ¬PGROUNDUP base < sz := by omega
    rw [if_neg empty]
    change ∃ r, Program.run _ (Vm.deallocLoop pgdir sz (2 ^ 20 - 1 + 1) (PGROUNDUP base) >>= _) m = _
    unfold Vm.deallocLoop
    rw [if_neg start]
    exact ⟨base, rfl⟩

/-- `deallocuvm` with a page to visit reads the page directory. -/
theorem deallocuvm_dangling (visits : max base (PGROUNDUP base) < sz) (free : pgdir ∈ m.free) :
    Program.run (Memory.handler k) (Vm.deallocuvm pgdir sz base) m = .error (.dangling pgdir) := by
  have larger : ¬sz ≤ base := by omega
  have start : PGROUNDUP base < sz := by omega
  have denied : Memory.handler k (.load pgdir (PDX (PGROUNDUP base))) m = .error (.dangling pgdir) := if_pos free
  have read : Program.run (Memory.handler k) (Vm.load pgdir (PDX (PGROUNDUP base))) m = .error (.dangling pgdir) :=
    (Program.run_perform _ _).trans denied
  unfold Vm.deallocuvm
  rw [if_neg larger]
  change Program.run _ (Vm.deallocLoop pgdir sz (2 ^ 20 - 1 + 1) (PGROUNDUP base) >>= _) m = _
  unfold Vm.deallocLoop Vm.walkpgdir
  rw [if_pos start]
  exact Program.run_bind_error (Program.run_bind_error (Program.run_bind_error read))

/-- The address space and the kernel stack are freed. -/
theorem reaped_frees (owners : PageOwners k m owner) (live : owner pgdir = .dir 0) (stack : owner kstack = .hand) :
    Returns k (Vm.freevm pgdir >>= fun _ => Vm.kfree kstack) m fun _ m' => m'.free.Nodup ∧ pgdir ∈ m'.free ∧
      ∀ f, f ∈ m'.free ↔ f ∈ m.free ∨ f = kstack ∨ m.InSpace pgdir f := by
  have outside : ¬(owner kstack).Within pgdir kstack := by
    rw [stack]
    rintro (rfl | ⟨i, table⟩ | ⟨pn, page⟩)
    · exact Owner.noConfusion (live.symm.trans stack)
    · exact Owner.noConfusion table
    · exact Owner.noConfusion page
  refine .bind (freevm_frees owners live) fun _ m₁ known => ?_
  obtain ⟨owner₁, owners₁, dismantled⟩ := known
  have hand : owner₁ kstack = .hand := (dismantled.kept kstack outside).trans stack
  have usable := owners₁.usable (f := kstack) (by rw [hand]; exact Owner.noConfusion)
  have missing := owners₁.missing (f := kstack) (by rw [hand]; exact Owner.noConfusion)
  refine (Vm.kfree_returns usable missing).mono fun _ m₂ known => ?_
  subst known
  have free : ∀ f, f ∈ m₁.free ↔ f ∈ m.free ∨ m.InSpace pgdir f := by
    intro f
    rw [owners.inSpace live, ← owners₁.free f, ← owners.free f]
    by_cases within : (owner f).Within pgdir f
    · exact ⟨fun _ => .inr within, fun _ => dismantled.freed f within⟩
    · rw [dismantled.kept f within]
      exact ⟨.inl, fun either => either.resolve_right within⟩
  refine ⟨List.nodup_cons.mpr ⟨missing, owners₁.nodup⟩, List.mem_cons_of_mem _ ((free pgdir).mpr (.inr (.inl rfl))), fun f => ?_⟩
  rw [Memory.release_free, List.mem_cons, free f]
  exact or_left_comm

end Reaping

/-- Reaping a single-threaded process whose image ends below the kernel gives back exactly its pages,
without touching one that is free, if and only if the range of the last `deallocuvm` is empty. A
forked child has base 0, so its image would have to be empty. -/
theorem reaping_conserves_iff {k : KernelImage} {m : Memory} {owner : Nat → Owner} {pgdir kstack sz base : Nat}
    (owners : PageOwners k m owner) (live : owner pgdir = .dir 0) (stack : owner kstack = .hand) :
    Reclaims k m pgdir kstack sz base ↔ sz ≤ max base (PGROUNDUP base) := by
  obtain ⟨_, m₁, ran, nodup, freed, free⟩ := (reaped_frees owners live stack).ok
  have split : Program.run (Memory.handler k) (Vm.deleteThread 1 pgdir kstack sz base) m =
      Program.run (Memory.handler k) (Vm.deallocuvm pgdir sz base >>= fun _ => pure ()) m₁ := by
    obtain ⟨_, m', first, second⟩ := Program.run_bind_eq_ok ran
    unfold Vm.deleteThread
    rw [if_pos rfl, Program.run_bind_ok first, Program.run_bind_ok second]
  unfold Reclaims
  rw [split]
  by_cases idle : sz ≤ max base (PGROUNDUP base)
  · obtain ⟨r, rest⟩ : ∃ r, Program.run (Memory.handler k) (Vm.deallocuvm pgdir sz base) m₁ = .ok (r, m₁) :=
      deallocuvm_idle idle
    exact ⟨fun _ => idle, fun _ => ⟨m₁, Program.run_bind_ok rest, nodup, free⟩⟩
  · have stopped := deallocuvm_dangling (k := k) (Nat.lt_of_not_le idle) freed
    refine ⟨fun ⟨m₂, ended, _⟩ => ?_, fun fits => absurd fits idle⟩
    rw [Program.run_bind_error stopped] at ended
    exact nomatch ended

/-- A process with two pages and a base at their end is reaped well. -/
theorem reaping_conserves_image : ∃ d x, Run (Pool.step smallKernel) freshPool [.setupkvm, .allocuvm d 0 8192] x ∧
    (x.memory.mapping d 1).isSome ∧ Reclaims smallKernel x.memory d 0x1D8 8192 8192 := by
  obtain ⟨d, r, m, m', made, step, _, grows, _⟩ := @freshPool_grows 8192 (by decide)
  have atMost : pagesAtMost (pagesBetween 0 8192) = 3 := by decide
  have needed := pagesNeeded_le m d (pagesBetween 0 8192)
  obtain ⟨f, _, mapped, _⟩ := (grows (by omega)).fresh 1 ((mem_pagesBetween ..).mpr (by decide))
  have run := made.snoc step
  have stock := @blank_stock 200 (by decide)
  obtain ⟨owner, conserved⟩ := Conserved.run run ⟨_, conserved_start stock.nodup stock.usable⟩
  have live := (conserved.dirs d).mpr List.mem_cons_self
  have stack : owner 0x1D8 = .hand := (conserved.hand 0x1D8).mpr ⟨by decide, fun member => by
    have inside := List.mem_range'_1.mp member
    omega⟩
  refine ⟨d, _, run, ?_, (reaping_conserves_iff conserved.owners live stack).mpr (by decide)⟩
  change (m'.mapping d 1).isSome
  rw [mapped]
  rfl

/-- An image of one page: the directory is the page 0x110, the page table at index `i` is the page
`0x200 + i`, the user page is 0x111, and the kernel's tables map physical memory. -/
def smallImage : Memory where
  word f i :=
    if f = 0x110 then (if i = 0 ∨ 512 ≤ i ∧ i < 568 ∨ 1016 ≤ i then pteWord ((0x200 + i) * PGSIZE) (PTE_W + PTE_U) else 0)
    else if f = 0x200 then (if i = 0 then pteWord (0x111 * PGSIZE) (PTE_W + PTE_U) else 0)
    else if 0x400 ≤ f ∧ f < 0x438 then pteWord (((f - 0x400) * NPDENTRIES + i) * PGSIZE) PTE_W
    else if 0x5F8 ≤ f ∧ f < 0x600 then pteWord (((f - 0x200) * NPDENTRIES + i) * PGSIZE) PTE_W
    else 0
  free := [0x120, 0x121]

/-- Reaping a forked child with this image and its kernel stack in the page 0x112 reads the page
directory after it has been freed. -/
theorem reaping_dangles : ¬Reclaims smallKernel smallImage 0x110 0x112 PGSIZE 0 := by
  have stops : (Program.run (Memory.handler smallKernel) (Vm.deleteThread 1 0x110 0x112 PGSIZE 0) smallImage).toOption.isNone =
      true := by
    decide +kernel
  rintro ⟨m', ran, _⟩
  exact Bool.noConfusion (stops.symm.trans (congrArg (fun result => result.toOption.isNone) ran))

end Xv6
