import Xv6.Kalloc
import Xv6.Lib.Chain
import Xv6.Verif.Conservation
import Xv6.Verif.NewPages

/-!
# Free pages

The list that `kalloc` and `kfree` thread through the free pages is the list of free pages of the
memory operations: a kernel program that touches no free page returns the same, and leaves the same
words, on the memory as it is. After `kinit1` and `kinit2` every whole page from the end of the
kernel to the top of memory is on the list once, except those that `main` took in between.
-/

namespace Xv6

variable {k : KernelImage} {r : PhysicalMemory} {m : Memory} {f g v : Nat}

/-! ## Addresses of pages -/

/-- The kernel address of a page. -/
def pageAddress (frame : Nat) : Nat := P2V (frame * PGSIZE)

/-- The address of a page that can be freed. -/
theorem pageAddress_eq (usable : Memory.usable k f = true) : pageAddress f = KERNBASE + f * PGSIZE := by
  obtain ⟨_, below⟩ := of_decide_eq_true usable
  unfold PHYSTOP PGSIZE at below
  unfold pageAddress P2V uint KERNBASE PGSIZE
  omega

/-- A page that can be freed is the page at its address. -/
theorem frame_pageAddress (usable : Memory.usable k f = true) : V2P (pageAddress f) / PGSIZE = f := by
  rw [pageAddress_eq usable]
  obtain ⟨_, below⟩ := of_decide_eq_true usable
  unfold PHYSTOP PGSIZE at below
  unfold V2P uint KERNBASE PGSIZE
  omega

/-- The address of a page that can be freed is no null pointer. -/
theorem pageAddress_ne (usable : Memory.usable k f = true) : pageAddress f ≠ 0 := by
  rw [pageAddress_eq usable]
  unfold KERNBASE
  omega

/-- `kfree` accepts the address of a page that can be freed. -/
theorem refuses_pageAddress (usable : Memory.usable k f = true) :
    PhysicalMemory.refuses k (pageAddress f) = false := by
  obtain ⟨above, below⟩ := of_decide_eq_true usable
  have last := k.last_low
  rw [pageAddress_eq usable]
  unfold PhysicalMemory.refuses
  rw [decide_eq_false_iff_not]
  unfold PHYSTOP PGSIZE at *
  unfold V2P P2V uint KERNBASE
  omega

/-! ## The list in memory -/

/-- A pointer that may be null. -/
def pointer (v : Nat) : Option Nat := if v = 0 then none else some v

/-- `r->next`. -/
def nextRun (word : Nat → Nat → Nat) (v : Nat) : Option Nat := pointer (word (V2P v / PGSIZE) 0)

/-- The list in memory is the list of free pages. -/
structure FreeList (k : KernelImage) (r : PhysicalMemory) (m : Memory) : Prop where
  words : r.word = m.word
  /-- From `kmem.freelist` the pointers lead through the free pages. -/
  chain : Chain.Visits (nextRun r.word) (pointer r.freelist) (m.free.map pageAddress)
  /-- The free pages can be freed again, and each is on the list once. -/
  stock : Stock k m

/-- A page that is not free is written. -/
theorem FreeList.write (freelist : FreeList k r m) (taken : f ∉ m.free) (words : Nat → Nat) :
    FreeList k (r.setFrame f words) (m.setFrame f words) := by
  refine ⟨?_, ?_, ⟨freelist.stock.nodup, freelist.stock.usable⟩⟩
  · change Function.update r.word f words = Function.update m.word f words
    rw [freelist.words]
  · refine freelist.chain.congr fun v member => ?_
    obtain ⟨g, free, address⟩ := List.mem_map.mp member
    have other : g ≠ f := by
      intro same
      rw [same] at free
      exact taken free
    rw [← address]
    unfold nextRun
    rw [frame_pageAddress (freelist.stock.usable g free)]
    change pointer (Function.update r.word f words g 0) = _
    rw [Function.update_of_ne other]

/-- `kmem.freelist` is 0 where there is no free page. -/
theorem FreeList.empty (freelist : FreeList k r m) (none : m.free = []) : r.freelist = 0 := by
  have chain := freelist.chain
  rw [none] at chain
  by_contra some
  have found : pointer r.freelist = Option.some r.freelist := if_neg some
  rw [show pointer r.freelist = Option.none from chain] at found
  contradiction

/-- `kmem.freelist` is the address of the first free page. -/
theorem FreeList.head (freelist : FreeList k r m) {rest : List Nat} (free : m.free = f :: rest) :
    r.freelist = pageAddress f := by
  have chain := freelist.chain
  rw [free] at chain
  have first : pointer r.freelist = some (pageAddress f) := chain.1
  unfold pointer at first
  split_ifs at first
  exact Option.some.inj first

/-- A page is taken off the list. -/
theorem FreeList.take (freelist : FreeList k r m) {rest : List Nat} (free : m.free = f :: rest) :
    FreeList k { r with freelist := r.word f 0 } { m with free := rest } := by
  have chain := freelist.chain
  rw [free] at chain
  have nodup := freelist.stock.nodup
  rw [free] at nodup
  have usable : Memory.usable k f = true := by
    refine freelist.stock.usable f ?_
    rw [free]
    exact List.mem_cons_self
  have rest' : Chain.Visits (nextRun r.word) (nextRun r.word (pageAddress f)) (rest.map pageAddress) := chain.2
  unfold nextRun at rest'
  rw [frame_pageAddress usable] at rest'
  refine ⟨freelist.words, rest', ⟨(List.nodup_cons.mp nodup).2, ?_⟩⟩
  intro g member
  refine freelist.stock.usable g ?_
  rw [free]
  exact List.mem_cons_of_mem f member

/-- `r->next` of a page that is put on the list. -/
theorem FreeList.next (freelist : FreeList k r m) : m.next = r.freelist := by
  unfold Memory.next
  cases free : m.free with
  | nil => exact (freelist.empty free).symm
  | cons g rest =>
    have usable : Memory.usable k g = true := by
      refine freelist.stock.usable g ?_
      rw [free]
      exact List.mem_cons_self
    rw [freelist.head free, pageAddress_eq usable]

/-- A page is put on the list. -/
theorem FreeList.give (freelist : FreeList k r m) (usable : Memory.usable k f = true) (taken : f ∉ m.free) :
    ∃ r', r.kfree k (pageAddress f) = .ok r' ∧ FreeList k r' (m.release f) := by
  have filled := freelist.write taken fun i => if i = 0 then m.next else 0x01010101
  have words : Function.update (fun _ => 0x01010101) 0 r.freelist = fun i => if i = 0 then m.next else 0x01010101 := by
    funext i
    rw [freelist.next, Function.update_apply]
  refine ⟨{ r.setFrame f (fun i => if i = 0 then m.next else 0x01010101) with freelist := pageAddress f }, ?_, ?_⟩
  · unfold PhysicalMemory.kfree
    rw [if_neg (by rw [refuses_pageAddress usable]; exact Bool.false_ne_true), frame_pageAddress usable]
    unfold PhysicalMemory.set PhysicalMemory.setFrame
    dsimp only
    rw [Function.update_self, Function.update_idem, words]
  · refine ⟨filled.words, ⟨if_neg (pageAddress_ne usable), ?_⟩, ⟨List.nodup_cons.mpr ⟨taken, freelist.stock.nodup⟩, ?_⟩⟩
    · have chain := filled.chain
      unfold nextRun
      rw [frame_pageAddress usable]
      change Chain.Visits _ (pointer (Function.update r.word f _ f 0)) _
      rw [Function.update_self, if_pos rfl, freelist.next]
      rw [freelist.next] at chain
      exact chain
    · intro g member
      rcases List.mem_cons.mp member with same | member
      · rw [same]
        exact usable
      · exact freelist.stock.usable g member

/-! ## Programs -/

/-- An operation that returns on the memory with a list of free pages returns the same on the memory
as it is. -/
theorem FreeList.simulates (freelist : FreeList k r m) (op : memSignature.Op) (answer : memSignature.Answer op)
    {m' : Memory} (answered : Memory.handler k op m = .ok (answer, m')) :
    ∃ r', PhysicalMemory.handler k op r = .ok (answer, r') ∧ FreeList k r' m' := by
  cases op with
  | kalloc =>
    cases free : m.free with
    | nil =>
      simp only [Memory.handler, free] at answered
      cases answered
      refine ⟨r, ?_, freelist⟩
      simp only [PhysicalMemory.handler, PhysicalMemory.kalloc, freelist.empty free]
      rfl
    | cons f rest =>
      simp only [Memory.handler, free] at answered
      cases answered
      have usable : Memory.usable k f = true := by
        refine freelist.stock.usable f ?_
        rw [free]
        exact List.mem_cons_self
      refine ⟨_, ?_, freelist.take free⟩
      have taken := frame_pageAddress usable
      simp only [PhysicalMemory.handler, PhysicalMemory.kalloc, freelist.head free, ne_eq, pageAddress_ne usable,
        not_false_eq_true, if_true, taken]
      rfl
  | kfree f =>
    simp only [Memory.handler] at answered
    split_ifs at answered with unusable free
    cases answered
    have usable : Memory.usable k f = true := by
      cases possible : Memory.usable k f with
      | true => rfl
      | false => exact absurd possible unusable
    obtain ⟨r', freed, freelist'⟩ := freelist.give usable free
    refine ⟨r', ?_, freelist'⟩
    have acts : PhysicalMemory.handler k (.kfree f) r = (r.kfree k (pageAddress f)).map fun r => ((), r) := rfl
    rw [acts, freed]
    rfl
  | load f i =>
    simp only [Memory.handler, Memory.access] at answered
    split_ifs at answered with free
    cases answered
    refine ⟨r, ?_, freelist⟩
    rw [← freelist.words]
    rfl
  | store f i w =>
    simp only [Memory.handler, Memory.access] at answered
    split_ifs at answered with free
    cases answered
    refine ⟨_, rfl, ?_⟩
    change FreeList k (r.setFrame f (Function.update (r.word f) i w)) _
    rw [freelist.words]
    exact freelist.write free _
  | clear f =>
    simp only [Memory.handler, Memory.access] at answered
    split_ifs at answered with free
    cases answered
    exact ⟨_, rfl, freelist.write free fun _ => 0⟩
  | copy dst src =>
    simp only [Memory.handler, Memory.access] at answered
    split_ifs at answered with source free
    cases answered
    refine ⟨_, rfl, ?_⟩
    rw [freelist.words]
    exact freelist.write free _

/-- A program that returns on the memory with a list of free pages returns the same on the memory
as it is. -/
theorem FreeList.runs (freelist : FreeList k r m) {α : Type} (p : Vm α) {value : α} {m' : Memory}
    (returned : p.run (Memory.handler k) m = .ok (value, m')) :
    ∃ r', p.run (PhysicalMemory.handler k) r = .ok (value, r') ∧ FreeList k r' m' := by
  have steps : ∀ op m r answer m', FreeList k r m → Memory.handler k op m = .ok (answer, m') →
      (∃ r', PhysicalMemory.handler k op r = .ok (answer, r') ∧ FreeList k r' m') ∨
        ∃ reason, PhysicalMemory.handler k op r = .error reason ∧ False :=
    fun op m r answer m' freelist answered => .inl (freelist.simulates op answer answered)
  have simulated := Program.run_simulates (fun m r => FreeList k r m) (fun _ => False) steps p freelist returned
  rcases simulated with found | ⟨_, _, never⟩
  · exact found
  · exact never.elim

/-! ## The pages at the start -/

/-- The loop of `freerange` puts every page of its range on the list. -/
theorem Vm.freeLoop_returns {q e fuel : Nat} (enough : e - q ≤ fuel) (top : e * PGSIZE ≤ PHYSTOP)
    (above : k.last ≤ q * PGSIZE) (apart : ∀ f ∈ m.free, f < q ∨ e ≤ f) :
    Returns k (freeLoop (KERNBASE + e * PGSIZE) fuel (KERNBASE + q * PGSIZE)) m fun _ m' =>
      m'.free = (List.range' q (e - q)).reverse ++ m.free := by
  induction fuel generalizing q m with
  | zero =>
    have none : e - q = 0 := by omega
    refine Returns.pure ?_
    rw [none]
    rfl
  | succ fuel ih =>
    unfold freeLoop
    by_cases more : q < e
    · have inside : KERNBASE + q * PGSIZE + PGSIZE ≤ KERNBASE + e * PGSIZE := by
        unfold PGSIZE
        omega
      have usable : Memory.usable k q = true := by
        unfold Memory.usable
        rw [decide_eq_true_iff]
        unfold PGSIZE at *
        omega
      have missing : q ∉ m.free := fun free => by
        rcases apart q free with below | beyond
        · omega
        · omega
      have following : KERNBASE + q * PGSIZE + PGSIZE = KERNBASE + (q + 1) * PGSIZE := by
        unfold PGSIZE
        omega
      rw [if_pos inside, ← pageAddress_eq usable, frame_pageAddress usable, pageAddress_eq usable, following]
      refine .bind (Vm.kfree_returns usable missing) fun _ m₁ freed => ?_
      subst freed
      have above' : k.last ≤ (q + 1) * PGSIZE := by
        rw [Nat.add_mul]
        omega
      have apart' : ∀ f ∈ (m.release q).free, f < q + 1 ∨ e ≤ f := by
        intro f free
        rcases List.mem_cons.mp free with same | free
        · omega
        · rcases apart f free with below | beyond
          · omega
          · omega
      have rest := ih (by omega) above' apart'
      refine rest.mono fun _ m' free => ?_
      have count : e - q = e - (q + 1) + 1 := by omega
      have given : (m.release q).free = q :: m.free := rfl
      rw [free, given, count, List.range'_succ, List.reverse_cons, List.append_assoc, List.singleton_append]
    · have outside : ¬KERNBASE + q * PGSIZE + PGSIZE ≤ KERNBASE + e * PGSIZE := by
        unfold PGSIZE
        omega
      have none : e - q = 0 := by omega
      rw [if_neg outside]
      refine Returns.pure ?_
      rw [none]
      rfl

/-- `kinit1` puts the pages up to `KINIT1END` on the list. -/
theorem Vm.kinit1_returns (low : k.last ≤ KINIT1END) (words : Nat → Nat → Nat) :
    Returns k (kinit1 k) ⟨words, []⟩ fun _ m => ∀ f, f ∈ m.free ↔ k.last ≤ f * PGSIZE ∧ f * PGSIZE < KINIT1END := by
  have start : PGROUNDUP (P2V k.last) = KERNBASE + (k.last + PGSIZE - 1) / PGSIZE * PGSIZE := by
    unfold KINIT1END at low
    unfold PGROUNDUP P2V uint KERNBASE PGSIZE
    omega
  have stop : P2V KINIT1END = KERNBASE + 1024 * PGSIZE := by decide
  unfold kinit1 freerange
  rw [start, stop]
  refine (Vm.freeLoop_returns (q := (k.last + PGSIZE - 1) / PGSIZE) (e := 1024) (by unfold PGSIZE; omega)
    (by decide) ?_ ?_).mono
    fun _ m free f => ?_
  · unfold PGSIZE
    omega
  · intro f free
    cases free
  · rw [free, List.append_nil, List.mem_reverse, List.mem_range'_1]
    unfold KINIT1END PGSIZE at *
    omega

/-- `kinit2` puts the pages from `KINIT1END` on the list. -/
theorem Vm.kinit2_returns (low : k.last ≤ KINIT1END) (apart : ∀ f ∈ m.free, f * PGSIZE < KINIT1END) :
    Returns k kinit2 m fun _ m' =>
      ∀ f, f ∈ m'.free ↔ f ∈ m.free ∨ KINIT1END ≤ f * PGSIZE ∧ f * PGSIZE < PHYSTOP := by
  have start : PGROUNDUP (P2V KINIT1END) = KERNBASE + 1024 * PGSIZE := by decide
  have stop : P2V PHYSTOP = KERNBASE + 57344 * PGSIZE := by decide
  unfold kinit2 freerange
  rw [start, stop]
  refine (Vm.freeLoop_returns (q := 1024) (e := 57344) (by omega) (by decide) low ?_).mono fun _ m' free f => ?_
  · intro f free
    have below := apart f free
    unfold KINIT1END PGSIZE at below
    omega
  · have placed : f ∈ List.range' 1024 (57344 - 1024) ↔ KINIT1END ≤ f * PGSIZE ∧ f * PGSIZE < PHYSTOP := by
      rw [List.mem_range'_1]
      unfold KINIT1END PHYSTOP PGSIZE
      omega
    rw [free, List.mem_append, List.mem_reverse, placed]
    exact or_comm

/-- The list in memory is empty before `kinit1`. -/
theorem FreeList.start (words : Nat → Nat → Nat) : FreeList k ⟨words, 0⟩ ⟨words, []⟩ := by
  refine ⟨rfl, rfl, ⟨List.nodup_nil, ?_⟩⟩
  intro f free
  cases free

/-- `kinit1` puts the whole pages from the end of the kernel to `KINIT1END` on the list, and
`kinit2` those from there to the top of memory, whatever the code in between takes. From then on every
kernel program that returns where no free page is touched returns the same on the list threaded
through the pages, with the same words, and the list has each free page once. -/
theorem free_pages_in_memory (low : k.last ≤ Vm.KINIT1END) (words : Nat → Nat → Nat) {setup : Vm Unit} {m₁ : Memory}
    (before : (Vm.kinit1 k >>= fun _ => setup).run (Memory.handler k) ⟨words, []⟩ = .ok ((), m₁))
    (inside : ∀ f ∈ m₁.free, f * PGSIZE < Vm.KINIT1END) :
    (∃ m₀, (Vm.kinit1 k).run (Memory.handler k) ⟨words, []⟩ = .ok ((), m₀) ∧
      ∀ f, f ∈ m₀.free ↔ k.last ≤ f * PGSIZE ∧ f * PGSIZE < Vm.KINIT1END) ∧
    ∃ r m, (Vm.kinit k setup).run (PhysicalMemory.handler k) ⟨words, 0⟩ = .ok ((), r) ∧
      (∀ f, f ∈ m.free ↔ f ∈ m₁.free ∨ Vm.KINIT1END ≤ f * PGSIZE ∧ f * PGSIZE < PHYSTOP) ∧
      FreeList k r m ∧
      ∀ {α : Type} (p : Vm α) value m', p.run (Memory.handler k) m = .ok (value, m') →
        ∃ r', p.run (PhysicalMemory.handler k) r = .ok (value, r') ∧ FreeList k r' m' := by
  obtain ⟨_, m₀, first, found⟩ := (Vm.kinit1_returns low words).ok
  refine ⟨⟨m₀, first, found⟩, ?_⟩
  obtain ⟨_, m, after, free⟩ := (Vm.kinit2_returns low inside).ok
  have whole : (Vm.kinit k setup).run (Memory.handler k) ⟨words, []⟩ = .ok ((), m) := by
    have following : Vm.kinit k setup = (Vm.kinit1 k >>= fun _ => setup) >>= fun _ => Vm.kinit2 :=
      (Program.bind_assoc _ _ _).symm
    rw [following, Program.run_bind_ok before]
    exact after
  obtain ⟨r, ran, freelist⟩ := (FreeList.start words).runs _ whole
  exact ⟨r, m, ran, free, freelist, fun p value m' returned => freelist.runs p returned⟩

/-- Between `kinit1` and `kinit2` a page is taken. -/
def takePage : Vm Unit := Vm.kalloc >>= fun _ => pure ()

/-- The page at 4 MB is on the list in memory after the start of a small kernel. -/
theorem free_pages_in_memory_small : ∃ r m,
    (Vm.kinit smallKernel takePage).run (PhysicalMemory.handler smallKernel) ⟨fun _ _ => 0, 0⟩ = .ok ((), r) ∧
      FreeList smallKernel r m ∧ 0x400 ∈ m.free := by
  have low : smallKernel.last ≤ Vm.KINIT1END := by decide
  have started : Returns smallKernel (Vm.kinit1 smallKernel >>= fun _ => takePage) ⟨fun _ _ => 0, []⟩
      fun _ m => ∀ f ∈ m.free, f * PGSIZE < Vm.KINIT1END := by
    refine (Vm.kinit1_returns low _).bind fun _ m found => ?_
    refine (Vm.kalloc_returns smallKernel m).bind fun page m' known => Returns.pure ?_
    intro f free
    rcases known with ⟨_, _, same⟩ | ⟨g, rest, _, whole, same⟩
    · rw [same] at free
      exact ((found f).mp free).2
    · rw [same] at free
      refine ((found f).mp ?_).2
      rw [whole]
      exact List.mem_cons_of_mem g free
  obtain ⟨_, m₁, before, inside⟩ := started.ok
  obtain ⟨_, r, m, ran, free, freelist, _⟩ := free_pages_in_memory low (fun _ _ => 0) before inside
  exact ⟨r, m, ran, freelist, (free 0x400).mpr (.inr (by decide))⟩

end Xv6
