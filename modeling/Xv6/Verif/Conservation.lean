import Xv6.Lib.Runs
import Xv6.Verif.KernelHalf

/-!
# Conservation of physical memory

Any sequence of calls that create, grow, shrink, copy and free page directories, with any number of
free pages at the start. Every page stays in exactly one place, no call frees a page twice or uses a
page that is free, and what is allocated comes back.
-/

namespace Xv6

/-- Physical memory and the page directories in use. -/
structure Pool where
  /-- The pages. -/
  memory : Memory
  /-- The page directories. -/
  dirs : List Nat

/-- Calls of `vm.c`. -/
inductive MemCall where
  | setupkvm
  | allocuvm (pgdir oldsz newsz : Nat)
  | deallocuvm (pgdir oldsz newsz : Nat)
  | copyuvm (pgdir sz : Nat)
  | freevm (pgdir : Nat)

namespace MemCall

/-- The code that runs; a null pointer is 0. -/
def program (k : KernelImage) : MemCall → Vm Nat
  | .setupkvm => do return (← Vm.setupkvm k).getD 0
  | .allocuvm pgdir oldsz newsz => Vm.allocuvm pgdir oldsz newsz
  | .deallocuvm pgdir oldsz newsz => Vm.deallocuvm pgdir oldsz newsz
  | .copyuvm pgdir sz => do return (← Vm.copyuvm k pgdir sz).getD 0
  | .freevm pgdir => do
    Vm.freevm pgdir
    return 0

/-- The page directories in use after a call that returns `result`. -/
def dirs (result : Nat) (before : List Nat) : MemCall → List Nat
  | .setupkvm => if result = 0 then before else result :: before
  | .copyuvm _ _ => if result = 0 then before else result :: before
  | .freevm pgdir => before.erase pgdir
  | _ => before

/-- The call allocates memory and returns 0 when there is not enough. -/
def allocates : MemCall → Bool
  | .setupkvm => true
  | .allocuvm _ _ _ => true
  | .copyuvm _ _ => true
  | _ => false

/-- The calls that the kernel makes: on directories in use, `allocuvm` of a range with no page
present, `deallocuvm` of user memory, `copyuvm` of an image whose pages are all present. -/
def Allowed (x : Pool) : MemCall → Prop
  | .setupkvm => True
  | .allocuvm pgdir oldsz newsz => pgdir ∈ x.dirs ∧
      ∀ pn < USERPAGES, InRange oldsz newsz pn → x.memory.mapping pgdir pn = none
  | .deallocuvm pgdir oldsz _ => pgdir ∈ x.dirs ∧ oldsz ≤ KERNBASE
  | .copyuvm pgdir sz => pgdir ∈ x.dirs ∧ sz ≤ KERNBASE ∧ ∀ pn, InRange 0 sz pn → (x.memory.mapping pgdir pn).isSome
  | .freevm pgdir => pgdir ∈ x.dirs

end MemCall

namespace Pool

/-- A call with what it returns, unless it stops. -/
def perform (k : KernelImage) (x : Pool) (call : MemCall) : Except MemStop (Nat × Pool) :=
  match (call.program k).run (Memory.handler k) x.memory with
  | .ok (result, memory) => .ok (result, ⟨memory, call.dirs result x.dirs⟩)
  | .error reason => .error reason

/-- A call of the kernel. -/
def step (k : KernelImage) (x : Pool) (call : MemCall) (y : Pool) : Prop :=
  call.Allowed x ∧ ∃ result, x.perform k call = .ok (result, y)

end Pool

/-- A place of a page. -/
inductive Place where
  /-- On the free list. -/
  | free
  /-- A page directory. -/
  | dir
  /-- The page table at an index of a page directory. -/
  | table (pgdir i : Nat)
  /-- Mapped at a user page of a page directory. -/
  | user (pgdir pn : Nat)

/-- The page is in the place. -/
def Pool.Holds (x : Pool) (f : Nat) : Place → Prop
  | .free => f ∈ x.memory.free
  | .dir => f ∈ x.dirs
  | .table pgdir i => pgdir ∈ x.dirs ∧ i < NPDENTRIES ∧ frameOf (x.memory.word pgdir i) = some f
  | .user pgdir pn => pgdir ∈ x.dirs ∧ pn < USERPAGES ∧ ∃ w, x.memory.mapping pgdir pn = some w ∧ w / PGSIZE = f

/-- The owner that a place stands for. -/
def Place.owner : Place → Owner
  | .free => .free
  | .dir => .dir 0
  | .table pgdir i => .table pgdir i
  | .user pgdir pn => .page pgdir pn

/-- The owners of the pages between calls; `start` are the pages that were free at first. -/
structure Conserved (k : KernelImage) (start : List Nat) (x : Pool) (owner : Nat → Owner) : Prop where
  owners : PageOwners k x.memory owner
  /-- The directories in use. -/
  dirs : ∀ d, owner d = .dir 0 ↔ d ∈ x.dirs
  /-- No directory is being freed. -/
  alive : ∀ d n, owner d = .dir n → n = 0
  /-- The pages that were not free at first belong to others. -/
  hand : ∀ f, owner f = .hand ↔ Memory.usable k f = true ∧ f ∉ start
  nodup : x.dirs.Nodup

section Calls

variable {k : KernelImage} {start : List Nat} {x y : Pool} {m m' : Memory} {owner owner' : Nat → Owner} {d f : Nat}

/-- The owners when nothing has been allocated. -/
theorem conserved_start {memory : Memory} (nodup : memory.free.Nodup) (usable : ∀ f ∈ memory.free, Memory.usable k f = true) :
    Conserved k memory.free ⟨memory, []⟩ fun f =>
      if f ∈ memory.free then .free else if Memory.usable k f then .hand else .kernel := by
  refine ⟨⟨nodup, fun f => ?_, fun f => ?_, fun f d i => ?_, fun f d pn => ?_⟩, fun d => ?_, fun d n dir => ?_, fun f => ?_,
    List.nodup_nil⟩
  all_goals grind

/-- A place holds a page whose owner it is. -/
theorem Conserved.holds (conserved : Conserved k start x owner) (place : Place) : x.Holds f place ↔ owner f = place.owner := by
  have live : ∀ d n, owner d = .dir n → d ∈ x.dirs := by
    intro d n dir
    rw [conserved.alive d n dir] at dir
    exact (conserved.dirs d).mp dir
  cases place with
  | free => exact (conserved.owners.free f).symm
  | dir => exact (conserved.dirs f).symm
  | table d i =>
    constructor
    · rintro ⟨used, low, named⟩
      exact (conserved.owners.table f d i).mpr ⟨low, 0, (conserved.dirs d).mpr used, Nat.zero_le i, named⟩
    · intro table
      obtain ⟨low, n, dir, _, named⟩ := (conserved.owners.table f d i).mp table
      exact ⟨live d n dir, low, named⟩
  | user d pn =>
    constructor
    · rintro ⟨used, user, w, mapped, rfl⟩
      exact conserved.owners.mapping_page ((conserved.dirs d).mpr used) user mapped
    · intro page
      obtain ⟨user, t, table, _⟩ := (conserved.owners.page f d pn).mp page
      obtain ⟨_, n, dir, _⟩ := (conserved.owners.table t d _).mp table
      exact ⟨live d n dir, user, conserved.owners.page_mapping page⟩

/-- Places are told apart by their owners. -/
theorem Place.owner_inj {place place' : Place} (same : place.owner = place'.owner) : place = place' := by
  cases place <;> cases place' <;> simp_all [Place.owner]

/-- Every page that was free at first is in exactly one place. -/
theorem Conserved.one_place (conserved : Conserved k start x owner) (usable : Memory.usable k f = true) (known : f ∈ start) :
    ∃! place, x.Holds f place := by
  have place : ∃ place : Place, owner f = place.owner := by
    cases owned : owner f with
    | free => exact ⟨.free, rfl⟩
    | hand => exact absurd known ((conserved.hand f).mp owned).2
    | kernel => exact Bool.noConfusion (((conserved.owners.kernel f).mp owned).symm.trans usable)
    | dir n =>
      rw [conserved.alive f n owned]
      exact ⟨.dir, rfl⟩
    | table d i => exact ⟨.table d i, rfl⟩
    | page d pn => exact ⟨.user d pn, rfl⟩
  obtain ⟨place, owned⟩ := place
  exact ⟨place, (conserved.holds place).mpr owned, fun other held =>
    Place.owner_inj (((conserved.holds other).mp held).symm.trans owned)⟩

/-- With no directory in use the free pages are those that were free at first. -/
theorem Conserved.all_free (conserved : Conserved k start x owner) (usable : ∀ f ∈ start, Memory.usable k f = true)
    (nodup : start.Nodup) (none : x.dirs = []) : x.memory.free.Perm start := by
  refine (List.perm_ext_iff_of_nodup conserved.owners.nodup nodup).mpr fun f => ⟨fun free => ?_, fun known => ?_⟩
  · have owned := (conserved.owners.free f).mpr free
    by_contra unknown
    have used : Memory.usable k f = true := conserved.owners.usable (by rw [owned]; exact Owner.noConfusion)
    rw [(conserved.hand f).mpr ⟨used, unknown⟩] at owned
    exact Owner.noConfusion owned
  · obtain ⟨place, held, _⟩ := conserved.one_place (usable f known) known
    cases place with
    | free => exact held
    | dir =>
      have used : f ∈ x.dirs := held
      rw [none] at used
      exact absurd used List.not_mem_nil
    | table d i =>
      have used := held.1
      rw [none] at used
      exact absurd used List.not_mem_nil
    | user d pn =>
      have used := held.1
      rw [none] at used
      exact absurd used List.not_mem_nil

/-! ## What one call keeps -/

/-- Pages are added to a directory. -/
theorem Conserved.extend {new : Nat → Prop} (conserved : Conserved k start x owner)
    (extended : Extended d new x.memory owner m' owner') (owners : PageOwners k m' owner') :
    Conserved k start ⟨m', x.dirs⟩ owner' :=
  ⟨owners, fun e => (extended.dir e 0).trans (conserved.dirs e), fun e n dir => conserved.alive e n ((extended.dir e n).mp dir),
    fun f => (extended.hand f).trans (conserved.hand f), conserved.nodup⟩

/-- User pages of a directory are freed. -/
theorem Conserved.drop {gone : Nat → Prop} (conserved : Conserved k start x owner)
    (dropped : Dropped d gone x.memory owner m' owner') (owners : PageOwners k m' owner') :
    Conserved k start ⟨m', x.dirs⟩ owner' :=
  ⟨owners, fun e => (dropped.dir e 0).trans (conserved.dirs e), fun e n dir => conserved.alive e n ((dropped.dir e n).mp dir),
    fun f => (dropped.same (o := .hand) Owner.noConfusion (fun _ => Owner.noConfusion) f).trans (conserved.hand f),
    conserved.nodup⟩

/-- Nothing has changed. -/
theorem Conserved.restore (conserved : Conserved k start x owner) (restored : Restored x.memory owner m' owner')
    (owners : PageOwners k m' owner') : Conserved k start ⟨m', x.dirs⟩ owner' := by
  obtain ⟨rfl, _⟩ := restored
  exact ⟨owners, conserved.dirs, conserved.alive, conserved.hand, conserved.nodup⟩

/-- A directory is made. -/
theorem Conserved.populate (conserved : Conserved k start x owner) (populated : Populated d x.memory owner m' owner')
    (owners : PageOwners k m' owner') : Conserved k start ⟨m', d :: x.dirs⟩ owner' := by
  have unused : d ∉ x.dirs := fun used => Owner.noConfusion (((conserved.dirs d).mpr used).symm.trans populated.was)
  have same : ∀ o : Owner, o ≠ .free → (∀ i, o ≠ .table d i) → (∀ pn, o ≠ .page d pn) → ∀ g, g ≠ d →
      (owner' g = o ↔ owner g = o) := by
    intro o used table page g other
    rcases populated.owners g other with same | ⟨free, here | ⟨i, owned⟩ | ⟨pn, owned⟩⟩
    · rw [same]
    · exact absurd here other
    · rw [free, owned]
      exact ⟨fun same => absurd same.symm (table i), fun same => absurd same.symm used⟩
    · rw [free, owned]
      exact ⟨fun same => absurd same.symm (page pn), fun same => absurd same.symm used⟩
  have dirs : ∀ g n, g ≠ d → (owner' g = .dir n ↔ owner g = .dir n) := fun g n =>
    same (.dir n) Owner.noConfusion (fun _ => Owner.noConfusion) (fun _ => Owner.noConfusion) g
  refine ⟨owners, fun e => ?_, fun e n dir => ?_, fun g => ?_, List.nodup_cons.mpr ⟨unused, conserved.nodup⟩⟩
  · rw [List.mem_cons]
    by_cases here : e = d
    · rw [here, populated.dir]
      exact ⟨fun _ => .inl rfl, fun _ => rfl⟩
    · rw [dirs e 0 here, conserved.dirs e]
      exact ⟨.inr, fun member => member.resolve_left here⟩
  · by_cases here : e = d
    · rw [here, populated.dir] at dir
      exact (Owner.dir.inj dir).symm
    · exact conserved.alive e n ((dirs e n here).mp dir)
  · by_cases here : g = d
    · have was := (not_congr (conserved.hand d)).mp (by rw [populated.was]; exact Owner.noConfusion)
      rw [here, populated.dir]
      exact ⟨fun hand => Owner.noConfusion hand, fun held => absurd held was⟩
    · rw [same .hand Owner.noConfusion (fun _ => Owner.noConfusion) (fun _ => Owner.noConfusion) g here]
      exact conserved.hand g

/-- A directory is freed. -/
theorem Conserved.dismantle (conserved : Conserved k start x owner) (dismantled : Dismantled d x.memory owner m' owner')
    (live : owner d = .dir 0) (owners : PageOwners k m' owner') : Conserved k start ⟨m', x.dirs.erase d⟩ owner' := by
  have same : ∀ o : Owner, o ≠ .free → (∀ i, o ≠ .table d i) → (∀ pn, o ≠ .page d pn) → ∀ g, g ≠ d →
      (owner' g = o ↔ owner g = o) := by
    intro o used table page g other
    by_cases within : (owner g).Within d g
    · rw [dismantled.freed g within]
      refine ⟨fun same => absurd same.symm used, fun same => ?_⟩
      rcases within with here | ⟨i, owned⟩ | ⟨pn, owned⟩
      · exact absurd here other
      · exact absurd (same.symm.trans owned) (table i)
      · exact absurd (same.symm.trans owned) (page pn)
    · rw [dismantled.kept g within]
  have dirs : ∀ g n, g ≠ d → (owner' g = .dir n ↔ owner g = .dir n) := fun g n =>
    same (.dir n) Owner.noConfusion (fun _ => Owner.noConfusion) (fun _ => Owner.noConfusion) g
  have freed := dismantled.freed d (.inl rfl)
  refine ⟨owners, fun e => ?_, fun e n dir => ?_, fun g => ?_, conserved.nodup.erase d⟩
  · rw [conserved.nodup.mem_erase_iff]
    by_cases here : e = d
    · rw [here, freed]
      exact ⟨fun dir => Owner.noConfusion dir, fun member => absurd rfl member.1⟩
    · rw [dirs e 0 here, conserved.dirs e]
      exact ⟨fun used => ⟨here, used⟩, fun member => member.2⟩
  · by_cases here : e = d
    · rw [here, freed] at dir
      exact Owner.noConfusion dir
    · exact conserved.alive e n ((dirs e n here).mp dir)
  · by_cases here : g = d
    · have was := (not_congr (conserved.hand d)).mp (by rw [live]; exact Owner.noConfusion)
      rw [here, freed]
      exact ⟨fun hand => Owner.noConfusion hand, fun held => absurd held was⟩
    · rw [same .hand Owner.noConfusion (fun _ => Owner.noConfusion) (fun _ => Owner.noConfusion) g here]
      exact conserved.hand g

/-- What is left when a call returns. -/
structure CallDone (k : KernelImage) (start : List Nat) (x : Pool) (call : MemCall) (result : Nat) (y : Pool) : Prop where
  /-- Every page has its place. -/
  conserved : ∃ owner, Conserved k start y owner
  /-- A call that finds no memory changes no user mapping. -/
  failed : result = 0 → call.allocates = true → ∀ d ∈ x.dirs, ∀ pn < USERPAGES, y.memory.mapping d pn = x.memory.mapping d pn

/-- A call whose code returns a result. -/
theorem Pool.perform_run {call : MemCall} {result : Nat}
    (ran : Program.run (Memory.handler k) (call.program k) x.memory = .ok (result, m)) :
    x.perform k call = .ok (result, ⟨m, call.dirs result x.dirs⟩) := by
  unfold Pool.perform
  rw [ran]

/-- A call whose code returns. -/
theorem Pool.perform_ok {call : MemCall} {post : Nat → Memory → Prop} (returns : Returns k (call.program k) x.memory post)
    (ends : ∀ result m', post result m' → CallDone k start x call result ⟨m', call.dirs result x.dirs⟩) :
    ∃ result y, x.perform k call = .ok (result, y) ∧ CallDone k start x call result y := by
  obtain ⟨result, m', ran, known⟩ := returns.ok
  exact ⟨result, ⟨m', call.dirs result x.dirs⟩, Pool.perform_run ran, ends result m' known⟩

/-- A directory that was made is not at address 0. -/
theorem Populated.pos (populated : Populated d m owner m' owner') (owners : PageOwners k m owner) : d ≠ 0 :=
  usable_pos (owners.usable (f := d) (by rw [populated.was]; exact Owner.noConfusion))

/-- Every allowed call returns and keeps the pages in their places. -/
theorem Conserved.call (conserved : Conserved k start x owner) {call : MemCall} (allowed : call.Allowed x) :
    ∃ result y, x.perform k call = .ok (result, y) ∧ CallDone k start x call result y := by
  have live : ∀ d ∈ x.dirs, owner d = .dir 0 := fun d => (conserved.dirs d).mpr
  have wide : ∀ pn < USERPAGES, pn < TABLEPAGES := fun pn user => Nat.lt_trans user (by decide)
  cases call with
  | setupkvm =>
    refine Pool.perform_ok ((setupkvm_builds conserved.owners).map (·.getD 0)) fun result m' known => ?_
    obtain ⟨r, rfl, owner', owners', ⟨rfl, restored⟩ | ⟨d, rfl, populated, _⟩⟩ := known
    · exact ⟨⟨owner', conserved.restore restored owners'⟩, fun _ _ d used pn user =>
        restored.mapping d (live d used) pn (wide pn user)⟩
    · have pos := populated.pos conserved.owners
      refine ⟨⟨owner', ?_⟩, fun zero => absurd zero pos⟩
      change Conserved k start ⟨m', if d = 0 then x.dirs else d :: x.dirs⟩ owner'
      rw [if_neg pos]
      exact conserved.populate populated owners'
  | allocuvm d oldsz newsz =>
    obtain ⟨used, absent⟩ := allowed
    refine Pool.perform_ok (allocuvm_extends conserved.owners (live d used) absent) fun result m' known => ?_
    obtain ⟨owner', owners', ⟨rfl, _, grown⟩ | ⟨_, extended⟩⟩ := known
    · refine ⟨⟨owner', conserved.extend grown.extended owners'⟩, fun zero _ e used' pn user => ?_⟩
      refine grown.extended.mapping e (live e used') pn (wide pn user) fun _ here => ?_
      have bound := Nat.lt_of_lt_of_le here.2 (Nat.le_max_right oldsz newsz)
      rw [zero] at bound
      exact Nat.not_lt_zero _ bound
    · exact ⟨⟨owner', conserved.extend extended owners'⟩, fun _ _ e used' pn user =>
        extended.unmoved (live e used') (wide pn user)⟩
  | deallocuvm d oldsz newsz =>
    obtain ⟨used, bound⟩ := allowed
    refine Pool.perform_ok (deallocuvm_drops conserved.owners (live d used) bound) fun result m' known => ?_
    obtain ⟨_, owner', owners', dropped⟩ := known
    exact ⟨⟨owner', conserved.drop dropped owners'⟩, fun _ => Bool.noConfusion⟩
  | copyuvm d sz =>
    obtain ⟨used, bound, image⟩ := allowed
    refine Pool.perform_ok ((copyuvm_copies conserved.owners (live d used) bound image).map (·.getD 0)) fun result m' known => ?_
    obtain ⟨r, rfl, owner', owners', ⟨rfl, restored⟩ | ⟨e, rfl, populated, _⟩⟩ := known
    · exact ⟨⟨owner', conserved.restore restored owners'⟩, fun _ _ d used pn user =>
        restored.mapping d (live d used) pn (wide pn user)⟩
    · have pos := populated.pos conserved.owners
      refine ⟨⟨owner', ?_⟩, fun zero => absurd zero pos⟩
      change Conserved k start ⟨m', if e = 0 then x.dirs else e :: x.dirs⟩ owner'
      rw [if_neg pos]
      exact conserved.populate populated owners'
  | freevm d =>
    refine Pool.perform_ok ((freevm_frees conserved.owners (live d allowed)).map fun _ => 0) fun result m' known => ?_
    obtain ⟨_, _, owner', owners', dismantled⟩ := known
    exact ⟨⟨owner', conserved.dismantle dismantled (live d allowed) owners'⟩, fun _ => Bool.noConfusion⟩

/-- A run of calls keeps the pages in their places. -/
theorem Conserved.run {calls : List MemCall} (run : Run (Pool.step k) x calls y)
    (conserved : ∃ owner, Conserved k start x owner) : ∃ owner, Conserved k start y owner := by
  refine run.invariant (fun x => ∃ owner, Conserved k start x owner) ?_ conserved
  rintro x call y ⟨owner, conserved⟩ ⟨allowed, result, performed⟩
  obtain ⟨result', y', performed', done⟩ := conserved.call allowed
  rw [performed'] at performed
  cases performed
  exact done.conserved

end Calls

/-- Whatever calls are made on whatever directories, and however many pages were free at first:
every page is in exactly one place, no directory and no free page is listed twice, every allowed call
returns without freeing a page twice and without using a free page, a call that finds no memory
leaves the user mappings as they were, and once all directories are freed the free pages are those of
the start. -/
theorem memory_conserved {k : KernelImage} {memory : Memory} (nodup : memory.free.Nodup)
    (usable : ∀ f ∈ memory.free, Memory.usable k f = true) {calls : List MemCall} {x : Pool}
    (run : Run (Pool.step k) ⟨memory, []⟩ calls x) :
    x.memory.free.Nodup ∧ x.dirs.Nodup ∧ (∀ f ∈ memory.free, ∃! place, x.Holds f place) ∧
      (∀ call : MemCall, call.Allowed x → ∃ result y, x.perform k call = .ok (result, y) ∧
        (result = 0 → call.allocates = true → ∀ d ∈ x.dirs, ∀ pn < USERPAGES,
          y.memory.mapping d pn = x.memory.mapping d pn)) ∧
      (x.dirs = [] → x.memory.free.Perm memory.free) := by
  obtain ⟨owner, conserved⟩ := Conserved.run run ⟨_, conserved_start nodup usable⟩
  refine ⟨conserved.owners.nodup, conserved.nodup, fun f known => conserved.one_place (usable f known) known,
    fun call allowed => ?_, conserved.all_free usable nodup⟩
  obtain ⟨result, y, performed, done⟩ := conserved.call allowed
  exact ⟨result, y, performed, done.failed⟩

/-- Two hundred pages are free. -/
def freshPool : Pool := ⟨blank (List.range' 0x110 200), []⟩

/-- A directory is made there; `allocuvm` of up to 135 pages then succeeds, and of more than 200 it fails. -/
theorem freshPool_grows {newsz : Nat} (user : newsz < KERNBASE) : ∃ d r m m',
    Run (Pool.step smallKernel) freshPool [.setupkvm] ⟨m, [d]⟩ ∧
      Pool.step smallKernel ⟨m, [d]⟩ (.allocuvm d 0 newsz) ⟨m', [d]⟩ ∧
      Pool.perform smallKernel ⟨m, [d]⟩ (.allocuvm d 0 newsz) = .ok (r, ⟨m', [d]⟩) ∧
      (pagesNeeded m d (pagesBetween 0 newsz) ≤ 135 → Stretched smallKernel m d (pagesBetween 0 newsz) m') ∧
      (200 < pagesNeeded m d (pagesBetween 0 newsz) → r = 0) := by
  have stock := @blank_stock 200 (by decide)
  have length : (blank (List.range' 0x110 200)).free.length = 200 := List.length_range'
  obtain ⟨d, m, owner, made, directory, _, _⟩ := setupkvm_succeeds stock (by rw [length]; decide)
  have ran : Program.run (Memory.handler smallKernel) (MemCall.program smallKernel .setupkvm) freshPool.memory = .ok (d, m) := by
    rw [MemCall.program, freshPool, Program.run_bind_ok made]
    rfl
  have first := Pool.perform_run ran
  rw [MemCall.dirs, if_neg (usable_pos (stock.usable d directory.dir))] at first
  have absent : ∀ pn ∈ pagesBetween 0 newsz, m.mapping d pn = none := fun pn member =>
    directory.empty pn (pagesBetween_user (Nat.le_of_lt user) pn member)
  obtain ⟨r, m', ran, known⟩ := (allocuvm_exact directory.own directory.stock (Nat.zero_le newsz) user absent).ok
  have second : Pool.perform smallKernel ⟨m, [d]⟩ (.allocuvm d 0 newsz) = .ok (r, ⟨m', [d]⟩) := Pool.perform_run ran
  have taken := directory.taken
  have left : m.free.length ≤ 200 := length ▸ (directory.stock.nodup.subperm directory.free).length_le
  refine ⟨d, r, m, m', .cons ⟨trivial, d, first⟩ (.nil _),
    ⟨⟨List.mem_cons_self, fun pn low _ => directory.empty pn low⟩, r, second⟩, second, ?_, ?_⟩
  · intro few
    rcases known with ⟨_, _, stretched⟩ | ⟨short, _⟩
    · exact stretched
    · omega
  · intro many
    rcases known with ⟨fits, _⟩ | ⟨_, zero, _⟩
    · omega
    · exact zero

/-- `allocuvm` of 201 pages fails, and when the directory has been freed all pages are back. -/
theorem memory_conserved_failed : ∃ d x y z, Run (Pool.step smallKernel) freshPool [.setupkvm] x ∧
    x.perform smallKernel (.allocuvm d 0 823296) = .ok (0, y) ∧
    Run (Pool.step smallKernel) freshPool [.setupkvm, .allocuvm d 0 823296, .freevm d] z ∧
    z.memory.free.Perm (List.range' 0x110 200) := by
  have stock := @blank_stock 200 (by decide)
  obtain ⟨d, r, m, m', made, step, performed, known⟩ := @freshPool_grows 823296 (by decide)
  obtain rfl := known.2 (Nat.le_add_right 201 _)
  have run := made.snoc step
  obtain ⟨result, z, freed, _⟩ := (memory_conserved stock.nodup stock.usable run).2.2.2.1 (.freevm d) List.mem_cons_self
  have whole := run.snoc ⟨List.mem_cons_self, result, freed⟩
  have none : z.dirs = [] := by
    unfold Pool.perform at freed
    split at freed
    · cases freed
      exact List.erase_cons_head (a := d) (l := [])
    · contradiction
  exact ⟨d, _, _, z, made, performed, whole, (memory_conserved stock.nodup stock.usable whole).2.2.2.2 none⟩

end Xv6
