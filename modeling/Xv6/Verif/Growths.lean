import Xv6.Growing
import Xv6.Lib.Runs
import Xv6.Verif.Paging

/-!
# Ranges handed out by `sbrk`

The ranges that `sbrk` hands out to the LWPs of a group are disjoint and mapped and make up the
growth of the group, in the runs in which no LWP reads the size in `growproc` or calls `allocuvm`
after another one has changed the size or while another one is about to write it.
-/

namespace Xv6

variable {ι : Type} [DecidableEq ι]

/-- No LWP is between `allocuvm` and its write. -/
def Heap.Calm (h : Heap ι) : Prop := ∀ i n addr newsz, h.stage i ≠ .grown n addr newsz

/-- A step of an LWP that has its result from the present size, while no other LWP is between
`allocuvm` and its write. -/
def growStep (h : Heap ι) (event : GrowEvent ι) (t : Heap ι) : Prop :=
  h.step event = some t ∧ match event with
    | .read i => ∀ n addr, h.stage i = .entered n addr → addr = h.sz
    | .alloc i _ => (∀ n addr sz, h.stage i = .started n addr sz → addr = h.sz) ∧ h.Calm
    | _ => True

/-- The last page of an image is present. -/
def EndMapped (pages : PageMap) (sz : Nat) : Prop :=
  ∀ page, page * PGSIZE < sz → sz < (page + 1) * PGSIZE → pages page ≠ none

/-- The memory of a group is an image of its size. -/
structure Image (pages : PageMap) (sz : Nat) : Prop where
  bounded : Bounded pages sz
  last : EndMapped pages sz
  /-- The size is no address of the kernel. -/
  user : sz ≤ KERNBASE

/-- The bytes of a range are mapped. -/
def RangeMapped (pages : PageMap) (low high : Nat) : Prop :=
  ∀ addr, low ≤ addr → addr < high → pages (addr / PGSIZE) ≠ none

/-- What holds while `sbrk` hands out ranges from `start` on. -/
structure Hands (start : Nat) (h : Heap ι) : Prop where
  /-- The group has grown by what was handed out. -/
  total : h.sz = start + (h.handed.map Prod.snd).sum
  /-- The ranges lie in the growth. -/
  inside : ∀ r ∈ h.handed, start ≤ r.1 ∧ r.1 + r.2 ≤ h.sz
  /-- No two of them share an address. -/
  apart : h.handed.Pairwise fun newer older => older.1 + older.2 ≤ newer.1
  /-- They are mapped. -/
  mapped : ∀ r ∈ h.handed, RangeMapped h.pages r.1 (r.1 + r.2)
  /-- Arguments are positive and fit. -/
  entered : ∀ i n addr, h.stage i = .entered n addr → 0 < n ∧ n < 2 ^ 31
  /-- `growproc` has read what `sys_sbrk` has read. -/
  started : ∀ i n addr sz, h.stage i = .started n addr sz → sz = addr ∧ 0 < n ∧ n < 2 ^ 31
  /-- One LWP at a time has called `allocuvm` and not yet written. -/
  alone : ∀ i j n addr newsz n' addr' newsz', h.stage i = .grown n addr newsz →
    h.stage j = .grown n' addr' newsz' → i = j
  /-- That one has mapped its range. -/
  grown : ∀ i n addr newsz, h.stage i = .grown n addr newsz → addr = h.sz ∧ newsz = h.sz + n ∧
    Image h.pages newsz ∧ RangeMapped h.pages h.sz newsz
  /-- Otherwise the memory is an image. -/
  image : h.Calm → Image h.pages h.sz

section Growths

variable {h t : Heap ι} {start n addr newsz sz room : Nat} {i j : ι} {event : GrowEvent ι} {pages rest : PageMap}

omit [DecidableEq ι] in
/-- `allocuvm` of a range after an image. -/
theorem Image.grow (image : Image pages sz) (positive : 0 < n) (fits : n < 2 ^ 31) (room : Nat) :
    ∃ newsz rest, allocuvm pages sz (uint (sz + n)) room = some (newsz, rest) ∧
      (∀ page, pages page ≠ none → rest page ≠ none) ∧
      (newsz = 0 ∧ Image rest sz ∨ newsz = sz + n ∧ Image rest newsz ∧ RangeMapped rest sz newsz) := by
  have user := image.user
  have whole : uint (sz + n) = sz + n := by
    unfold uint
    unfold KERNBASE at user
    omega
  have absent : ∀ page, InRange sz (uint (sz + n)) page → pages page = none :=
    fun page inside => image.bounded page inside.1
  obtain ⟨⟨newsz, rest⟩, allocated⟩ := Option.ne_none_iff_exists'.mp (allocuvm_returns room absent)
  refine ⟨newsz, rest, allocated, ?_⟩
  rw [whole] at allocated
  cases allocuvm_allocates allocated with
  | refused _ => exact ⟨fun _ present => present, .inl ⟨rfl, image⟩⟩
  | kept smaller _ => omega
  | mapped _ _ enough _ result =>
    have low := fits_low enough
    refine ⟨fun page present => ?_, .inr ⟨rfl, ⟨fun page above => ?_, fun page below above => ?_, Nat.le_of_lt low⟩,
      fun addr from_ to_ => ?_⟩⟩
    · rw [result]
      split
      · exact Option.some_ne_none _
      · exact present
    · rw [result, if_neg (fun inside => by have := inside.2; omega)]
      exact image.bounded page (by omega)
    · rw [result]
      split
      · exact Option.some_ne_none _
      · rename_i outside
        unfold InRange at outside
        exact image.last page (by omega) (by omega)
    · rw [result]
      split
      · exact Option.some_ne_none _
      · rename_i outside
        have start := Nat.div_mul_le_self addr PGSIZE
        have finish := Nat.lt_div_mul_add (a := addr) (b := PGSIZE) (by decide)
        unfold InRange at outside
        refine image.last (addr / PGSIZE) (by omega) ?_
        rw [Nat.add_mul]
        omega
  | exhausted _ _ _ _ result =>
    have same : rest = pages := by
      funext page
      rw [result]
      split
      · rename_i inside
        exact (image.bounded page inside.1).symm
      · rfl
    rw [same]
    exact ⟨fun _ present => present, .inl ⟨rfl, image⟩⟩

/-- The stage of an LWP after a step of one. -/
theorem Heap.setStage_cases (h : Heap ι) (i j : ι) (stage : Growing) :
    j = i ∧ (h.setStage i stage).stage j = stage ∨ j ≠ i ∧ (h.setStage i stage).stage j = h.stage j := by
  unfold Heap.setStage
  by_cases here : j = i
  · rw [here]
    exact .inl ⟨rfl, Function.update_self ..⟩
  · exact .inr ⟨here, Function.update_of_ne here ..⟩

/-- The step in which `allocuvm` returns. -/
theorem Heap.step_alloc (stage : h.stage i = .started n addr sz)
    (allocated : allocuvm h.pages sz (uint (sz + n)) room = some (newsz, pages)) :
    h.step (.alloc i room) = some ({ h with pages }.setStage i (if newsz = 0 then .idle else .grown n addr newsz)) := by
  unfold Heap.step
  simp only [stage]
  rw [allocated]
  rfl

/-- An LWP that goes on, but not to its write. -/
theorem Heap.Calm.setStage (calm : h.Calm) {stage : Growing} (other : ∀ n addr newsz, stage ≠ .grown n addr newsz) (i : ι) :
    (h.setStage i stage).Calm := by
  intro j n addr newsz grown
  rcases h.setStage_cases i j stage with ⟨_, known⟩ | ⟨_, known⟩
  · exact other n addr newsz (known.symm.trans grown)
  · exact calm j n addr newsz (known.symm.trans grown)

/-- An LWP that goes on without a change of memory, and not from or to its write. -/
theorem Hands.goes (hands : Hands start h) {stage : Growing} (before : ∀ n addr newsz, h.stage i ≠ .grown n addr newsz)
    (after : ∀ n addr newsz, stage ≠ .grown n addr newsz)
    (entered : ∀ n addr, stage = .entered n addr → 0 < n ∧ n < 2 ^ 31)
    (started : ∀ n addr sz, stage = .started n addr sz → sz = addr ∧ 0 < n ∧ n < 2 ^ 31) :
    Hands start (h.setStage i stage) := by
  have same : ∀ j n addr newsz, (h.setStage i stage).stage j = .grown n addr newsz → h.stage j = .grown n addr newsz := by
    intro j n addr newsz grown
    rcases h.setStage_cases i j stage with ⟨_, now⟩ | ⟨_, now⟩
    · exact absurd (now.symm.trans grown) (after n addr newsz)
    · exact now.symm.trans grown
  refine ⟨hands.total, hands.inside, hands.apart, hands.mapped, fun j n addr now => ?_, fun j n addr sz now => ?_,
    fun j k n addr newsz n' addr' newsz' first second => ?_, fun j n addr newsz grown => ?_, fun none => ?_⟩
  · rcases h.setStage_cases i j stage with ⟨_, known⟩ | ⟨_, known⟩
    · exact entered n addr (known.symm.trans now)
    · exact hands.entered j n addr (known.symm.trans now)
  · rcases h.setStage_cases i j stage with ⟨_, known⟩ | ⟨_, known⟩
    · exact started n addr sz (known.symm.trans now)
    · exact hands.started j n addr sz (known.symm.trans now)
  · exact hands.alone j k n addr newsz n' addr' newsz' (same _ _ _ _ first) (same _ _ _ _ second)
  · exact hands.grown j n addr newsz (same _ _ _ _ grown)
  · refine hands.image fun j n addr newsz grown => ?_
    have other : j ≠ i := by
      rintro rfl
      exact before n addr newsz grown
    rcases h.setStage_cases i j stage with ⟨here, _⟩ | ⟨_, known⟩
    · exact other here
    · exact none j n addr newsz (known.trans grown)

/-- `allocuvm` of an LWP that has its result from the present size, while no other is about to
write. -/
theorem Hands.allocates (hands : Hands start h) (stage : h.stage i = .started n addr sz) (now : addr = h.sz)
    (none : h.Calm) (room : Nat) :
    ∃ newsz pages, allocuvm h.pages sz (uint (sz + n)) room = some (newsz, pages) ∧
      Hands start ({ h with pages }.setStage i (if newsz = 0 then .idle else .grown n addr newsz)) := by
  obtain ⟨read, positive, fits⟩ := hands.started i n addr sz stage
  have image := hands.image none
  rw [read, now]
  obtain ⟨newsz, pages, allocated, present, result⟩ := image.grow positive fits room
  refine ⟨newsz, pages, allocated, ?_⟩
  have kept : ∀ r ∈ h.handed, RangeMapped pages r.1 (r.1 + r.2) := fun r member addr from_ to_ =>
    present _ (hands.mapped r member addr from_ to_)
  rcases result with ⟨failed, image'⟩ | ⟨size, image', mapped⟩
  · rw [if_pos failed]
    have moved : Hands start { h with pages } := ⟨hands.total, hands.inside, hands.apart, kept, hands.entered,
      hands.started, hands.alone, fun j n addr newsz grown => absurd grown (none j n addr newsz), fun _ => image'⟩
    exact moved.goes (none i) nofun nofun nofun
  · rw [if_neg (by omega)]
    have here : ∀ j n' addr' newsz',
        (Heap.setStage { h with pages } i (.grown n h.sz newsz)).stage j = .grown n' addr' newsz' →
          j = i ∧ n' = n ∧ addr' = h.sz ∧ newsz' = newsz := by
      intro j n' addr' newsz' grown
      rcases Heap.setStage_cases { h with pages } i j (.grown n h.sz newsz) with ⟨same, known⟩ | ⟨_, known⟩
      · cases known.symm.trans grown
        exact ⟨same, rfl, rfl, rfl⟩
      · exact absurd (known.symm.trans grown) (none j n' addr' newsz')
    refine ⟨hands.total, hands.inside, hands.apart, kept, fun j n' addr' entered => ?_, fun j n' addr' sz' started => ?_,
      fun j k n₁ addr₁ newsz₁ n₂ addr₂ newsz₂ first second => ?_, fun j n' addr' newsz' grown => ?_, fun absent => ?_⟩
    · rcases Heap.setStage_cases { h with pages } i j (.grown n h.sz newsz) with ⟨_, known⟩ | ⟨_, known⟩
      · cases known.symm.trans entered
      · exact hands.entered j n' addr' (known.symm.trans entered)
    · rcases Heap.setStage_cases { h with pages } i j (.grown n h.sz newsz) with ⟨_, known⟩ | ⟨_, known⟩
      · cases known.symm.trans started
      · exact hands.started j n' addr' sz' (known.symm.trans started)
    · exact (here _ _ _ _ first).1.trans (here _ _ _ _ second).1.symm
    · obtain ⟨_, rfl, rfl, rfl⟩ := here _ _ _ _ grown
      exact ⟨rfl, size, image', mapped⟩
    · refine absurd ?_ (absent i n h.sz newsz)
      exact Function.update_self i (Growing.grown n h.sz newsz) h.stage

/-- The write of an LWP hands out its range. -/
theorem Hands.writes (hands : Hands start h) (stage : h.stage i = .grown n addr newsz) :
    Hands start ({ h with sz := newsz, handed := (addr, n) :: h.handed }.setStage i .idle) := by
  obtain ⟨now, size, image, mapped⟩ := hands.grown i n addr newsz stage
  have start' : start ≤ h.sz := by
    rw [hands.total]
    exact Nat.le_add_right _ _
  have none : (Heap.setStage { h with sz := newsz, handed := (addr, n) :: h.handed } i .idle).Calm := by
    intro j n' addr' newsz' grown
    rcases Heap.setStage_cases { h with sz := newsz, handed := (addr, n) :: h.handed } i j .idle with
      ⟨_, known⟩ | ⟨other, known⟩
    · cases known.symm.trans grown
    · exact other (hands.alone j i _ _ _ _ _ _ (known.symm.trans grown) stage)
  refine ⟨?_, fun r member => ?_, ?_, fun r member => ?_, fun j n' addr' entered => ?_, fun j n' addr' sz' started => ?_,
    fun j k n₁ addr₁ newsz₁ n₂ addr₂ newsz₂ first _ => absurd first (none j n₁ addr₁ newsz₁),
    fun j n' addr' newsz' grown => absurd grown (none j n' addr' newsz'), fun _ => image⟩
  · change newsz = start + (((addr, n) :: h.handed).map Prod.snd).sum
    rw [List.map_cons, List.sum_cons, size, hands.total]
    omega
  · rcases List.mem_cons.mp member with rfl | older
    · change start ≤ addr ∧ addr + n ≤ newsz
      omega
    · have inside := hands.inside r older
      change start ≤ r.1 ∧ r.1 + r.2 ≤ newsz
      omega
  · refine List.pairwise_cons.mpr ⟨fun r older => ?_, hands.apart⟩
    have inside := (hands.inside r older).2
    rw [now]
    exact inside
  · rcases List.mem_cons.mp member with rfl | older
    · change RangeMapped h.pages addr (addr + n)
      rw [now, ← size]
      exact mapped
    · exact hands.mapped r older
  · rcases Heap.setStage_cases { h with sz := newsz, handed := (addr, n) :: h.handed } i j .idle with
      ⟨_, known⟩ | ⟨_, known⟩
    · cases known.symm.trans entered
    · exact hands.entered j n' addr' (known.symm.trans entered)
  · rcases Heap.setStage_cases { h with sz := newsz, handed := (addr, n) :: h.handed } i j .idle with
      ⟨_, known⟩ | ⟨_, known⟩
    · cases known.symm.trans started
    · exact hands.started j n' addr' sz' (known.symm.trans started)

/-- Every such step keeps what holds of the ranges. -/
theorem Hands.step (hands : Hands start h) (taken : growStep h event t) : Hands start t := by
  obtain ⟨taken, met⟩ := taken
  cases event with
  | enter i n =>
    unfold Heap.step at taken
    simp only at taken
    split at taken
    · rename_i allowed
      obtain ⟨idle, positive, fits⟩ := allowed
      cases taken
      refine hands.goes (fun _ _ _ grown => ?_) nofun (fun n' addr' same => ?_) nofun
      · rw [idle] at grown
        cases grown
      · cases same
        exact ⟨positive, fits⟩
    · contradiction
  | read i =>
    unfold Heap.step at taken
    simp only at taken
    split at taken
    · rename_i n addr stage
      cases taken
      refine hands.goes (fun _ _ _ grown => ?_) nofun nofun fun n' addr' sz' same => ?_
      · rw [stage] at grown
        cases grown
      · cases same
        exact ⟨(met n addr stage).symm, hands.entered i n addr stage⟩
    · contradiction
  | alloc i room =>
    unfold Heap.step at taken
    simp only at taken
    split at taken
    · rename_i n addr sz stage
      obtain ⟨newsz, pages, allocated, next⟩ := hands.allocates stage (met.1 n addr sz stage) met.2 room
      rw [allocated] at taken
      cases taken
      exact next
    · contradiction
  | write i =>
    unfold Heap.step at taken
    simp only at taken
    split at taken
    · rename_i n addr newsz stage
      cases taken
      exact hands.writes stage
    · contradiction

end Growths

/-- In runs in which every LWP reads the size in `growproc` and calls `allocuvm` while the size is
the one it has read as its result, and calls `allocuvm` while no other one is between `allocuvm`
and its write: no call panics, the ranges of the calls that succeed are disjoint and mapped, and
the group grows by their sum. -/
theorem sbrk_disjoint {h t : Heap ι} {events : List (GrowEvent ι)} (run : Run growStep h events t)
    (idle : ∀ i, h.stage i = .idle) (empty : h.handed = []) (image : Image h.pages h.sz) :
    (∀ i n addr sz room, t.stage i = .started n addr sz → addr = t.sz → t.Calm → t.step (.alloc i room) ≠ none) ∧
    (t.handed.Pairwise fun newer older => older.1 + older.2 ≤ newer.1) ∧
    (∀ r ∈ t.handed, RangeMapped t.pages r.1 (r.1 + r.2)) ∧
    t.sz = h.sz + (t.handed.map Prod.snd).sum := by
  have begins : Hands h.sz h := by
    refine ⟨?_, ?_, ?_, ?_, fun i n addr stage => ?_, fun i n addr sz stage => ?_,
      fun i j n addr newsz _ _ _ stage => ?_, fun i n addr newsz stage => ?_, fun _ => image⟩
    · rw [empty]
      rfl
    · rw [empty]
      exact fun r member => absurd member List.not_mem_nil
    · rw [empty]
      exact .nil
    · rw [empty]
      exact fun r member => absurd member List.not_mem_nil
    all_goals
      rw [idle i] at stage
      cases stage
  have hands := run.invariant (Hands h.sz) (fun _ _ _ hands taken => hands.step taken) begins
  refine ⟨fun i n addr sz room stage now absent => ?_, hands.apart, hands.mapped, hands.total⟩
  obtain ⟨newsz, pages, allocated, _⟩ := hands.allocates stage now absent room
  rw [Heap.step_alloc stage allocated]
  exact Option.some_ne_none _

/-- A call that no other one disturbs. -/
theorem growStep_call {h : Heap ι} {i : ι} {n room newsz : Nat} {pages : PageMap} (idle : h.stage i = .idle) (calm : h.Calm) (positive : 0 < n) (fits : n < 2 ^ 31)
    (allocated : allocuvm h.pages h.sz (uint (h.sz + n)) room = some (newsz, pages)) (mapped : newsz ≠ 0) :
    Run growStep h [.enter i n, .read i, .alloc i room, .write i]
      { h with sz := newsz, pages, handed := (h.sz, n) :: h.handed } := by
  have entered : h.step (.enter i n) = some (h.setStage i (.entered n h.sz)) := if_pos ⟨idle, positive, fits⟩
  have stage : ∀ stage : Growing, (h.setStage i stage).stage i = stage := fun stage => Function.update_self ..
  have started : (h.setStage i (.entered n h.sz)).step (.read i) = some (h.setStage i (.started n h.sz h.sz)) := by
    simp only [Heap.step, Heap.setStage, Function.update_self, Function.update_idem]
  have grown : (h.setStage i (.started n h.sz h.sz)).step (.alloc i room) =
      some ({ h with pages }.setStage i (.grown n h.sz newsz)) := by
    rw [Heap.step_alloc (stage _) allocated, if_neg mapped]
    simp only [Heap.setStage, Function.update_idem]
  have written : ({ h with pages }.setStage i (.grown n h.sz newsz)).step (.write i) =
      some { h with sz := newsz, pages, handed := (h.sz, n) :: h.handed } := by
    simp only [Heap.step, Heap.setStage, Function.update_self, Function.update_idem]
    rw [← idle, Function.update_eq_self]
  have apart : ∀ n' addr newsz, Growing.started n h.sz h.sz ≠ .grown n' addr newsz := nofun
  refine .cons ⟨entered, trivial⟩ (.cons ⟨started, fun _ _ other => ?_⟩ (.cons ⟨grown, fun _ _ _ other => ?_,
    calm.setStage apart i⟩ (.cons ⟨written, trivial⟩ (.nil _))))
  · exact (Growing.entered.inj ((stage _).symm.trans other)).2.symm
  · exact (Growing.started.inj ((stage _).symm.trans other)).2.1.symm

/-- The call of an LWP that no other one disturbs is `growproc`. -/
theorem sbrk_alone {x y : Space} {p m : Lwp} {d n room : Nat} {i : ι} (points : (x.sys.proc p).master = some m)
    (home : (x.sys.proc m).pgdir = some d) (positive : 0 < n) (fits : n < 2 ^ 31) {h : Heap ι}
    (idle : h.stage i = .idle) (size : h.sz = (x.sys.proc m).sz) (pages : h.pages = x.pages d)
    (grown : x.growproc p n room = some y) :
    ∃ t, t.sz = (y.sys.proc m).sz ∧ t.pages = y.pages d ∧ t.stage i = .idle ∧
      (Run.exec Heap.step [.enter i n, .read i, .alloc i room, .write i] h = some t ∨
        Run.exec Heap.step [.enter i n, .read i, .alloc i room] h = some t ∧ t.handed = h.handed) := by
  unfold Space.growproc at grown
  simp only [points, home] at grown
  rw [if_pos (by omega), ← size, ← pages] at grown
  split at grown
  · contradiction
  · rename_i newsz rest allocated
    have begins : ∀ later, Run.exec Heap.step (.enter i n :: .read i :: .alloc i room :: later) h =
        Run.exec Heap.step later ({ h with pages := rest }.setStage i (if newsz = 0 then .idle else .grown n h.sz newsz)) := by
      intro later
      simp only [Run.exec, Heap.step, if_pos (show h.stage i = .idle ∧ 0 < n ∧ n < 2 ^ 31 from ⟨idle, positive, fits⟩),
        Heap.setStage, Function.update_self, allocated, Option.map_some, Function.update_idem]
    by_cases failed : newsz = 0
    · rw [if_pos ⟨by omega, failed⟩] at grown
      cases grown
      refine ⟨{ h with pages := rest }.setStage i .idle, size, ?_, ?_, .inr ⟨?_, rfl⟩⟩
      · exact (Function.update_self d rest x.pages).symm
      · exact Function.update_self i Growing.idle h.stage
      · rw [begins, if_pos failed]
        rfl
    · rw [if_neg (not_and_of_not_right _ failed)] at grown
      cases grown
      refine ⟨{ h with pages := rest, sz := newsz, handed := (h.sz, n) :: h.handed }.setStage i .idle, ?_, ?_, ?_, .inl ?_⟩
      · change newsz = (Function.update x.sys.proc m _ m).sz
        rw [Function.update_self]
      · exact (Function.update_self d rest x.pages).symm
      · exact Function.update_self i Growing.idle h.stage
      · rw [begins, if_neg failed]
        simp only [Run.exec, Heap.step, Heap.setStage, Function.update_self, Function.update_idem]

/-- A group with one page, whose LWPs are not in `sbrk`. -/
def onePage (sz : Nat) : Heap Nat := ⟨sz, fun page => if page = 0 then some true else none, fun _ => .idle, []⟩

/-- An image of one page. -/
theorem onePage_image {sz : Nat} (positive : 0 < sz) (fits : sz ≤ PGSIZE) : Image (onePage sz).pages (onePage sz).sz := by
  refine ⟨fun page above => ?_, fun page below above => ?_, ?_⟩
  · change sz ≤ page * PGSIZE at above
    refine if_neg ?_
    rintro rfl
    omega
  · change page * PGSIZE < sz at below
    have zero : page = 0 := by
      unfold PGSIZE at *
      omega
    rw [zero]
    exact Option.some_ne_none true
  · change sz ≤ KERNBASE
    unfold PGSIZE at fits
    unfold KERNBASE
    omega

/-- Two of the LWPs call `sbrk`, one after the other. -/
theorem sbrk_disjoint_two :
    ∃ t, Run growStep (onePage 100) [.enter 0 5000, .read 0, .alloc 0 9, .write 0, .enter 1 3000, .read 1, .alloc 1 9,
        .write 1] t ∧ t.handed = [(5100, 3000), (100, 5000)] ∧
      (t.handed.Pairwise fun newer older => older.1 + older.2 ≤ newer.1) ∧
      (∀ r ∈ t.handed, RangeMapped t.pages r.1 (r.1 + r.2)) ∧ t.sz = 100 + (t.handed.map Prod.snd).sum := by
  have grown : ((allocuvm (onePage 100).pages 100 (uint (100 + (5000 : Nat))) 9).bind fun first =>
      (allocuvm first.2 5100 (uint (5100 + (3000 : Nat))) 9).map fun second => (first.1, second.1)) = some (5100, 8100) := by
    decide +kernel
  obtain ⟨⟨_, pages⟩, first, more⟩ := Option.bind_eq_some_iff.mp grown
  obtain ⟨⟨_, rest⟩, second, sizes⟩ := Option.map_eq_some_iff.mp more
  cases sizes
  have run := (growStep_call (h := onePage 100) (i := 0) rfl (fun _ _ _ _ => nofun) (by decide) (by decide) first (by decide)).append
    (growStep_call (i := 1) rfl (fun _ _ _ _ => nofun) (by decide) (by decide) second (by decide))
  exact ⟨_, run, rfl, (sbrk_disjoint run (fun _ => rfl) rfl (onePage_image (by decide) (by decide))).2⟩

/-- Two LWPs call `sbrk`: the second one calls `allocuvm` for the range that the first one has
mapped. And two LWPs call it within a page: both get the same range, and the group grows by one of
them. -/
theorem sbrk_collides :
    (∃ t, Run (fun h event t => h.step event = some t) (onePage 4096) [.enter 0 1000, .enter 1 1000, .read 0, .read 1,
        .alloc 0 9] t ∧ t.stage 1 = .started 1000 4096 4096 ∧ t.step (.alloc 1 9) = none) ∧
    ∃ t, Run (fun h event t => h.step event = some t) (onePage 100) [.enter 0 1000, .enter 1 1000, .read 0, .read 1,
        .alloc 0 9, .alloc 1 9, .write 0, .write 1] t ∧ t.handed = [(100, 1000), (100, 1000)] ∧ t.sz = 1100 := by
  have panics : ((Run.exec Heap.step [.enter 0 1000, .enter 1 1000, .read 0, .read 1, .alloc 0 9] (onePage 4096)).map
      fun t => (t.stage 1, (t.step (.alloc 1 9)).isNone)) = some (.started 1000 4096 4096, true) := by
    decide +kernel
  have overlaps : ((Run.exec Heap.step [.enter 0 1000, .enter 1 1000, .read 0, .read 1, .alloc 0 9, .alloc 1 9, .write 0,
      .write 1] (onePage 100)).map fun t => (t.handed, t.sz)) = some ([(100, 1000), (100, 1000)], 1100) := by
    decide +kernel
  obtain ⟨s, executed, first⟩ := Option.map_eq_some_iff.mp panics
  obtain ⟨t, executed', second⟩ := Option.map_eq_some_iff.mp overlaps
  rw [Prod.mk.injEq, Option.isNone_iff_eq_none] at first
  rw [Prod.mk.injEq] at second
  exact ⟨⟨s, Run.of_exec executed, first⟩, t, Run.of_exec executed', second⟩

end Xv6
