import Xv6.Verif.Copying
import Xv6.Verif.ExecCalls
import Xv6.Verif.Loading

/-!
# The arguments of a new image

The part of `exec` after the segments: the stack with its guard page, the strings from its top down and
the block of pointers below them. The user of the new image reads the argument vector back from the
stack pointer. The guard page is the only check that the arguments fit.
-/

namespace Xv6

namespace Vm

/-- `exec` from the base of the stack to the arguments: the size, or nothing for an exit to `bad`. -/
def readyStack (pgdir base : Nat) : Vm (Option Nat) := do
  let sz ← allocuvm pgdir base (uint (base + 2 * PGSIZE))
  if sz = 0 then pure none
  else do
    clearpteu pgdir (uint ((sz : Int) - 2 * PGSIZE))
    pure (some sz)

/-- The arguments of `exec`: the stack pointer, or nothing for an exit to `bad`. -/
def passArguments (pgdir sz : Nat) (argv : List (List UInt8)) : Vm (Option Nat) := do
  match ← pushArgs pgdir argv sz [] with
  | none => pure none
  | some (sp, pushed) =>
    let argc := pushed.length
    let ustack := [0xffffffff, argc, uint ((sp : Int) - (argc + 1) * 4)] ++ pushed ++ [0]
    let sp := uint ((sp : Int) - (3 + argc + 1) * 4)
    if ← copyout pgdir sp (ustack.flatMap wordBytes) then pure (some sp) else pure none

/-- `exec` from the arguments to the end of the stack: the size and the stack pointer, or nothing for an exit
to `bad`. -/
def passStack (pgdir : Nat) (argv : List (List UInt8)) : Option Nat → Vm (Option (Nat × Nat))
  | none => pure none
  | some sz => do
    match ← passArguments pgdir sz argv with
    | none => pure none
    | some sp => pure (some (sz, sp))

/-- `exec` from the ELF header to the arguments: the directory and the size, or nothing for an exit to
`bad`. -/
def readyImage (k : KernelImage) (readi : Contents) : Vm (Option (Nat × Nat)) := do
  match ← loadProgram k readi with
  | none => pure none
  | some (pgdir, sz) =>
    orFree pgdir do
      match ← readyStack pgdir (PGROUNDUP sz) with
      | none => pure none
      | some sz => pure (some (pgdir, sz))

/-- `exec` from the arguments to the commit, for a directory and a size. -/
def passImage (entry : Nat) (argv : List (List UInt8)) : Option (Nat × Nat) → Vm (Option ExecImage)
  | none => pure none
  | some (pgdir, sz) =>
    orFree pgdir do
      match ← passArguments pgdir sz argv with
      | none => pure none
      | some sp => pure (some ⟨pgdir, sz, entry, sp⟩)

end Vm

/-- The stack is there before its arguments are. -/
theorem pushStack_eq (pgdir base : Nat) (argv : List (List UInt8)) :
    Vm.pushStack pgdir base argv = Vm.readyStack pgdir base >>= Vm.passStack pgdir argv := by
  unfold Vm.pushStack Vm.readyStack
  rw [Program.bind_assoc]
  refine congrArg (Vm.allocuvm _ _ _ >>= ·) (funext fun sz => ?_)
  by_cases zero : sz = 0
  · rw [if_pos zero, if_pos zero]
    rfl
  · rw [if_neg zero, if_neg zero, Program.bind_assoc]
    refine congrArg (Vm.clearpteu _ _ >>= ·) (funext fun _ => ?_)
    rw [program_pure_bind, Vm.passStack, Vm.passArguments, Program.bind_assoc]
    refine congrArg (Vm.pushArgs _ _ _ _ >>= ·) (funext fun pushed => ?_)
    cases pushed with
    | none => rfl
    | some stack =>
      dsimp only
      rw [Program.bind_assoc]
      refine congrArg (Vm.copyout _ _ _ >>= ·) (funext fun copied => ?_)
      cases copied with
      | false => rfl
      | true => rfl

/-- `exec` passes the arguments to the image that is ready. -/
theorem loadImage_ready (k : KernelImage) (readi : Contents) (argv : List (List UInt8)) :
    Vm.loadImage k readi argv =
      Vm.readyImage k readi >>= Vm.passImage (fieldAt ((readi 0 elfhdrSize).getD []) 24 4) argv := by
  rw [loadImage_eq]
  unfold Vm.readyImage
  rw [Program.bind_assoc]
  refine congrArg (Vm.loadProgram _ _ >>= ·) (funext fun loaded => ?_)
  cases loaded with
  | none => rfl
  | some image =>
    obtain ⟨pgdir, sz⟩ := image
    dsimp only [Vm.pushImage]
    rw [pushStack_eq]
    unfold Vm.orFree
    simp only [Program.bind_assoc]
    refine congrArg (Vm.readyStack _ _ >>= ·) (funext fun ready => ?_)
    cases ready with
    | none => simp only [program_pure_bind, Program.bind_assoc, Vm.passStack, Vm.passImage]
    | some sz =>
      simp only [program_pure_bind, Vm.passStack, Vm.passImage, Vm.orFree, Program.bind_assoc]
      refine congrArg (Vm.passArguments _ _ _ >>= ·) (funext fun passed => ?_)
      cases passed with
      | none => rfl
      | some sp => rfl

/-! ## Reading an image -/

/-- The byte that the user reads at an address. -/
def Memory.userByte (m : Memory) (d va : Nat) : Option Nat := (m.userFrame d (va / PGSIZE)).map fun f => m.byte f (va % PGSIZE)

/-- The word that the user reads at an address, the lowest byte first. -/
def Memory.userWord (m : Memory) (d va : Nat) : Option Nat := do
  let byte₀ ← m.userByte d va
  let byte₁ ← m.userByte d (va + 1)
  let byte₂ ← m.userByte d (va + 2)
  let byte₃ ← m.userByte d (va + 3)
  pure (byte₀ + 2 ^ 8 * byte₁ + 2 ^ 16 * byte₂ + 2 ^ 24 * byte₃)

/-- The user reads these bytes from the address on. -/
def Memory.HasBytes (m : Memory) (d va : Nat) (bytes : List UInt8) : Prop :=
  ∀ j < bytes.length, m.userByte d (va + j) = some (bytes.getD j 0).toNat

/-- The user reads this string at the address: its bytes, none of which is 0, and a 0 after them. -/
def Memory.HasString (m : Memory) (d va : Nat) (arg : List UInt8) : Prop :=
  (∀ byte ∈ arg, byte ≠ 0) ∧ m.HasBytes d va (arg ++ [0])

/-- Only bytes at addresses of a range were written. -/
structure WritesWithin (m : Memory) (d low high : Nat) (m' : Memory) : Prop where
  free : m'.free = m.free
  same : SameTables m d m'
  /-- The other bytes. -/
  kept : ∀ f o, (∀ a, low ≤ a → a < high → ¬m.At d a f o) → m'.byte f o = m.byte f o
  /-- The pages that the user cannot access. -/
  words : ∀ g, (∀ pn < TABLEPAGES, m.userFrame d pn ≠ some g) → m'.word g = m.word g

section Reading

variable {m m' m₁ : Memory} {d va low high low' high' n w : Nat} {buf bytes more : List UInt8} {words : List Nat}

/-- Nothing was written. -/
theorem WritesWithin.refl : WritesWithin m d low high m := ⟨rfl, ⟨rfl, fun _ _ _ _ => rfl⟩, fun _ _ _ => rfl, fun _ _ => rfl⟩

/-- A larger range. -/
theorem WritesWithin.mono (writes : WritesWithin m d low high m') (start : low' ≤ low) (ends : high ≤ high') :
    WritesWithin m d low' high' m' :=
  ⟨writes.free, writes.same, fun f o outside => writes.kept f o fun a above below =>
    outside a (start.trans above) (Nat.lt_of_lt_of_le below ends), writes.words⟩

/-- One write after the other. -/
theorem WritesWithin.trans (first : WritesWithin m d low high m₁) (second : WritesWithin m₁ d low high m')
    (bound : high ≤ 2 ^ 32) : WritesWithin m d low high m' := by
  refine ⟨second.free.trans first.free, first.same.trans second.same, fun f o outside => ?_, fun g other => ?_⟩
  · rw [second.kept f o fun a above below here => ?_, first.kept f o outside]
    rw [first.same.at (Nat.lt_of_lt_of_le below bound)] at here
    exact outside a above below here
  · rw [second.words g fun pn inside => ?_, first.words g other]
    rw [first.same.userFrame inside]
    exact other pn inside

/-- `copyout` writes from its address on. -/
theorem CopiedBytes.within (copied : CopiedBytes m d va buf n m') (fits : va + n ≤ 2 ^ 32) :
    WritesWithin m d va (va + n) m' := by
  refine ⟨copied.free, copied.same, fun f o outside => copied.kept f o fun j low here => ?_, copied.words⟩
  rw [Nat.mod_eq_of_lt (by omega)] at here
  exact outside (va + j) (by omega) (by omega) here

/-- The user reads what was copied. -/
theorem CopiedBytes.hasBytes (copied : CopiedBytes m d va buf buf.length m') (fits : va + buf.length ≤ 2 ^ 32)
    (accessible : ∀ j < buf.length, m.Accessible d (va + j)) : m'.HasBytes d va buf := by
  intro j low
  have word : va + j < 2 ^ 32 := by omega
  obtain ⟨f, found⟩ := Option.isSome_iff_exists.mp (accessible j low)
  unfold Memory.userByte
  rw [copied.same.userFrame (address_page word), found, Option.map_some]
  refine congrArg some (copied.written j low f _ ⟨?_, ?_⟩)
  · rw [Nat.mod_eq_of_lt word]
    exact found
  · rw [Nat.mod_eq_of_lt word]

/-- The user reads the same byte outside of the range. -/
theorem WritesWithin.userByte (writes : WritesWithin m d low high m') (dir : UserDirectory m d) (bound : high ≤ 2 ^ 32)
    (word : va < 2 ^ 32) (outside : va < low ∨ high ≤ va) : m'.userByte d va = m.userByte d va := by
  unfold Memory.userByte
  rw [writes.same.userFrame (address_page word)]
  cases found : m.userFrame d (va / PGSIZE) with
  | none => rfl
  | some f =>
    refine congrArg some (writes.kept f _ fun a above below here => ?_)
    have same := dir.one_address (Nat.lt_of_lt_of_le below bound) word here ⟨found, rfl⟩
    omega

/-- The bytes outside of the range stay. -/
theorem Memory.HasBytes.kept (has : m.HasBytes d va bytes) (writes : WritesWithin m d low high m') (dir : UserDirectory m d)
    (bound : high ≤ 2 ^ 32) (word : va + bytes.length ≤ 2 ^ 32) (outside : va + bytes.length ≤ low ∨ high ≤ va) :
    m'.HasBytes d va bytes := by
  intro j inside
  rw [writes.userByte dir bound (by omega) (by omega)]
  exact has j inside

/-- The first of some bytes. -/
theorem Memory.HasBytes.left (has : m.HasBytes d va (bytes ++ more)) : m.HasBytes d va bytes := by
  intro j inside
  rw [has j (by rw [List.length_append]; omega), List.getD_append _ _ _ _ inside]

/-- The last of some bytes. -/
theorem Memory.HasBytes.right (has : m.HasBytes d va (bytes ++ more)) : m.HasBytes d (va + bytes.length) more := by
  intro j inside
  rw [Nat.add_assoc, has _ (by rw [List.length_append]; omega), List.getD_append_right _ _ _ _ (Nat.le_add_right ..),
    Nat.add_sub_cancel_left]

/-- A word whose bytes are there. -/
theorem Memory.HasBytes.userWord (has : m.HasBytes d va (wordBytes w)) (small : w < 2 ^ 32) : m.userWord d va = some w := by
  have byte : ∀ j < 4, m.userByte d (va + j) = some (w / 2 ^ (8 * j) % 2 ^ 8) := by
    intro j low
    rw [has j low]
    have places : j = 0 ∨ j = 1 ∨ j = 2 ∨ j = 3 := by omega
    rcases places with rfl | rfl | rfl | rfl
    · simp [wordBytes]
    · simp [wordBytes]
    · simp [wordBytes]
    · simp [wordBytes]
  have first := byte 0 (by decide)
  rw [Nat.add_zero] at first
  unfold Memory.userWord
  rw [first, byte 1 (by decide), byte 2 (by decide), byte 3 (by decide)]
  refine congrArg some ?_
  omega

/-- The words whose bytes are there. -/
theorem Memory.HasBytes.userWords (small : ∀ w ∈ words, w < 2 ^ 32) : ∀ {va : Nat},
    m.HasBytes d va (words.flatMap wordBytes) → ∀ i < words.length, m.userWord d (va + 4 * i) = some (words.getD i 0) := by
  induction words with
  | nil => exact fun _ i inside => absurd inside (Nat.not_lt_zero i)
  | cons w rest ih =>
    intro va has i inside
    rw [List.flatMap_cons] at has
    cases i with
    | zero => exact has.left.userWord (small w List.mem_cons_self)
    | succ i =>
      have later := ih (fun w' member => small w' (List.mem_cons_of_mem w member)) has.right i (Nat.lt_of_succ_lt_succ inside)
      rw [List.getD_cons_succ, ← later]
      refine congrArg (m.userWord d) ?_
      have four : (wordBytes w).length = 4 := rfl
      omega

end Reading

/-! ## The layout of the stack -/

/-- The bytes that a string takes on the stack, with its end and rounded up to words. -/
def copySize (arg : List UInt8) : Nat := (arg.length + 1 + 3) / 4 * 4

/-- The bytes that the strings take. -/
def stringsSize (argv : List (List UInt8)) : Nat := (argv.map copySize).sum

/-- The bytes that the strings and the block of pointers take. -/
def argsSize (argv : List (List UInt8)) : Nat := stringsSize argv + (3 + argv.length + 1) * 4

/-- The addresses of the strings, from an address down. -/
def pointersFrom : Nat → List (List UInt8) → List Nat
  | _, [] => []
  | sp, arg :: rest => (sp - copySize arg) :: pointersFrom (sp - copySize arg) rest

/-- A new image before the arguments: the page at its top is the stack and the one below it the guard. -/
structure Stacked (m : Memory) (d sz : Nat) : Prop where
  /-- The pages that the user can access are the directory's own. -/
  dir : UserDirectory m d
  /-- They are user pages. -/
  user : ∀ pn < TABLEPAGES, ∀ f, m.userFrame d pn = some f → pn < USERPAGES
  /-- The image is one of whole pages. -/
  whole : sz % PGSIZE = 0
  /-- It has two pages at least. -/
  low : 2 * PGSIZE ≤ sz
  /-- It is below the kernel. -/
  high : sz < KERNBASE
  /-- The user can access the stack. -/
  stack : ∀ a, sz - PGSIZE ≤ a → a < sz → m.Accessible d a
  /-- The user cannot access the guard page. -/
  guard : ∀ a, sz - 2 * PGSIZE ≤ a → a < sz - PGSIZE → ¬m.Accessible d a
  /-- Every address of the image has a page table. -/
  tables : ∀ a < sz, m.HasTable d a

/-- What the user reads from the stack pointer on: the arguments and nothing else has changed. -/
structure PassedArguments (m : Memory) (d sz : Nat) (argv : List (List UInt8)) (sp table : Nat) (pointers : List Nat)
    (m' : Memory) : Prop where
  pc : m'.userWord d sp = some 0xffffffff
  /-- The number of the strings. -/
  argc : m'.userWord d (sp + 4) = some argv.length
  /-- The address of the block of pointers. -/
  block : m'.userWord d (sp + 8) = some table
  pointer : ∀ i < argv.length, m'.userWord d (table + 4 * i) = some (pointers.getD i 0)
  /-- The end of the block. -/
  last : m'.userWord d (table + 4 * argv.length) = some 0
  /-- The strings begin at words. -/
  aligned : ∀ i < argv.length, pointers.getD i 0 % 4 = 0
  strings : ∀ i < argv.length, m'.HasString d (pointers.getD i 0) (argv.getD i [])
  /-- The block is on the stack, after the three words. -/
  stack : sz - PGSIZE ≤ sp ∧ sp + 12 ≤ table
  /-- The strings are on the stack, after the block. -/
  after : ∀ i < argv.length, table + 4 * (argv.length + 1) ≤ pointers.getD i 0 ∧
    pointers.getD i 0 + (argv.getD i []).length + 1 ≤ sz
  /-- They do not overlap. -/
  apart : ∀ i < argv.length, ∀ j < i, pointers.getD i 0 + (argv.getD i []).length + 1 ≤ pointers.getD j 0
  /-- Only bytes of the stack page were written. -/
  kept : ∀ f o, m'.byte f o ≠ m.byte f o → m.userFrame d (sz / PGSIZE - 1) = some f
  /-- The directory has the same page tables. -/
  same : SameTables m d m'

section Layout

variable {k : KernelImage} {m m' m₁ : Memory} {d sz sp va : Nat} {arg : List UInt8} {argv : List (List UInt8)}

/-- Where a string is put. -/
theorem push_address (aligned : sp % 4 = 0) (room : copySize arg ≤ sp) (word : sp < 2 ^ 32) :
    uint ((sp : Int) - (arg.length + 1)) / 4 * 4 = sp - copySize arg := by
  unfold copySize at *
  unfold uint
  omega

/-- A string takes its bytes and three more at most. -/
theorem copySize_bounds (arg : List UInt8) : arg.length + 1 ≤ copySize arg ∧ copySize arg ≤ arg.length + 4 ∧ copySize arg % 4 = 0 := by
  unfold copySize
  omega

/-- The bytes of the first string and of the others. -/
theorem stringsSize_cons : stringsSize (arg :: argv) = copySize arg + stringsSize argv := rfl

/-- There is an address for each string. -/
theorem pointersFrom_length (argv : List (List UInt8)) : ∀ sp, (pointersFrom sp argv).length = argv.length := by
  induction argv with
  | nil => exact fun _ => rfl
  | cons arg rest ih => exact fun sp => congrArg (· + 1) (ih _)

/-- No string is above the address. -/
theorem pointersFrom_le (argv : List (List UInt8)) : ∀ {sp : Nat}, ∀ pointer ∈ pointersFrom sp argv, pointer ≤ sp := by
  induction argv with
  | nil => exact fun pointer member => absurd member List.not_mem_nil
  | cons arg rest ih =>
    intro sp pointer member
    rcases List.mem_cons.mp member with rfl | later
    · exact Nat.sub_le ..
    · exact (ih pointer later).trans (Nat.sub_le ..)

/-- The strings lie one below the other. -/
theorem pointersFrom_spec (argv : List (List UInt8)) : ∀ {sp : Nat}, sp % 4 = 0 → stringsSize argv ≤ sp → ∀ i < argv.length,
    (pointersFrom sp argv).getD i 0 % 4 = 0 ∧ sp - stringsSize argv ≤ (pointersFrom sp argv).getD i 0 ∧
      (pointersFrom sp argv).getD i 0 + (argv.getD i []).length + 1 ≤ sp ∧
      ∀ j < i, (pointersFrom sp argv).getD i 0 + (argv.getD i []).length + 1 ≤ (pointersFrom sp argv).getD j 0 := by
  induction argv with
  | nil => exact fun _ _ i inside => absurd inside (Nat.not_lt_zero i)
  | cons arg rest ih =>
    intro sp aligned room i inside
    rw [stringsSize_cons] at room ⊢
    obtain ⟨most, _, whole⟩ := copySize_bounds arg
    unfold pointersFrom
    cases i with
    | zero =>
      rw [List.getD_cons_zero, List.getD_cons_zero]
      exact ⟨by omega, by omega, by omega, fun j low => absurd low (Nat.not_lt_zero j)⟩
    | succ i =>
      rw [List.getD_cons_succ, List.getD_cons_succ]
      obtain ⟨aligned', above, below, apart⟩ := @ih (sp - copySize arg) (by omega) (by omega) i (Nat.lt_of_succ_lt_succ inside)
      refine ⟨aligned', by omega, by omega, fun j low => ?_⟩
      cases j with
      | zero => exact below
      | succ j => exact apart j (Nat.lt_of_succ_lt_succ low)

/-- The stack as long as the page tables and the free pages are the same. -/
theorem Stacked.congr (stacked : Stacked m d sz) (writes : WritesWithin m d sp va m') : Stacked m' d sz := by
  have below : ∀ a < sz, a / PGSIZE < TABLEPAGES := fun a inside =>
    address_page (Nat.lt_trans inside (Nat.lt_trans stacked.high (by decide)))
  have accessible : ∀ a < sz, m'.Accessible d a ↔ m.Accessible d a := by
    intro a inside
    unfold Memory.Accessible
    rw [writes.same.userFrame (below a inside)]
  refine ⟨stacked.dir.congr writes.free writes.same, fun pn inside f found => ?_, stacked.whole, stacked.low, stacked.high,
    fun a above inside => (accessible a inside).mpr (stacked.stack a above inside), fun a above inside => ?_, fun a inside => ?_⟩
  · rw [writes.same.userFrame inside] at found
    exact stacked.user pn inside f found
  · rw [accessible a (by omega)]
    exact stacked.guard a above inside
  · unfold Memory.HasTable
    rw [writes.same.1]
    exact stacked.tables a inside

/-- `copyout` to the stack. -/
theorem Stacked.copies (stacked : Stacked m d sz) (buf : List UInt8) (above : sz - PGSIZE ≤ va) (inside : va + buf.length ≤ sz) :
    Returns k (Vm.copyout d va buf) m fun r m' =>
      r = true ∧ WritesWithin m d va (va + buf.length) m' ∧ m'.HasBytes d va buf := by
  have high : sz < 2 ^ 32 := Nat.lt_trans stacked.high (by decide)
  by_cases empty : buf.length = 0
  · unfold Vm.copyout
    rw [empty]
    exact Returns.pure ⟨rfl, .refl, fun j wrong => absurd wrong (by omega)⟩
  · have accessible : ∀ j < buf.length, m.Accessible d (va + j) := fun j some =>
      stacked.stack (va + j) (by omega) (by omega)
    have upto : AccessibleUpto m d va buf.length buf.length := by
      refine ⟨Nat.le_refl _, fun j some => ?_, fun wrong => absurd wrong (Nat.lt_irrefl _)⟩
      rw [Nat.mod_eq_of_lt (by omega)]
      exact accessible j some
    refine (copyoutLoop_copies buf.length stacked.dir (by omega) (by omega) (Nat.le_refl _) upto
      fun wrong => absurd wrong (Nat.lt_irrefl _)).mono fun r m' known => ?_
    obtain ⟨result, copied⟩ := known
    exact ⟨result.trans (decide_eq_true rfl), copied.within (by omega), copied.hasBytes (by omega) accessible⟩

/-- `copyout` to the last words of the guard page, or over its end. -/
theorem Stacked.refuses (stacked : Stacked m d sz) (buf : List UInt8) (below : va < sz - PGSIZE) (some_bytes : 0 < buf.length)
    (reaches : sz - PGSIZE < va + buf.length + 4) (inside : va + buf.length ≤ sz) :
    Returns k (Vm.copyout d va buf) m fun r m' => r = false ∧ WritesWithin m d 0 sz m' := by
  have high : sz < 2 ^ 32 := Nat.lt_trans stacked.high (by decide)
  have low := stacked.low
  obtain ⟨n, upto⟩ := exists_accessibleUpto m d va buf.length
  have within := upto.1
  have short : n ≠ buf.length := by
    intro all
    obtain ⟨j, here, more, before⟩ : ∃ j < buf.length, sz - PGSIZE < va + j + 5 ∧ va + j < sz - PGSIZE := by
      by_cases crosses : sz - PGSIZE ≤ va + buf.length
      · exact ⟨sz - PGSIZE - 1 - va, by omega, by omega, by omega⟩
      · exact ⟨buf.length - 1, by omega, by omega, by omega⟩
    have guard : sz - 2 * PGSIZE ≤ va + j := by
      unfold PGSIZE at *
      omega
    have last := upto.2.1 j (by omega)
    rw [Nat.mod_eq_of_lt (by omega)] at last
    exact stacked.guard _ guard before last
  refine (copyoutLoop_copies buf.length stacked.dir (by omega) (by omega) (Nat.le_refl _) upto fun more => ?_).mono
    fun r m' known => ?_
  · rw [Nat.mod_eq_of_lt (by omega)]
    exact stacked.tables _ (by omega)
  · obtain ⟨result, copied⟩ := known
    exact ⟨result.trans (decide_eq_false short), (copied.within (by omega)).mono (Nat.zero_le va) (by omega)⟩

end Layout

/-! ## Passing the arguments -/

section Passing

variable {k : KernelImage} {m m' : Memory} {d sz : Nat} {argv : List (List UInt8)}

/-- The loop over arguments that fit. -/
theorem pushArgs_fits (argv : List (List UInt8)) : ∀ {sp : Nat} {pushed : List Nat} {m : Memory}, Stacked m d sz →
    pushed.length + argv.length ≤ MAXARG → sp % 4 = 0 → sp ≤ sz → sz - PGSIZE + stringsSize argv ≤ sp →
    (∀ arg ∈ argv, ∀ byte ∈ arg, byte ≠ 0) →
    Returns k (Vm.pushArgs d argv sp pushed) m fun r m' =>
      r = some (sp - stringsSize argv, pushed ++ pointersFrom sp argv) ∧ WritesWithin m d (sp - stringsSize argv) sp m' ∧
        ∀ i < argv.length, m'.HasString d ((pointersFrom sp argv).getD i 0) (argv.getD i []) := by
  induction argv with
  | nil =>
    intro sp pushed m _ _ _ _ _ _
    exact Returns.pure ⟨by rw [pointersFrom, List.append_nil]; rfl, .refl, fun i wrong => absurd wrong (Nat.not_lt_zero i)⟩
  | cons arg rest ih =>
    intro sp pushed m stacked few aligned upto room strings
    have high : sz < 2 ^ 32 := Nat.lt_trans stacked.high (by decide)
    obtain ⟨most, _, whole⟩ := copySize_bounds arg
    rw [stringsSize_cons] at room ⊢
    rw [List.length_cons] at few
    have length : (arg ++ [0]).length = arg.length + 1 := List.length_append
    unfold Vm.pushArgs
    rw [if_neg (by omega), push_address aligned (by omega) (by omega)]
    refine .bind (stacked.copies (arg ++ [0]) (show sz - PGSIZE ≤ sp - copySize arg by omega) (by omega)) fun r m₁ known => ?_
    obtain ⟨rfl, writes, has⟩ := known
    have stacked₁ := stacked.congr writes
    rw [if_pos rfl]
    refine (ih stacked₁ (by rw [List.length_append, List.length_singleton]; omega) (by omega) (by omega) (by omega)
      fun arg' member => strings arg' (List.mem_cons_of_mem arg member)).mono fun r m' known => ?_
    obtain ⟨result, later, others⟩ := known
    have last : sp - copySize arg - stringsSize rest = sp - (copySize arg + stringsSize rest) := by omega
    rw [last] at result later
    refine ⟨?_, ?_, fun i inside => ?_⟩
    · rw [result, pointersFrom, List.append_assoc, List.singleton_append]
    · exact (writes.mono (by omega) (by omega)).trans (later.mono (Nat.le_refl _) (by omega)) (by omega)
    · unfold pointersFrom
      cases i with
      | zero =>
        refine ⟨strings arg List.mem_cons_self, has.kept later stacked₁.dir (by omega) ?_ (.inr (Nat.le_refl _))⟩
        omega
      | succ i => exact others i (Nat.lt_of_succ_lt_succ inside)

/-- The loop over arguments that go beyond the stack page. -/
theorem pushArgs_refuses (argv : List (List UInt8)) : ∀ {sp : Nat} {pushed : List Nat} {m : Memory}, Stacked m d sz →
    pushed.length + argv.length ≤ MAXARG → sp % 4 = 0 → sp ≤ sz → sz - PGSIZE ≤ sp → stringsSize argv ≤ sp →
    sp < sz - PGSIZE + stringsSize argv →
    Returns k (Vm.pushArgs d argv sp pushed) m fun r m' => r = none ∧ WritesWithin m d 0 sz m' := by
  induction argv with
  | nil =>
    intro sp pushed m _ _ _ _ above _ beyond
    have none : stringsSize ([] : List (List UInt8)) = 0 := rfl
    omega
  | cons arg rest ih =>
    intro sp pushed m stacked few aligned upto above room beyond
    have high : sz < 2 ^ 32 := Nat.lt_trans stacked.high (by decide)
    obtain ⟨most, least, words⟩ := copySize_bounds arg
    rw [stringsSize_cons] at room beyond
    rw [List.length_cons] at few
    have length : (arg ++ [0]).length = arg.length + 1 := List.length_append
    unfold Vm.pushArgs
    rw [if_neg (by omega), push_address aligned (by omega) (by omega)]
    by_cases fits : sz - PGSIZE ≤ sp - copySize arg
    · refine .bind (stacked.copies (arg ++ [0]) fits (by omega)) fun r m₁ known => ?_
      obtain ⟨rfl, writes, _⟩ := known
      rw [if_pos rfl]
      refine (ih (stacked.congr writes) (by rw [List.length_append, List.length_singleton]; omega) (by omega) (by omega) fits
        (by omega) (by omega)).mono fun r m' known => ?_
      exact ⟨known.1, (writes.mono (Nat.zero_le _) (by omega)).trans known.2 (by omega)⟩
    · -- the copy ends less than a word below the one before, so it reaches the guard page's last word
      refine .bind (stacked.refuses (arg ++ [0]) (Nat.lt_of_not_le fits) (by omega) (by omega) (by omega))
        fun r m₁ known => ?_
      obtain ⟨rfl, writes⟩ := known
      exact Returns.pure ⟨rfl, writes⟩

/-- The words of the block of pointers. -/
def ustackOf (table : Nat) (pointers : List Nat) : List Nat := [0xffffffff, pointers.length, table] ++ pointers ++ [0]

/-- The bytes of the block. -/
theorem ustackOf_length (table : Nat) (pointers : List Nat) :
    ((ustackOf table pointers).flatMap wordBytes).length = (3 + pointers.length + 1) * 4 := by
  have bytes : ∀ words : List Nat, (words.flatMap wordBytes).length = words.length * 4 := by
    intro words
    induction words with
    | nil => rfl
    | cons w rest ih =>
      rw [List.flatMap_cons, List.length_append, ih, List.length_cons]
      show 4 + rest.length * 4 = _
      omega
  rw [bytes]
  unfold ustackOf
  rw [List.length_append, List.length_append]
  rfl

/-- The words of the block. -/
theorem ustackOf_getD (table : Nat) (pointers : List Nat) : (ustackOf table pointers).length = 3 + pointers.length + 1 ∧
    (∀ i < pointers.length, (ustackOf table pointers).getD (3 + i) 0 = pointers.getD i 0) ∧
      (ustackOf table pointers).getD (3 + pointers.length) 0 = 0 := by
  have front : ustackOf table pointers = [0xffffffff, pointers.length, table] ++ (pointers ++ [0]) := List.append_assoc ..
  have three : [0xffffffff, pointers.length, table].length = 3 := rfl
  refine ⟨?_, fun i inside => ?_, ?_⟩
  · rw [front, List.length_append, List.length_append, three, List.length_singleton]
    omega
  · rw [front, List.getD_append_right _ _ _ _ (by omega), three, Nat.add_sub_cancel_left, List.getD_append _ _ _ _ inside]
  · rw [front, List.getD_append_right _ _ _ _ (by omega), three, Nat.add_sub_cancel_left,
      List.getD_append_right _ _ _ _ (Nat.le_refl _), Nat.sub_self]
    rfl

/-- The stack pointer and the address of the block of pointers. -/
theorem block_address (room : argsSize argv ≤ sz) (word : sz < 2 ^ 32) :
    uint (((sz - stringsSize argv : Nat) : Int) - (argv.length + 1) * 4) = sz - argsSize argv + 12 ∧
      uint (((sz - stringsSize argv : Nat) : Int) - (3 + argv.length + 1) * 4) = sz - argsSize argv := by
  unfold argsSize at *
  unfold uint
  omega

/-- The block of the pointers of some arguments. -/
theorem ustackOf_pointers (table : Nat) (argv : List (List UInt8)) :
    [0xffffffff, argv.length, table] ++ pointersFrom sz argv ++ [0] = ustackOf table (pointersFrom sz argv) := by
  unfold ustackOf
  rw [pointersFrom_length]

/-- What the user reads when the strings and the block have been copied. -/
theorem PassedArguments.of_copies {m₁ : Memory} (stacked : Stacked m d sz) (few : argv.length ≤ MAXARG)
    (fits : argsSize argv ≤ PGSIZE) (first : WritesWithin m d (sz - stringsSize argv) sz m₁)
    (strings : ∀ i < argv.length, m₁.HasString d ((pointersFrom sz argv).getD i 0) (argv.getD i []))
    (second : WritesWithin m₁ d (sz - argsSize argv) (sz - stringsSize argv) m')
    (block : m'.HasBytes d (sz - argsSize argv) ((ustackOf (sz - argsSize argv + 12) (pointersFrom sz argv)).flatMap wordBytes)) :
    PassedArguments m d sz argv (sz - argsSize argv) (sz - argsSize argv + 12) (pointersFrom sz argv) m' := by
  have high : sz < 2 ^ 32 := Nat.lt_trans stacked.high (by decide)
  have low := stacked.low
  have page := stacked.whole
  have dir₁ := (stacked.congr first).dir
  have count := pointersFrom_length argv sz
  have size : argsSize argv = stringsSize argv + (3 + argv.length + 1) * 4 := rfl
  have aligned : sz % 4 = 0 := by
    unfold PGSIZE at page
    omega
  have layout := pointersFrom_spec argv aligned (by omega)
  obtain ⟨length, middle, last⟩ := ustackOf_getD (sz - argsSize argv + 12) (pointersFrom sz argv)
  rw [count] at length middle last
  have small : ∀ w ∈ ustackOf (sz - argsSize argv + 12) (pointersFrom sz argv), w < 2 ^ 32 := by
    intro w member
    unfold ustackOf at member
    simp only [List.mem_append, List.mem_cons, List.not_mem_nil, or_false] at member
    rcases member with ((rfl | rfl | rfl) | pointer) | rfl
    · decide
    · unfold MAXARG at few
      omega
    · omega
    · exact Nat.lt_of_le_of_lt (pointersFrom_le argv w pointer) high
    · decide
  have words := block.userWords small
  rw [length] at words
  have three := words 0 (by omega)
  have argc := words 1 (by omega)
  have table := words 2 (by omega)
  have writes : WritesWithin m d (sz - PGSIZE) sz m' :=
    (first.mono (by omega) (Nat.le_refl sz)).trans (second.mono (by omega) (Nat.sub_le ..)) (Nat.le_of_lt high)
  refine ⟨three, ?_, table, fun i inside => ?_, ?_, fun i inside => (layout i inside).1, fun i inside => ?_, ⟨by omega, Nat.le_refl _⟩,
    fun i inside => ?_, fun i inside => (layout i inside).2.2.2, fun f o changed => ?_, writes.same⟩
  · rw [← count]
    exact argc
  · rw [← middle i inside, ← words (3 + i) (by omega)]
    refine congrArg (m'.userWord d) ?_
    omega
  · rw [← last, ← words (3 + argv.length) (by omega)]
    refine congrArg (m'.userWord d) ?_
    omega
  · obtain ⟨_, above, below, _⟩ := layout i inside
    have end' : (argv.getD i [] ++ [0]).length = (argv.getD i []).length + 1 := List.length_append
    exact ⟨(strings i inside).1, (strings i inside).2.kept second dir₁ (by omega) (by omega) (.inr above)⟩
  · obtain ⟨_, above, below, _⟩ := layout i inside
    exact ⟨by omega, below⟩
  · by_contra outside
    refine changed (writes.kept f o fun a above below here => outside ?_)
    have same : a / PGSIZE = sz / PGSIZE - 1 := by
      unfold PGSIZE at *
      omega
    rw [← same]
    exact here.1

/-- The arguments of a new image, when they fit. -/
theorem Stacked.passes (stacked : Stacked m d sz) (few : argv.length ≤ MAXARG) (strings : ∀ arg ∈ argv, ∀ byte ∈ arg, byte ≠ 0)
    (fits : argsSize argv ≤ PGSIZE) : Returns k (Vm.passArguments d sz argv) m fun r m' =>
      ∃ sp table pointers, r = some sp ∧ PassedArguments m d sz argv sp table pointers m' := by
  have high : sz < 2 ^ 32 := Nat.lt_trans stacked.high (by decide)
  have low := stacked.low
  have size : argsSize argv = stringsSize argv + (3 + argv.length + 1) * 4 := rfl
  have aligned : sz % 4 = 0 := by
    have whole := stacked.whole
    unfold PGSIZE at whole
    omega
  obtain ⟨table, bottom⟩ := block_address (show argsSize argv ≤ sz by omega) high
  have length := ustackOf_length (sz - argsSize argv + 12) (pointersFrom sz argv)
  rw [pointersFrom_length] at length
  unfold Vm.passArguments
  refine .bind (pushArgs_fits argv stacked (Nat.le_trans (Nat.le_of_eq (Nat.zero_add _)) few) aligned (Nat.le_refl sz) (by omega)
    strings) fun r m₁ known => ?_
  obtain ⟨rfl, writes, has⟩ := known
  rw [List.nil_append]
  dsimp only
  rw [pointersFrom_length, table, bottom, ustackOf_pointers]
  refine .bind ((stacked.congr writes).copies _ (by omega) (by omega)) fun r m₂ known => ?_
  obtain ⟨rfl, second, block⟩ := known
  have ends : sz - argsSize argv + (3 + argv.length + 1) * 4 = sz - stringsSize argv := by omega
  rw [length, ends] at second
  exact Returns.pure ⟨_, _, _, rfl, .of_copies stacked few fits writes has second block⟩

/-- The arguments of a new image, when they do not fit but are no longer than the image. -/
theorem Stacked.exceeds (stacked : Stacked m d sz) (few : argv.length ≤ MAXARG) (strings : ∀ arg ∈ argv, ∀ byte ∈ arg, byte ≠ 0)
    (beyond : PGSIZE < argsSize argv) (room : argsSize argv ≤ sz) :
    Returns k (Vm.passArguments d sz argv) m fun r m' => r = none ∧ WritesWithin m d 0 sz m' := by
  have high : sz < 2 ^ 32 := Nat.lt_trans stacked.high (by decide)
  have low := stacked.low
  have size : argsSize argv = stringsSize argv + (3 + argv.length + 1) * 4 := rfl
  have aligned : sz % 4 = 0 := by
    have whole := stacked.whole
    unfold PGSIZE at whole
    omega
  have count : ([] : List Nat).length + argv.length ≤ MAXARG := Nat.le_trans (Nat.le_of_eq (Nat.zero_add _)) few
  obtain ⟨table, bottom⟩ := block_address room high
  have length := ustackOf_length (sz - argsSize argv + 12) (pointersFrom sz argv)
  rw [pointersFrom_length] at length
  unfold Vm.passArguments
  by_cases fits : stringsSize argv ≤ PGSIZE
  · refine .bind (pushArgs_fits argv stacked count aligned (Nat.le_refl sz) (by omega) strings) fun r m₁ known => ?_
    obtain ⟨rfl, writes, _⟩ := known
    rw [List.nil_append]
    dsimp only
    rw [pointersFrom_length, table, bottom, ustackOf_pointers]
    refine .bind ((stacked.congr writes).refuses _ (by omega) (by omega) (by omega) (by omega)) fun r m₂ known => ?_
    obtain ⟨rfl, second⟩ := known
    exact Returns.pure ⟨rfl, (writes.mono (Nat.zero_le _) (Nat.le_refl sz)).trans second (Nat.le_of_lt high)⟩
  · refine .bind (pushArgs_refuses argv stacked count aligned (Nat.le_refl sz) (Nat.sub_le ..) (by omega) (by omega)) fun r m₁ known => ?_
    obtain ⟨rfl, writes⟩ := known
    exact Returns.pure ⟨rfl, writes⟩

end Passing

/-! ## The image before the arguments -/

section Readying

variable {k : KernelImage} {m m' m₀ : Memory} {owner owner₀ : Nat → Owner} {d f pn sz low high : Nat} {file : List UInt8}
  {loaded : List Segment}

/-- The frame of a page that the user can access is the one of its entry. -/
theorem Memory.userFrame_some (found : m.userFrame d pn = some f) : ∃ w, m.mapping d pn = some w ∧ w / PTE_U % 2 ≠ 0 ∧ w / PGSIZE = f := by
  obtain ⟨w, mapped, frame⟩ := Option.map_eq_some_iff.mp found
  obtain ⟨entry, accessible⟩ := Option.filter_eq_some_iff.mp mapped
  exact ⟨w, entry, of_decide_eq_true accessible, frame⟩

/-- The frame of a page whose entry is for the user. -/
theorem Memory.userFrame_mapped {w : Nat} (mapped : m.mapping d pn = some w) (user : w / PTE_U % 2 ≠ 0) :
    m.userFrame d pn = some (w / PGSIZE) := by
  unfold Memory.userFrame
  rw [mapped, Option.filter_some_pos (by simp [user])]
  rfl

/-- The image reaches to the end of its last page. -/
theorem Loading.roundup (loading : Loading k m₀ owner₀ d file loaded sz m owner) (room : PGROUNDUP sz < KERNBASE) :
    Loading k m₀ owner₀ d file loaded (PGROUNDUP sz) m owner := by
  have rounded := PGROUNDUP_below loading.low
  refine ⟨loading.owners, loading.populated, room, fun pn user => ?_, loading.user, loading.hidden, fun s member => ?_, loading.bytes,
    loading.kept⟩
  · rw [loading.mapped pn user, rounded]
    unfold PGSIZE
    omega
  · have within := loading.within s member
    rw [rounded]
    unfold PGSIZE
    omega

/-- Writes to user pages of the new directory. -/
theorem Abandoned.writes (abandoned : Abandoned k m₀ owner₀ d m) (stacked : Stacked m d sz) (writes : WritesWithin m d low high m') :
    Abandoned k m₀ owner₀ d m' := by
  obtain ⟨owner, owners, populated, kept⟩ := abandoned
  have words : ∀ g, (∀ pn, owner g ≠ .page d pn) → m'.word g = m.word g := by
    refine fun g other => writes.words g fun pn inside found => ?_
    obtain ⟨w, mapped, _, rfl⟩ := Memory.userFrame_some found
    exact other pn (owners.mapping_page populated.dir (stacked.user pn inside _ found) mapped)
  obtain ⟨owners', mappings⟩ := owners.fill writes.free fun g other => words g (other d)
  refine ⟨owner, owners', ⟨populated.was, populated.dir, populated.owners, fun d' live q inside => ?_⟩, fun g used outside => ?_⟩
  · rw [mappings d' (populated.live live) q inside, populated.mapping d' live q inside]
  · rw [words g fun pn page => outside (.inr (.inr ⟨pn, page⟩)), kept g used outside]

/-- The page below the stack is made the guard page. -/
theorem Loading.stacked {t : Nat} (loading : Loading k m₀ owner₀ d file loaded sz m owner) (whole : sz % PGSIZE = 0)
    (pages : 2 * PGSIZE ≤ sz) (here : pn = sz / PGSIZE - 2) (named : frameOf (m.word d (pn / NPDENTRIES)) = some t) :
    Abandoned k m₀ owner₀ d (m.set t (pn % NPDENTRIES) (withoutUser (m.word t (pn % NPDENTRIES)))) ∧
      Stacked (m.set t (pn % NPDENTRIES) (withoutUser (m.word t (pn % NPDENTRIES)))) d sz := by
  have live := loading.populated.dir
  have own := loading.owners.ownPages live
  have below := loading.low
  have user : pn < USERPAGES := by
    unfold USERPAGES
    unfold KERNBASE PGSIZE at *
    omega
  have table : owner t = .table d (pn / NPDENTRIES) := (loading.owners.table t d _).mpr ⟨user_index user, 0, live, Nat.zero_le _, named⟩
  have dir : (m.set t (pn % NPDENTRIES) (withoutUser (m.word t (pn % NPDENTRIES)))).word d = m.word d :=
    Memory.set_other (Ne.symm (own.table _ (user_index user) t named).2)
  obtain ⟨own', mapping⟩ := own.cleared (user_inside user) named
  have same : frameOf (withoutUser (m.word t (pn % NPDENTRIES))) = frameOf (m.word t (pn % NPDENTRIES)) := by
    unfold frameOf
    rw [present_withoutUser, withoutUser_frame]
  have owners' := loading.owners.rewriteEntry same
  have page : ∀ a < sz, a / PGSIZE < USERPAGES := by
    intro a inside
    unfold USERPAGES
    unfold KERNBASE PGSIZE at *
    omega
  have mapped : ∀ a < sz, ∃ w, m.mapping d (a / PGSIZE) = some w := by
    intro a inside
    refine Option.isSome_iff_exists.mp ((loading.mapped _ (page a inside)).mpr ?_)
    have down := Nat.div_mul_le_self a PGSIZE
    omega
  refine ⟨⟨owner, owners', ⟨loading.populated.was, live, loading.populated.owners, fun d' live' q inside => ?_⟩, fun g used outside => ?_⟩,
    own'.userDirectory fun q inside high w found => ?_, fun q inside f found => ?_, whole, pages, below, fun a above inside => ?_,
    fun a above inside => ?_, fun a inside => ?_⟩
  · rw [loading.owners.set_mapping table (loading.populated.live live') inside (.inl (loading.populated.apart live')),
      loading.populated.mapping d' live' q inside]
  · rw [Memory.set_other, loading.kept g used outside]
    rintro rfl
    exact outside (.inr (.inl ⟨_, table⟩))
  · rw [mapping q inside, if_neg (by omega)] at found
    exact loading.hidden q inside high w found
  · obtain ⟨w, found', accessible, _⟩ := Memory.userFrame_some found
    by_contra high
    rw [mapping q inside, if_neg (by omega)] at found'
    exact accessible (loading.hidden q inside (Nat.le_of_not_lt high) w found')
  · obtain ⟨w, entry⟩ := mapped a inside
    have other : a / PGSIZE ≠ pn := by
      unfold PGSIZE at *
      omega
    have found := mapping _ (user_inside (page a inside))
    rw [if_neg other, entry] at found
    unfold Memory.Accessible
    rw [Memory.userFrame_mapped found (loading.user _ (page a inside) w entry)]
    rfl
  · have guard : a / PGSIZE = pn := by
      unfold PGSIZE at *
      omega
    intro accessible
    obtain ⟨f, found⟩ := Option.isSome_iff_exists.mp accessible
    obtain ⟨w, found', user', _⟩ := Memory.userFrame_some found
    rw [guard, mapping pn (user_inside user), if_pos rfl] at found'
    obtain ⟨old, _, rfl⟩ := Option.map_eq_some_iff.mp found'
    exact user' (withoutUser_user old)
  · obtain ⟨w, entry⟩ := mapped a inside
    obtain ⟨t', named', _⟩ := Memory.mapping_some entry
    unfold Memory.HasTable
    rw [dir, named']
    rfl

/-- The stack and its guard page. -/
theorem Loading.readies (loading : Loading k m₀ owner₀ d file loaded sz m owner) :
    Returns k (Vm.readyStack d (PGROUNDUP sz)) m fun r m' => Abandoned k m₀ owner₀ d m' ∧ ∀ sz', r = some sz' → Stacked m' d sz' := by
  have rounded := PGROUNDUP_below loading.low
  have below := loading.low
  have sum : uint ((PGROUNDUP sz : Nat) + 2 * PGSIZE) = PGROUNDUP sz + 2 * PGSIZE := by
    rw [rounded]
    unfold KERNBASE PGSIZE at *
    unfold uint
    omega
  have bad : ∀ {m' : Memory}, Abandoned k m₀ owner₀ d m' → Returns k (pure none : Vm (Option Nat)) m' fun r m' =>
      Abandoned k m₀ owner₀ d m' ∧ ∀ sz', r = some sz' → Stacked m' d sz' := fun abandoned =>
    Returns.pure ⟨abandoned, fun _ wrong => nomatch wrong⟩
  unfold Vm.readyStack
  rw [sum]
  by_cases high : KERNBASE ≤ PGROUNDUP sz + 2 * PGSIZE
  · unfold Vm.allocuvm
    rw [if_pos high]
    exact bad loading.abandon
  · refine .bind (loading.roundup (by omega)).grow fun r m₁ known => ?_
    obtain ⟨abandoned, grown⟩ := known
    by_cases zero : r = 0
    · rw [if_pos zero]
      exact bad abandoned
    · rw [if_neg zero]
      obtain ⟨size, owner₁, loading₁⟩ := grown zero
      have top : r = PGROUNDUP sz + 2 * PGSIZE := by omega
      have whole : r % PGSIZE = 0 := by
        rw [top, rounded]
        unfold PGSIZE
        omega
      have address : uint ((r : Int) - 2 * PGSIZE) = r - 2 * PGSIZE := by
        unfold KERNBASE PGSIZE at *
        unfold uint
        omega
      have here : (r - 2 * PGSIZE) / PGSIZE = r / PGSIZE - 2 := by
        unfold PGSIZE
        omega
      have user : r / PGSIZE - 2 < USERPAGES := by
        unfold USERPAGES
        unfold KERNBASE PGSIZE at *
        omega
      have inside : (r / PGSIZE - 2) * PGSIZE < r := by
        unfold PGSIZE at *
        omega
      obtain ⟨w, mapped⟩ := Option.isSome_iff_exists.mp ((loading₁.mapped _ user).mpr inside)
      obtain ⟨t, named, _⟩ := Memory.mapping_some mapped
      have own := loading₁.owners.ownPages loading₁.populated.dir
      have table := own.table _ (user_index user) t named
      rw [address]
      refine .bind (clearpteu_writes own.dir here named table.1) fun _ m₂ known => ?_
      subst known
      obtain ⟨abandoned₂, stacked⟩ := loading₁.stacked whole (by omega) rfl named
      refine Returns.pure ⟨abandoned₂, fun sz' same => ?_⟩
      cases same
      exact stacked

/-- `exec` up to the arguments: nothing has happened, or the image is ready for them. -/
theorem readyImage_readies {readi : Contents} (owners₀ : PageOwners k m owner₀) (answers : Answers readi file) :
    Returns k (Vm.readyImage k readi) m fun r m' => (r = none ∧ Undone k m owner₀ m') ∨
      ∃ image, r = some image ∧ Abandoned k m owner₀ image.1 m' ∧ Stacked m' image.1 image.2 := by
  unfold Vm.readyImage
  refine .bind (loadProgram_loads owners₀ answers) fun r m₁ known => ?_
  rcases known with ⟨rfl, undone⟩ | ⟨d, sz, rfl, owner, loading⟩
  · exact Returns.pure (.inl ⟨rfl, undone⟩)
  · refine orFree_returns _ owners₀ (.bind loading.readies fun r m₂ known => ?_)
    obtain ⟨abandoned, stacked⟩ := known
    cases r with
    | none => exact Returns.pure ⟨abandoned, fun _ wrong => nomatch wrong⟩
    | some top =>
      refine Returns.pure ⟨abandoned, fun image same => ?_⟩
      cases same
      exact ⟨abandoned, stacked top rfl⟩

end Readying

/-! ## The call -/

section Call

variable {k : KernelImage} {s : System} {p : Lwp} {m m' : Memory} {owner₀ : Nat → Owner} {d sz : Nat} {file : Option Contents}
  {argv : List (List UInt8)}

/-- The pages of a directory are as they were. -/
theorem Undone.image (undone : Undone k m owner₀ m') (owners₀ : PageOwners k m owner₀) (own : OwnPages k m d) :
    OwnPages k m' d ∧ SameTables m d m' ∧ ∀ pn < USERPAGES, m'.contents d pn = m.contents d pn := by
  obtain ⟨same, contents⟩ := Memory.seen fun g within =>
    undone.kept g fun free => own.used within ((owners₀.free g).mp free)
  exact ⟨own.congr (fun g member => (undone.perm owners₀).mem_iff.mp member) same, same, contents⟩

/-- `exec` takes back everything when the arguments do not fit. -/
theorem loadImage_refuses {readi : Contents} {bytes : List UInt8} (owners₀ : PageOwners k m owner₀) (answers : Answers readi bytes)
    (few : argv.length ≤ MAXARG) (strings : ∀ arg ∈ argv, ∀ byte ∈ arg, byte ≠ 0) (beyond : PGSIZE < argsSize argv)
    (within : ∀ d sz m₁, Program.run (Memory.handler k) (Vm.readyImage k readi) m = .ok (some (d, sz), m₁) → argsSize argv ≤ sz) :
    Returns k (Vm.loadImage k readi argv) m fun r m' => r = none ∧ Undone k m owner₀ m' := by
  rw [loadImage_ready]
  obtain ⟨r, m₁, ready, known⟩ := (readyImage_readies owners₀ answers).ok
  refine Returns.of_run (Program.run_bind_ok ready) ?_
  rcases known with ⟨rfl, undone⟩ | ⟨⟨d, sz⟩, rfl, abandoned, stacked⟩
  · exact Returns.pure ⟨rfl, undone⟩
  · have refuses : Returns k (Vm.passArguments d sz argv) m₁ fun r m' => r = none ∧ WritesWithin m₁ d 0 sz m' :=
      stacked.exceeds few strings beyond (within d sz m₁ ready)
    unfold Vm.passImage Vm.orFree
    dsimp only
    rw [Program.bind_assoc]
    refine .bind refuses fun r m₂ known => ?_
    obtain ⟨rfl, writes⟩ := known
    rw [program_pure_bind]
    exact .bind ((abandoned.writes stacked writes).freed owners₀) fun _ m₃ undone => Returns.pure ⟨rfl, undone⟩

/-- `exec` of a master whose arguments do not fit. -/
theorem exec_refuses (owners₀ : PageOwners k m owner₀) (answers : ∀ readi, file = some readi → ∃ bytes, Answers readi bytes)
    (few : argv.length ≤ MAXARG) (strings : ∀ arg ∈ argv, ∀ byte ∈ arg, byte ≠ 0) (beyond : PGSIZE < argsSize argv)
    (within : ∀ readi, file = some readi → ∀ d sz m₁,
      Program.run (Memory.handler k) (Vm.readyImage k readi) m = .ok (some (d, sz), m₁) → argsSize argv ≤ sz)
    (whole : (s.proc p).tid = 1) :
    Returns k (Vm.exec k s p file argv) m fun r m' => r = (-1, s) ∧ Undone k m owner₀ m' := by
  unfold Vm.exec
  rw [execEntry_master whole]
  cases file with
  | none => exact Returns.pure ⟨rfl, owners₀, fun _ _ => rfl⟩
  | some readi =>
    obtain ⟨bytes, answers⟩ := answers readi rfl
    refine .bind (loadImage_refuses owners₀ answers few strings beyond (within readi rfl)) fun r m₁ known => ?_
    obtain ⟨rfl, undone⟩ := known
    exact Returns.pure ⟨rfl, undone⟩

/-- `exec` gives its image the arguments that fit. Those that do not fit but are no longer than the image
make it fail, and a master keeps its image. -/
theorem exec_delivers_arguments (stock : Stock k m) (answers : ∀ readi, file = some readi → ∃ bytes, Answers readi bytes)
    (few : argv.length ≤ MAXARG - 1) (strings : ∀ arg ∈ argv, ∀ byte ∈ arg, byte ≠ 0) :
    (argsSize argv ≤ PGSIZE → ∀ readi, file = some readi → ∀ d sz m₁,
      Program.run (Memory.handler k) (Vm.readyImage k readi) m = .ok (some (d, sz), m₁) →
      ∃ entry sp table pointers m', Program.run (Memory.handler k) (Vm.loadImage k readi argv) m = .ok (some ⟨d, sz, entry, sp⟩, m') ∧
        PassedArguments m₁ d sz argv sp table pointers m') ∧
    (PGSIZE < argsSize argv → (∀ readi, file = some readi → ∀ d sz m₁,
        Program.run (Memory.handler k) (Vm.readyImage k readi) m = .ok (some (d, sz), m₁) → argsSize argv ≤ sz) →
      (s.proc p).tid = 1 → ∃ m', Program.run (Memory.handler k) (Vm.exec k s p file argv) m = .ok ((-1, s), m') ∧
        ∀ old, (s.proc p).pgdir = some old → OwnPages k m old →
          OwnPages k m' old ∧ SameTables m old m' ∧ ∀ pn < USERPAGES, m'.contents old pn = m.contents old pn) := by
  obtain ⟨owner₀, owners₀⟩ := stock.owners
  have most : argv.length ≤ MAXARG := few.trans (Nat.sub_le ..)
  refine ⟨fun fits readi here d sz m₁ ready => ?_, fun beyond within whole => ?_⟩
  · obtain ⟨bytes, answers⟩ := answers readi here
    have known := (readyImage_readies owners₀ answers).yields.ok ready
    obtain ⟨wrong, _⟩ | ⟨_, same, _, stacked⟩ := known
    · contradiction
    · cases same
      obtain ⟨r, m', passed, sp, table, pointers, rfl, delivered⟩ := (stacked.passes (k := k) most strings fits).ok
      refine ⟨fieldAt ((readi 0 elfhdrSize).getD []) 24 4, sp, table, pointers, m', ?_, delivered⟩
      rw [loadImage_ready, Program.run_bind_ok ready]
      unfold Vm.passImage Vm.orFree
      dsimp only
      rw [Program.bind_assoc, Program.run_bind_ok passed]
      rfl
  · obtain ⟨_, m', ran, rfl, undone⟩ := (exec_refuses owners₀ answers most strings beyond within whole).ok
    exact ⟨m', ran, fun old _ own => undone.image owners₀ own⟩

end Call

/-- A string that is longer than the stack page. -/
def longArgument : List UInt8 := List.replicate 5000 97

/-- The bytes that it takes as the only argument. -/
theorem longArgument_size : argsSize [longArgument] = 5024 := by
  have size : copySize longArgument = 5004 := by
    unfold copySize longArgument
    rw [List.length_replicate]
  unfold argsSize stringsSize
  rw [List.map_singleton, List.sum_singleton, size, List.length_singleton]

/-- An executable without segments. -/
def emptyProgram : List UInt8 := wordBytes ELF_MAGIC ++ List.replicate 48 0

/-- With 68 free pages it gets its stack. -/
theorem emptyProgram_readies {m : Memory} (stock : Stock smallKernel m) (enough : 68 ≤ m.free.length) : ∃ d m₁,
    Program.run (Memory.handler smallKernel) (Vm.readyImage smallKernel (readFile emptyProgram)) m = .ok (some (d, 8192), m₁) := by
  have atMost : pagesAtMost (pagesBetween 0 8192) = 3 := by decide
  obtain ⟨d, m₁, m₂, _, made, grown, _⟩ := @image_built smallKernel m 8192 stock (by decide) (by rw [atMost]; exact enough)
  obtain ⟨owner₀, owners₀⟩ := stock.owners
  obtain ⟨owner₁, owners₁, ⟨wrong, _⟩ | ⟨d', same, populated, _⟩⟩ := (setupkvm_builds owners₀).yields.ok made
  · cases wrong
  · cases same
    have directory := ((setupkvm_yields stock).ok made).2.1 d rfl
    have started : Loading smallKernel m owner₀ d emptyProgram [] 0 m₁ owner₁ := directory.loading owners₁ populated owners₀
    obtain ⟨r, m₃, readied, _⟩ := started.readies.ok
    obtain ⟨sz, m', first, rest⟩ := Program.run_bind_eq_ok readied
    have size : (Except.ok (8192, m₂) : Except MemStop _) = .ok (sz, m') := grown.symm.trans first
    cases size
    obtain ⟨_, _, _, last⟩ := Program.run_bind_eq_ok (show Program.run _ (Vm.clearpteu d _ >>= fun _ => pure (some 8192)) m₂ = _
      from rest)
    cases last
    have loads : Program.run (Memory.handler smallKernel) (Vm.loadSegments d (readFile emptyProgram) 0 0 0 >>= fun
        | none => pure none
        | some sz => pure (some (d, sz))) m₁ = .ok (some (d, 0), m₁) := rfl
    have loaded : Program.run (Memory.handler smallKernel) (Vm.loadProgram smallKernel (readFile emptyProgram)) m =
        .ok (some (d, 0), m₁) := (Program.run_bind_ok made).trans (Program.run_bind_ok loads)
    have readies : Program.run (Memory.handler smallKernel) (Vm.readyStack d (PGROUNDUP 0) >>= fun
        | none => pure none
        | some sz => pure (some (d, sz))) m₁ = .ok (some (d, 8192), m₃) := Program.run_bind_ok readied
    exact ⟨d, m₃, (Program.run_bind_ok loaded).trans (Program.run_bind_ok readies)⟩

/-- A process with two pages in memory of 200: `exec` gives two strings to its image, and keeps the old
image when a string is too long. -/
theorem exec_delivers_arguments_two : ∃ old m₁ m,
    Program.run (Memory.handler smallKernel) (Vm.setupkvm smallKernel) (blank (List.range' 0x110 200)) = .ok (some old, m₁) ∧
    Program.run (Memory.handler smallKernel) (Vm.allocuvm old 0 8192) m₁ = .ok (8192, m) ∧
    (∃ d m₂ entry sp table pointers m', Program.run (Memory.handler smallKernel)
        (Vm.loadImage smallKernel (readFile emptyProgram) [[97], [98, 99]]) m = .ok (some ⟨d, 8192, entry, sp⟩, m') ∧
      PassedArguments m₂ d 8192 [[97], [98, 99]] sp table pointers m') ∧
    ∃ m', Program.run (Memory.handler smallKernel)
        (Vm.exec smallKernel (System.userinit old) 0 (some (readFile emptyProgram)) [longArgument]) m =
          .ok ((-1, System.userinit old), m') ∧
      OwnPages smallKernel m' old ∧ SameTables m old m' ∧ ∀ pn < USERPAGES, m'.contents old pn = m.contents old pn := by
  have atMost : pagesAtMost (pagesBetween 0 8192) = 3 := by decide
  have length : (blank (List.range' 0x110 200)).free.length = 200 := List.length_range'
  obtain ⟨old, m₁, m, owner, made, grown, owners, live, _, left⟩ :=
    @image_built smallKernel _ 8192 (@blank_stock 200 (by decide)) (by decide) (by rw [atMost, length]; decide)
  rw [atMost, length] at left
  have answers : Answers (readFile emptyProgram) emptyProgram := readFile_answers (by decide)
  obtain ⟨d, m₂, ready⟩ := emptyProgram_readies owners.stock (by omega)
  refine ⟨old, m₁, m, made, grown, ?_, ?_⟩
  · have delivers := @exec_delivers_arguments smallKernel (System.userinit old) 0 m (some (readFile emptyProgram))
      [[97], [98, 99]] owners.stock (fun readi same => by cases same; exact ⟨emptyProgram, answers⟩) (by decide) (by simp)
    obtain ⟨entry, sp, table, pointers, m', ran, passed⟩ := delivers.1 (by decide) _ rfl d 8192 m₂ ready
    exact ⟨d, m₂, entry, sp, table, pointers, m', ran, passed⟩
  · have strings : ∀ arg ∈ [longArgument], ∀ byte ∈ arg, byte ≠ 0 := by
      intro arg member byte inside
      rw [List.mem_singleton.mp member] at inside
      rw [List.eq_of_mem_replicate inside]
      decide
    have delivers := @exec_delivers_arguments smallKernel (System.userinit old) 0 m (some (readFile emptyProgram))
      [longArgument] owners.stock (fun readi same => by cases same; exact ⟨emptyProgram, answers⟩) (Nat.le_of_ble_eq_true rfl)
      strings
    obtain ⟨m', ran, kept⟩ := delivers.2 (by rw [longArgument_size]; decide) (fun readi same d' sz m₁ ready' => by
      cases same
      rw [ready] at ready'
      cases ready'
      rw [longArgument_size]
      decide) rfl
    exact ⟨m', ran, kept old rfl (owners.ownPages live)⟩

end Xv6
