import Xv6.Exec
import Xv6.Verif.UserBytes
import Xv6.Verif.Reaping

/-!
# Loading a program

The part of `exec` from the ELF header to the end of the loop over the program headers, for any bytes
taken as the executable. It never panics. Either every page that it took is free again, or the pages below
the size are mapped and each byte is that of the last segment that covers it.
-/

namespace Xv6

namespace Vm

/-- `exec` from the ELF header to the end of the loop over the program headers: the directory and the
size, or nothing for an exit to `bad`. -/
def loadProgram (k : KernelImage) (readi : Contents) : Vm (Option (Nat × Nat)) :=
  match readi 0 elfhdrSize with
  | none => pure none
  | some elf =>
    if elf.length ≠ elfhdrSize then pure none
    else if fieldAt elf 0 4 ≠ ELF_MAGIC then pure none
    else do
      match ← setupkvm k with
      | none => pure none
      | some pgdir =>
        orFree pgdir do
          match ← loadSegments pgdir readi (fieldAt elf 44 2) (fieldAt elf 28 4) 0 with
          | none => pure none
          | some sz => pure (some (pgdir, sz))

/-- `exec` from the stack to the commit, for a directory and a size. -/
def pushImage (entry : Nat) (argv : List (List UInt8)) : Option (Nat × Nat) → Vm (Option ExecImage)
  | none => pure none
  | some (pgdir, sz) =>
    orFree pgdir do
      match ← pushStack pgdir (PGROUNDUP sz) argv with
      | none => pure none
      | some (sz, sp) => pure (some ⟨pgdir, sz, entry, sp⟩)

end Vm

/-! ## Files -/

/-- What `readi` answers for a file: its bytes at the offset, perhaps fewer than asked for, or -1. -/
structure Answers (readi : Contents) (file : List UInt8) : Prop where
  /-- The size of a file is an unsigned integer. -/
  size : file.length < 2 ^ 32
  /-- The bytes that are read. -/
  bytes : ∀ off n bytes, readi off n = some bytes → bytes <+: (file.drop off).take n

/-- Reads inside the file are complete. -/
def Complete (readi : Contents) (file : List UInt8) : Prop :=
  ∀ off n, off + n ≤ file.length → ∃ bytes, readi off n = some bytes ∧ bytes.length = n

/-- A segment to load. -/
structure Segment where
  /-- `ph.off`. -/
  off : Nat
  /-- `ph.vaddr`. -/
  vaddr : Nat
  /-- `ph.filesz`. -/
  filesz : Nat
  deriving DecidableEq

/-- The loadable segments of some program headers, in table order. -/
def segments (file : List UInt8) : Nat → Nat → List Segment
  | 0, _ => []
  | count + 1, off =>
    let ph := (file.drop off).take proghdrSize
    let rest := segments file count (uint (off + proghdrSize))
    if fieldAt ph 0 4 = ELF_PROG_LOAD then ⟨fieldAt ph 4 4, fieldAt ph 8 4, fieldAt ph 16 4⟩ :: rest else rest

/-- The address is in the file part of the segment. -/
def Segment.Covers (s : Segment) (a : Nat) : Prop := s.vaddr ≤ a ∧ a < s.vaddr + s.filesz

instance (s : Segment) (a : Nat) : Decidable (s.Covers a) := inferInstanceAs (Decidable (_ ∧ _))

/-- The byte that a segment puts at an address, over the one that was there. -/
def Segment.put (file : List UInt8) (a : Nat) (old : UInt8) (s : Segment) : UInt8 :=
  if s.Covers a then file.getD (s.off + (a - s.vaddr)) 0 else old

/-- The byte at an address of the image: that of the last segment that covers it, or zero. -/
def imageByte (file : List UInt8) (loaded : List Segment) (a : Nat) : UInt8 := loaded.foldl (Segment.put file a) 0

section Files

variable {readi : Contents} {file bytes : List UInt8} {loaded : List Segment} {s : Segment} {a n off size : Nat}

/-- Everything that was asked for was read. -/
theorem Answers.whole (answers : Answers readi file) (read : readi off n = some bytes) (length : bytes.length = n) :
    bytes = (file.drop off).take n ∧ (n ≠ 0 → off + n ≤ file.length) := by
  have start := answers.bytes off n bytes read
  have most : ((file.drop off).take n).length = min n (file.length - off) := by
    rw [List.length_take, List.length_drop]
  have fits := start.length_le
  refine ⟨start.eq_of_length (by omega), fun some_bytes => by omega⟩

/-- A field of some bytes. -/
theorem fieldAt_lt (bytes : List UInt8) (offset size : Nat) : fieldAt bytes offset size < 256 ^ size := by
  unfold fieldAt
  have bound : ∀ l : List UInt8, l.foldr (fun byte rest => byte.toNat + 256 * rest) 0 < 256 ^ l.length := by
    intro l
    induction l with
    | nil => exact Nat.one_pos
    | cons byte rest ih =>
      have low : byte.toNat < 256 := byte.toNat_lt
      rw [List.foldr_cons, List.length_cons, Nat.pow_succ]
      omega
  refine Nat.lt_of_lt_of_le (bound _) (Nat.pow_le_pow_right (by decide) ?_)
  rw [List.length_take]
  exact Nat.min_le_left ..

/-- No segment covers the address. -/
theorem imageByte_uncovered (uncovered : ∀ s ∈ loaded, ¬s.Covers a) : imageByte file loaded a = 0 := by
  unfold imageByte
  induction loaded using List.reverseRecOn with
  | nil => rfl
  | append_singleton rest s ih =>
    rw [List.foldl_append, List.foldl_cons, List.foldl_nil, Segment.put,
      if_neg (uncovered s (List.mem_append_right _ List.mem_cons_self))]
    exact ih fun s member => uncovered s (List.mem_append_left _ member)

/-- The last segment comes first. -/
theorem imageByte_snoc : imageByte file (loaded ++ [s]) a = Segment.put file a (imageByte file loaded a) s := by
  unfold imageByte
  rw [List.foldl_append]
  rfl

/-- The last segment that covers an address decides its byte. -/
theorem imageByte_last {before after : List Segment} (covers : s.Covers a) (last : ∀ s' ∈ after, ¬s'.Covers a) :
    imageByte file (before ++ s :: after) a = file.getD (s.off + (a - s.vaddr)) 0 := by
  unfold imageByte
  rw [List.foldl_append, List.foldl_cons]
  generalize before.foldl (Segment.put file a) 0 = old
  induction after using List.reverseRecOn with
  | nil => exact if_pos covers
  | append_singleton rest s' ih =>
    rw [List.foldl_append, List.foldl_cons, List.foldl_nil, Segment.put,
      if_neg (last s' (List.mem_append_right _ List.mem_cons_self))]
    exact ih fun s member => last s (List.mem_append_left _ member)

end Files

/-! ## Pages of a directory in use -/

section Owned

variable {k : KernelImage} {m m' : Memory} {owner owner' : Nat → Owner} {d f pn : Nat}

/-- The words of user pages are written. -/
theorem PageOwners.fill (owners : PageOwners k m owner) (free : m'.free = m.free)
    (kept : ∀ g, (∀ d pn, owner g ≠ .page d pn) → m'.word g = m.word g) : PageOwners k m' owner ∧
      ∀ d', owner d' = .dir 0 → ∀ q < TABLEPAGES, m'.mapping d' q = m.mapping d' q := by
  have dir : ∀ d' n, owner d' = .dir n → m'.word d' = m.word d' := fun d' n live =>
    kept d' fun d pn page => Owner.noConfusion (live.symm.trans page)
  have table : ∀ t d' i, owner t = .table d' i → m'.word t = m.word t := fun t d' i tabled =>
    kept t fun d pn page => Owner.noConfusion (tabled.symm.trans page)
  refine ⟨⟨free ▸ owners.nodup, fun g => ?_, owners.kernel, fun g d' i => ?_, fun g d' q => ?_⟩, fun d' live q inside => ?_⟩
  · rw [free]
    exact owners.free g
  · rw [owners.table g d' i]
    refine and_congr_right fun _ => exists_congr fun n => and_congr_right fun live => ?_
    rw [dir d' n live]
  · rw [owners.page g d' q]
    refine and_congr_right fun _ => exists_congr fun t => and_congr_right fun tabled => ?_
    rw [table t d' _ tabled]
  · exact owners.mapping_congr live inside (dir d' 0 live) fun t i tabled => table t d' i tabled

/-- An entry is rewritten with the same frame. -/
theorem PageOwners.rewriteEntry (owners : PageOwners k m owner) {t i w : Nat} (frame : frameOf w = frameOf (m.word t i)) :
    PageOwners k (m.set t i w) owner := by
  have entry : ∀ t' j, frameOf ((m.set t i w).word t' j) = frameOf (m.word t' j) := by
    intro t' j
    by_cases here : t' = t
    · rw [here]
      by_cases index : j = i
      · rw [index, Memory.set_same, frame]
      · rw [Memory.set_index index]
    · rw [Memory.set_other here]
  refine ⟨owners.nodup, owners.free, owners.kernel, fun g d' i' => ?_, fun g d' q => ?_⟩
  · rw [owners.table g d' i']
    simp only [entry]
  · rw [owners.page g d' q]
    simp only [entry]

end Owned

/-! ## Segments -/

/-- The pages that were not free and are not the directory's are as they were. -/
def Unwritten (m₀ : Memory) (owner₀ : Nat → Owner) (d : Nat) (m : Memory) (owner : Nat → Owner) : Prop :=
  ∀ g, owner₀ g ≠ .free → ¬(owner g).Within d g → m.word g = m₀.word g

/-- A new directory into which some segments were loaded: the pages below the size are mapped for the
user, with the bytes of the segments. -/
structure Loading (k : KernelImage) (m₀ : Memory) (owner₀ : Nat → Owner) (d : Nat) (file : List UInt8) (loaded : List Segment)
    (sz : Nat) (m : Memory) (owner : Nat → Owner) : Prop where
  owners : PageOwners k m owner
  /-- The pages of the directory were free. -/
  populated : Populated d m₀ owner₀ m owner
  /-- The size is below the kernel. -/
  low : sz < KERNBASE
  /-- The pages that are mapped. -/
  mapped : ∀ pn < USERPAGES, (m.mapping d pn).isSome ↔ pn * PGSIZE < sz
  /-- The user can access them. -/
  user : ∀ pn < USERPAGES, ∀ w, m.mapping d pn = some w → w / PTE_U % 2 ≠ 0
  /-- The user cannot use the kernel's half. -/
  hidden : ∀ pn < TABLEPAGES, USERPAGES ≤ pn → ∀ w, m.mapping d pn = some w → w / PTE_U % 2 = 0
  /-- The segments lie below the size. -/
  within : ∀ s ∈ loaded, s.vaddr + s.filesz ≤ sz
  bytes : ∀ a < KERNBASE, ∀ w, m.mapping d (a / PGSIZE) = some w →
    m.byte (w / PGSIZE) (a % PGSIZE) = (imageByte file loaded a).toNat
  kept : Unwritten m₀ owner₀ d m owner

/-- Pages were taken for the directory, but it is not said which. -/
def Abandoned (k : KernelImage) (m₀ : Memory) (owner₀ : Nat → Owner) (d : Nat) (m : Memory) : Prop :=
  ∃ owner, PageOwners k m owner ∧ Populated d m₀ owner₀ m owner ∧ Unwritten m₀ owner₀ d m owner

section Segments

variable {k : KernelImage} {m m' m₀ : Memory} {owner owner' owner₀ : Nat → Owner} {new : Nat → Prop} {d pn sz newsz : Nat}
  {readi : Contents} {file : List UInt8} {loaded : List Segment} {s : Segment}

/-- A page that was not free and is not the directory's has its owner. -/
theorem Populated.used (populated : Populated d m₀ owner₀ m owner) {g : Nat} (used : owner₀ g ≠ .free)
    (outside : ¬(owner g).Within d g) : owner g = owner₀ g :=
  (populated.owners g fun same => outside (.inl same)).resolve_right fun both => used both.1

/-- Only free pages and the directory's were written, and pages were put in it. -/
theorem Unwritten.extend (kept : Unwritten m₀ owner₀ d m owner) (owners : PageOwners k m owner) (populated : Populated d m₀ owner₀ m owner)
    (extended : Extended d new m owner m' owner') (words : ∀ g, g ∉ m.free → g ≠ d →
      (∀ i < NPDENTRIES, frameOf (m.word d i) ≠ some g) → m'.word g = m.word g) : Unwritten m₀ owner₀ d m' owner' := by
  intro g used outside
  have same : owner' g = owner g := (extended.owners g).resolve_right fun both =>
    outside (.inr (both.2.imp id fun ⟨pn, _, page⟩ => ⟨pn, page⟩))
  rw [same] at outside
  have missing : g ∉ m.free := owners.missing (by rw [populated.used used outside]; exact used)
  rw [words g missing (fun here => outside (.inl here)) fun i index named => ?_, kept g used outside]
  exact outside (.inr (.inl ⟨i, (owners.table g d i).mpr ⟨index, 0, populated.dir, Nat.zero_le i, named⟩⟩))

/-- What is left when the loop is given up. -/
theorem Loading.abandon (loading : Loading k m₀ owner₀ d file loaded sz m owner) : Abandoned k m₀ owner₀ d m :=
  ⟨owner, loading.owners, loading.populated, loading.kept⟩

/-- Two postconditions. -/
theorem Returns.and {α : Type} {p : Vm α} {post post' : α → Memory → Prop} (first : Returns k p m post)
    (second : Yields k p m post') : Returns k p m fun value m' => post value m' ∧ post' value m' := by
  obtain ⟨value, m', ran, holds⟩ := first.ok
  have both : post value m' ∧ post' value m' := ⟨holds, second.ok ran⟩
  unfold Returns Program.wp
  rw [ran]
  exact both

/-- `allocuvm` for a segment. -/
theorem Loading.grow (loading : Loading k m₀ owner₀ d file loaded sz m owner) :
    Returns k (Vm.allocuvm d sz newsz) m fun r m' => Abandoned k m₀ owner₀ d m' ∧
      (r ≠ 0 → r = max sz newsz ∧ ∃ owner', Loading k m₀ owner₀ d file loaded r m' owner') := by
  have live := loading.populated.dir
  have own := loading.owners.ownPages live
  have idle : ∀ {r}, r = 0 → Returns k (pure r : Vm Nat) m fun r m' => Abandoned k m₀ owner₀ d m' ∧
      (r ≠ 0 → r = max sz newsz ∧ ∃ owner', Loading k m₀ owner₀ d file loaded r m' owner') := fun zero =>
    Returns.pure ⟨loading.abandon, fun nonzero => absurd zero nonzero⟩
  by_cases high : KERNBASE ≤ newsz
  · unfold Vm.allocuvm
    rw [if_pos high]
    exact idle rfl
  · by_cases smaller : newsz < sz
    · unfold Vm.allocuvm
      rw [if_neg high, if_pos smaller]
      exact Returns.pure ⟨loading.abandon, fun _ => ⟨(Nat.max_eq_left (Nat.le_of_lt smaller)).symm, owner, loading⟩⟩
    · have bound := Nat.lt_of_not_le high
      have larger := Nat.le_of_not_lt smaller
      have absent : ∀ pn < USERPAGES, InRange sz newsz pn → m.mapping d pn = none := by
        intro pn user here
        refine Option.not_isSome_iff_eq_none.mp fun mapped => ?_
        have below := (loading.mapped pn user).mp mapped
        have from' := here.1
        omega
      have user : ∀ pn, InRange sz newsz pn → pn < USERPAGES := by
        intro pn here
        have below := here.2
        unfold USERPAGES
        unfold KERNBASE PGSIZE at *
        omega
      have stretches := allocuvm_exact own loading.owners.stock larger bound fun pn member =>
        absent pn (user pn ((mem_pagesBetween ..).mp member)) ((mem_pagesBetween ..).mp member)
      refine ((allocuvm_extends loading.owners live absent).and stretches.yields).mono fun r m' known => ?_
      obtain ⟨⟨owner', owners', grows⟩, exactly⟩ := known
      have words : ∀ g, g ∉ m.free → g ≠ d → (∀ i < NPDENTRIES, frameOf (m.word d i) ≠ some g) → m'.word g = m.word g := by
        rcases exactly with ⟨_, _, stretched⟩ | ⟨_, _, reverted⟩
        · exact stretched.kept
        · exact reverted.kept
      rcases grows with ⟨rfl, _, grown⟩ | ⟨rfl, extended⟩
      · have populated := loading.populated.extend grown.extended
        have kept := loading.kept.extend loading.owners loading.populated grown.extended words
        refine ⟨⟨owner', owners', populated, kept⟩, fun nonzero => ⟨rfl, owner', ?_⟩⟩
        rcases exactly with ⟨_, same, stretched⟩ | ⟨_, zero, _⟩
        · rw [same]
          have other : ∀ pn < TABLEPAGES, ¬InRange sz newsz pn → m'.mapping d pn = m.mapping d pn := fun pn inside outside =>
            stretched.mapping pn inside fun member => outside ((mem_pagesBetween ..).mp member)
          refine ⟨owners', populated, bound, fun pn low => ?_, fun pn low w mapped => ?_, fun pn inside high' w mapped => ?_,
            fun s member => (loading.within s member).trans larger, fun a low w mapped => ?_, kept⟩
          · by_cases here : InRange sz newsz pn
            · obtain ⟨f, _, mapped, _⟩ := stretched.fresh pn ((mem_pagesBetween ..).mpr here)
              rw [mapped]
              exact iff_of_true rfl here.2
            · rw [other pn (user_inside low) here, loading.mapped pn low]
              unfold InRange at here
              omega
          · by_cases here : InRange sz newsz pn
            · obtain ⟨f, _, mapped', _⟩ := stretched.fresh pn ((mem_pagesBetween ..).mpr here)
              rw [mapped] at mapped'
              cases mapped'
              unfold pteWord PTE_W PTE_U PGSIZE
              omega
            · rw [other pn (user_inside low) here] at mapped
              exact loading.user pn low w mapped
          · rw [other pn inside fun here => Nat.not_le_of_lt (user pn here) high'] at mapped
            exact loading.hidden pn inside high' w mapped
          · have page : a / PGSIZE < USERPAGES := by
              unfold USERPAGES
              unfold KERNBASE PGSIZE at *
              omega
            by_cases here : InRange sz newsz (a / PGSIZE)
            · obtain ⟨f, _, mapped', zero⟩ := stretched.fresh _ ((mem_pagesBetween ..).mpr here)
              rw [mapped] at mapped'
              cases mapped'
              have frame : pteWord (f * PGSIZE) (PTE_W + PTE_U) / PGSIZE = f := pteWord_frame f (by decide)
              rw [frame, imageByte_uncovered fun s member covers => ?_]
              · unfold Memory.byte
                rw [zero, Nat.zero_div]
                rfl
              · have upto := loading.within s member
                have from' := here.1
                have below := Nat.div_mul_le_self a PGSIZE
                have inside := covers.2
                omega
            · rw [other _ (user_inside page) here] at mapped
              obtain ⟨_, missing, apart, untabled⟩ := own.page _ page w mapped
              have kept := stretched.kept _ missing apart untabled
              unfold Memory.byte at *
              rw [kept]
              exact loading.bytes a low w mapped
        · exact absurd zero nonzero
      · exact ⟨⟨owner', owners', loading.populated.extend extended,
          loading.kept.extend loading.owners loading.populated extended words⟩, fun nonzero => absurd rfl nonzero⟩

/-- Nothing of a segment was loaded. -/
theorem Loading.begin (loading : Loading k m₀ owner₀ d file loaded sz m owner) {off vaddr : Nat} (below : vaddr ≤ sz) :
    Loading k m₀ owner₀ d file (loaded ++ [⟨off, vaddr, 0⟩]) sz m owner := by
  refine ⟨loading.owners, loading.populated, loading.low, loading.mapped, loading.user, loading.hidden, fun s member => ?_,
    fun a low w mapped => ?_, loading.kept⟩
  · rcases List.mem_append.mp member with old | new
    · exact loading.within s old
    · rw [List.mem_singleton.mp new]
      exact below
  · have nothing : ¬Segment.Covers ⟨off, vaddr, 0⟩ a := fun covers => Nat.not_lt_of_le covers.1 covers.2
    rw [imageByte_snoc, Segment.put, if_neg nothing]
    exact loading.bytes a low w mapped

/-- One page of a segment is filled. -/
theorem Loading.fill {off vaddr i n w : Nat} {bytes : List UInt8}
    (loading : Loading k m₀ owner₀ d file (loaded ++ [⟨off, vaddr, i⟩]) sz m owner) (aligned : (vaddr + i) % PGSIZE = 0)
    (room : n ≤ PGSIZE) (fits : vaddr + i + n ≤ sz) (mapped : m.mapping d ((vaddr + i) / PGSIZE) = some w)
    (page : (vaddr + i) / PGSIZE < USERPAGES) :
    Returns k (Vm.storeBytes (w / PGSIZE) 0 bytes) m fun _ m' => Abandoned k m₀ owner₀ d m' ∧
      (bytes = (file.drop (off + i)).take n → bytes.length = n →
        ∃ owner', Loading k m₀ owner₀ d file (loaded ++ [⟨off, vaddr, i + n⟩]) sz m' owner') := by
  have live := loading.populated.dir
  have own := loading.owners.ownPages live
  have frame := loading.owners.mapping_page live page mapped
  obtain ⟨_, missing, apart, untabled⟩ := own.page _ page w mapped
  refine (storeBytes_writes missing 0 bytes).mono fun _ m' left => ?_
  obtain ⟨free, kept, stored⟩ := left
  obtain ⟨owners', mappings⟩ := loading.owners.fill free fun g other => kept g fun here => other _ _ (here ▸ frame)
  have same : ∀ q < TABLEPAGES, m'.mapping d q = m.mapping d q := mappings d live
  have populated' : Populated d m₀ owner₀ m' owner :=
    ⟨loading.populated.was, live, loading.populated.owners, fun d' live' q inside =>
      (mappings d' (loading.populated.live live') q inside).trans (loading.populated.mapping d' live' q inside)⟩
  have kept' : Unwritten m₀ owner₀ d m' owner := fun g used outside =>
    (kept g fun here => outside (here ▸ .inr (.inr ⟨_, frame⟩))).trans (loading.kept g used outside)
  refine ⟨⟨owner, owners', populated', kept'⟩, fun contents length => ⟨owner, owners', populated', loading.low, fun pn user => ?_,
    fun pn user w' found => ?_, fun pn inside high w' found => ?_, fun s member => ?_, fun a low w' found => ?_, kept'⟩⟩
  · rw [same pn (user_inside user)]
    exact loading.mapped pn user
  · rw [same pn (user_inside user)] at found
    exact loading.user pn user w' found
  · rw [same pn inside] at found
    exact loading.hidden pn inside high w' found
  · rcases List.mem_append.mp member with old | new
    · exact loading.within s (List.mem_append_left _ old)
    · rw [List.mem_singleton.mp new]
      show vaddr + (i + n) ≤ sz
      omega
  · have user : a / PGSIZE < USERPAGES := by
      unfold USERPAGES
      unfold KERNBASE PGSIZE at *
      omega
    rw [same _ (user_inside user)] at found
    have before := loading.bytes a low w' found
    rw [imageByte_snoc] at before ⊢
    by_cases here : a / PGSIZE = (vaddr + i) / PGSIZE
    · rw [here, mapped] at found
      cases found
      have place : a = vaddr + i + a % PGSIZE := by
        unfold PGSIZE at *
        omega
      rw [stored, length, Nat.zero_add]
      by_cases filled : a % PGSIZE < n
      · have covers : Segment.Covers ⟨off, vaddr, i + n⟩ a := by
          constructor
          · show vaddr ≤ a
            omega
          · show a < vaddr + (i + n)
            omega
        have index : off + (a - vaddr) = off + i + a % PGSIZE := by omega
        rw [if_pos ⟨Nat.zero_le _, filled⟩, Segment.put, if_pos covers, Nat.sub_zero]
        show _ = (file.getD (off + (a - vaddr)) 0).toNat
        rw [index, contents, List.getD_eq_getElem?_getD, List.getElem?_take_of_lt filled, List.getElem?_drop,
          List.getD_eq_getElem?_getD]
      · have old : ¬Segment.Covers ⟨off, vaddr, i⟩ a := by
          rintro ⟨_, upto⟩
          change a < vaddr + i at upto
          omega
        have new : ¬Segment.Covers ⟨off, vaddr, i + n⟩ a := by
          rintro ⟨_, upto⟩
          change a < vaddr + (i + n) at upto
          omega
        rw [if_neg (fun both => filled both.2), before, Segment.put, if_neg old, Segment.put, if_neg new]
    · have other : w' / PGSIZE ≠ w / PGSIZE := fun same => here (own.pages _ user _ page w' w found mapped same)
      have part : Segment.Covers ⟨off, vaddr, i + n⟩ a ↔ Segment.Covers ⟨off, vaddr, i⟩ a := by
        refine and_congr_right fun _ => ?_
        show a < vaddr + (i + n) ↔ a < vaddr + i
        unfold PGSIZE at *
        omega
      have word := kept _ other
      unfold Memory.byte at before ⊢
      rw [word, before]
      unfold Segment.put
      by_cases covers : Segment.Covers ⟨off, vaddr, i⟩ a
      · rw [if_pos covers, if_pos (part.mpr covers)]
      · rw [if_neg covers, if_neg (covers ∘ part.mp)]

/-- What is left of the loop of `loaduvm`. It gets to the end if the segment is in the file. -/
theorem loadLoop_loads {off vaddr filesz : Nat} (answers : Answers readi file) (aligned : vaddr % PGSIZE = 0)
    (fits : vaddr + filesz ≤ sz) (offset : off < 2 ^ 32) (fuel : Nat) : ∀ {i : Nat} {m : Memory} {owner : Nat → Owner},
    Loading k m₀ owner₀ d file (loaded ++ [⟨off, vaddr, min i filesz⟩]) sz m owner → i % PGSIZE = 0 →
    (i = 0 ∨ off + min i filesz ≤ file.length) → filesz ≤ i + fuel * PGSIZE →
    Returns k (Vm.loadLoop d vaddr readi off filesz fuel i) m fun r m' => Abandoned k m₀ owner₀ d m' ∧
      (r = true → ∃ owner', Loading k m₀ owner₀ d file (loaded ++ [⟨off, vaddr, filesz⟩]) sz m' owner') ∧
        (Complete readi file → off + filesz ≤ file.length → r = true) := by
  induction fuel with
  | zero =>
    intro i m owner loading _ _ enough
    have all : min i filesz = filesz := by omega
    rw [all] at loading
    exact Returns.pure ⟨loading.abandon, fun _ => ⟨owner, loading⟩, fun _ _ => rfl⟩
  | succ fuel ih =>
    intro i m owner loading whole inside enough
    unfold Vm.loadLoop
    by_cases below : i < filesz
    · have start : min i filesz = i := Nat.min_eq_left (Nat.le_of_lt below)
      rw [start] at loading inside
      have live := loading.populated.dir
      have own := loading.owners.ownPages live
      have low := loading.low
      have address : uint ((vaddr : Nat) + i) = vaddr + i := by
        unfold KERNBASE at low
        unfold uint
        omega
      have page : (vaddr + i) / PGSIZE < USERPAGES := by
        unfold USERPAGES
        unfold KERNBASE PGSIZE at *
        omega
      have present' : (m.mapping d ((vaddr + i) / PGSIZE)).isSome := by
        refine (loading.mapped _ page).mpr ?_
        have down := Nat.div_mul_le_self (vaddr + i) PGSIZE
        omega
      obtain ⟨w, mapped⟩ := Option.isSome_iff_exists.mp present'
      obtain ⟨t, named, entry, _⟩ := Memory.mapping_some mapped
      have table := own.table _ (user_index page) t named
      rw [if_pos below, address]
      refine .bind (walkpgdir_reads own.dir _) fun r m₁ known => ?_
      obtain ⟨rfl, rfl⟩ := known
      rw [PDX_eq, PTX, named]
      dsimp only [Option.map_some]
      refine .bind (Vm.load_returns table.1 _) fun pte m₂ known => ?_
      obtain ⟨rfl, rfl⟩ := known
      rw [entry]
      have position : off + filesz ≤ file.length → uint ((off : Nat) + i) + min (filesz - i) PGSIZE ≤ file.length := by
        intro here
        have size := answers.size
        unfold uint
        omega
      cases read : readi (uint ((off : Nat) + i)) (min (filesz - i) PGSIZE) with
      | none =>
        refine Returns.pure ⟨loading.abandon, fun wrong => absurd wrong Bool.false_ne_true, fun complete here => ?_⟩
        obtain ⟨_, whole, _⟩ := complete _ _ (position here)
        rw [read] at whole
        contradiction
      | some bytes =>
        have short : bytes.length ≠ min (filesz - i) PGSIZE → Complete readi file → ¬off + filesz ≤ file.length := by
          intro length complete here
          obtain ⟨bytes', whole, all⟩ := complete _ _ (position here)
          rw [read] at whole
          cases whole
          exact length all
        have start : (vaddr + i) % PGSIZE = 0 := by
          unfold PGSIZE at *
          omega
        have upto : vaddr + i + min (filesz - i) PGSIZE ≤ sz := by omega
        dsimp only
        refine .bind (loading.fill start (Nat.min_le_right ..) upto mapped page) fun _ m₃ known => ?_
        obtain ⟨abandoned, filled⟩ := known
        by_cases complete : bytes.length = min (filesz - i) PGSIZE
        · have from' : uint ((off : Nat) + i) = off + i := by
            have size := answers.size
            unfold uint
            omega
          rw [from'] at read
          obtain ⟨contents, ends⟩ := answers.whole read complete
          obtain ⟨owner', loading'⟩ := filled contents complete
          have positive : min (filesz - i) PGSIZE ≠ 0 := by
            unfold PGSIZE
            omega
          have next : uint ((i : Nat) + PGSIZE) = i + PGSIZE := by
            unfold KERNBASE at low
            unfold uint PGSIZE
            omega
          have sum : i + min (filesz - i) PGSIZE = min (i + PGSIZE) filesz := by omega
          have read' := ends positive
          rw [Nat.add_assoc, sum] at read'
          rw [sum] at loading'
          rw [if_pos complete, next]
          refine ih loading' (by rw [Nat.add_mod_right]; exact whole) (.inr read') ?_
          rw [Nat.succ_mul] at enough
          omega
        · rw [if_neg complete]
          exact Returns.pure ⟨abandoned, fun wrong => absurd wrong Bool.false_ne_true, fun whole here =>
            absurd here (short complete whole)⟩
    · have all : min i filesz = filesz := by omega
      rw [all] at loading
      rw [if_neg below]
      exact Returns.pure ⟨loading.abandon, fun _ => ⟨owner, loading⟩, fun _ _ => rfl⟩

/-- `loaduvm` of a segment below the size. -/
theorem loaduvm_loads {off vaddr filesz : Nat} (loading : Loading k m₀ owner₀ d file loaded sz m owner)
    (answers : Answers readi file) (aligned : vaddr % PGSIZE = 0) (fits : vaddr + filesz ≤ sz) (offset : off < 2 ^ 32) :
    Returns k (Vm.loaduvm d vaddr readi off filesz) m fun r m' => Abandoned k m₀ owner₀ d m' ∧
      (r = true → ∃ owner', Loading k m₀ owner₀ d file (loaded ++ [⟨off, vaddr, filesz⟩]) sz m' owner') ∧
        (Complete readi file → off + filesz ≤ file.length → r = true) := by
  have begun : Loading k m₀ owner₀ d file (loaded ++ [⟨off, vaddr, min 0 filesz⟩]) sz m owner := by
    rw [Nat.zero_min]
    exact loading.begin (by omega)
  have enough : filesz ≤ 0 + 2 ^ 20 * PGSIZE := by
    have low := loading.low
    unfold KERNBASE at low
    unfold PGSIZE
    omega
  unfold Vm.loaduvm
  rw [if_neg (not_not.mpr aligned)]
  exact loadLoop_loads answers aligned fits offset (2 ^ 20) begun rfl (.inl rfl) enough

/-- The loop over the program headers. -/
theorem loadSegments_loads (answers : Answers readi file) (count : Nat) : ∀ {off sz : Nat} {loaded : List Segment} {m : Memory}
    {owner : Nat → Owner}, Loading k m₀ owner₀ d file loaded sz m owner →
    Returns k (Vm.loadSegments d readi count off sz) m fun r m' => Abandoned k m₀ owner₀ d m' ∧
      ∀ sz', r = some sz' → ∃ owner', Loading k m₀ owner₀ d file (loaded ++ segments file count off) sz' m' owner' := by
  induction count with
  | zero =>
    intro off sz loaded m owner loading
    refine Returns.pure ⟨loading.abandon, fun sz' same => ?_⟩
    cases same
    rw [segments, List.append_nil]
    exact ⟨owner, loading⟩
  | succ count ih =>
    intro off sz loaded m owner loading
    have bad : ∀ {m' : Memory}, Abandoned k m₀ owner₀ d m' → Returns k (pure none : Vm (Option Nat)) m' fun r m' =>
        Abandoned k m₀ owner₀ d m' ∧ ∀ sz', r = some sz' →
          ∃ owner', Loading k m₀ owner₀ d file (loaded ++ segments file (count + 1) off) sz' m' owner' := fun abandoned =>
      Returns.pure ⟨abandoned, fun _ wrong => nomatch wrong⟩
    unfold Vm.loadSegments
    cases read : readi off proghdrSize with
    | none => exact bad loading.abandon
    | some ph =>
      dsimp only
      by_cases complete : ph.length = proghdrSize
      · have contents := (answers.whole read complete).1
        rw [if_neg (not_not.mpr complete)]
        by_cases load : fieldAt ph 0 4 = ELF_PROG_LOAD
        · have here : segments file (count + 1) off = ⟨fieldAt ph 4 4, fieldAt ph 8 4, fieldAt ph 16 4⟩ ::
              segments file count (uint (off + proghdrSize)) := by
            rw [segments, ← contents]
            exact if_pos load
          rw [if_neg (not_not.mpr load)]
          by_cases short : fieldAt ph 20 4 < fieldAt ph 16 4
          · rw [if_pos short]
            exact bad loading.abandon
          rw [if_neg short]
          by_cases wraps : uint (fieldAt ph 8 4 + fieldAt ph 20 4) < fieldAt ph 8 4
          · rw [if_pos wraps]
            exact bad loading.abandon
          rw [if_neg wraps]
          have vaddr := fieldAt_lt ph 8 4
          have memsz := fieldAt_lt ph 20 4
          have sum : uint (fieldAt ph 8 4 + fieldAt ph 20 4) = fieldAt ph 8 4 + fieldAt ph 20 4 := by
            unfold uint at *
            omega
          refine .bind loading.grow fun r m₁ known => ?_
          obtain ⟨abandoned, grown⟩ := known
          by_cases zero : r = 0
          · rw [if_pos zero]
            exact bad abandoned
          rw [if_neg zero]
          by_cases unaligned : fieldAt ph 8 4 % PGSIZE ≠ 0
          · rw [if_pos unaligned]
            exact bad abandoned
          rw [if_neg unaligned]
          obtain ⟨above, owner₁, loading₁⟩ := grown zero
          rw [sum] at above
          refine .bind (loaduvm_loads loading₁ answers (not_not.mp unaligned) (by omega) (fieldAt_lt ph 4 4)) fun r m₂ known => ?_
          obtain ⟨abandoned₂, filled, _⟩ := known
          cases r with
          | false => exact bad abandoned₂
          | true =>
            obtain ⟨owner₂, loading₂⟩ := filled rfl
            rw [if_pos rfl, here]
            refine (ih loading₂).mono fun r m₃ known => ⟨known.1, fun sz' same => ?_⟩
            obtain ⟨owner₃, loading₃⟩ := known.2 sz' same
            rw [List.append_assoc] at loading₃
            exact ⟨owner₃, loading₃⟩
        · have here : segments file (count + 1) off = segments file count (uint (off + proghdrSize)) := by
            rw [segments, ← contents]
            exact if_neg load
          rw [if_pos load, here]
          exact ih loading
      · rw [if_pos complete]
        exact bad loading.abandon

end Segments

/-! ## The program -/

/-- The image of an executable in a new directory. -/
structure LoadedImage (m : Memory) (file : List UInt8) (loaded : List Segment) (d sz : Nat) (m' : Memory) : Prop where
  /-- The pages of the directory were free. -/
  fresh : ∀ f, m'.InSpace d f → f ∈ m.free
  /-- The size is below the kernel. -/
  low : sz < KERNBASE
  /-- The segments lie below the size. -/
  within : ∀ s ∈ loaded, s.vaddr + s.filesz ≤ sz
  /-- The user pages that are mapped are those below the size. -/
  mapped : ∀ pn < USERPAGES, (m'.mapping d pn).isSome ↔ pn * PGSIZE < PGROUNDUP sz
  /-- The user can access them. -/
  user : ∀ pn < USERPAGES, ∀ w, m'.mapping d pn = some w → w / PTE_U % 2 ≠ 0
  /-- The user can access no page from the kernel's first address on. -/
  hidden : ∀ pn < TABLEPAGES, USERPAGES ≤ pn → ∀ w, m'.mapping d pn = some w → w / PTE_U % 2 = 0
  /-- A byte that some segment covers is that of the last one. -/
  covered : ∀ before s after, loaded = before ++ s :: after → ∀ a < PGROUNDUP sz, s.Covers a → (∀ s' ∈ after, ¬s'.Covers a) →
    ∀ f o, m'.At d a f o → m'.byte f o = (file.getD (s.off + (a - s.vaddr)) 0).toNat
  /-- The other bytes are zero. -/
  uncovered : ∀ a < PGROUNDUP sz, (∀ s ∈ loaded, ¬s.Covers a) → ∀ f o, m'.At d a f o → m'.byte f o = 0

section Program

variable {k : KernelImage} {m m' : Memory} {owner owner₀ : Nat → Owner} {d sz : Nat} {readi : Contents} {file : List UInt8}
  {loaded : List Segment}

/-- Every page of the new directory was free. -/
theorem Populated.fresh (populated : Populated d m owner₀ m' owner) (owners₀ : PageOwners k m owner₀) {g : Nat}
    (within : (owner g).Within d g) : owner₀ g = .free := by
  by_cases dir : g = d
  · rw [dir]
    exact populated.was
  · rcases populated.owners g dir with kept | ⟨free, _⟩
    · rw [kept] at within
      rcases within with here | ⟨i, table⟩ | ⟨pn, page⟩
      · exact absurd here dir
      · obtain ⟨_, _, live, _⟩ := (owners₀.table g d i).mp table
        exact Owner.noConfusion (live.symm.trans populated.was)
      · obtain ⟨_, t, table, _⟩ := (owners₀.page g d pn).mp page
        obtain ⟨_, _, live, _⟩ := (owners₀.table t d _).mp table
        exact Owner.noConfusion (live.symm.trans populated.was)
    · exact free

/-- What has been loaded when the loop is done. -/
theorem Loading.image (loading : Loading k m owner₀ d file loaded sz m' owner) (owners₀ : PageOwners k m owner₀) :
    LoadedImage m file loaded d sz m' := by
  have low := loading.low
  have rounded := PGROUNDUP_below low
  have bytes : ∀ a < PGROUNDUP sz, ∀ f o, m'.At d a f o → m'.byte f o = (imageByte file loaded a).toNat := by
    intro a below f o here
    obtain ⟨w, mapped, rfl⟩ := Option.map_eq_some_iff.mp here.1
    rw [here.2]
    refine loading.bytes a ?_ w (Option.filter_eq_some_iff.mp mapped).1
    rw [rounded] at below
    unfold KERNBASE PGSIZE at *
    omega
  refine ⟨fun f within => ?_, low, loading.within, fun pn user => ?_, loading.user, loading.hidden, fun before s after same a below covers last f o here => ?_,
    fun a below none f o here => ?_⟩
  · rw [← owners₀.free f]
    exact loading.populated.fresh owners₀ ((loading.owners.inSpace loading.populated.dir).mp within)
  · rw [loading.mapped pn user, rounded]
    unfold PGSIZE
    omega
  · rw [bytes a below f o here, same, imageByte_last covers last]
  · rw [bytes a below f o here, imageByte_uncovered none]
    rfl

/-- The header of an executable. -/
def elfHeader (file : List UInt8) : List UInt8 := file.take elfhdrSize

/-- Every page has the owner that it had, and those that were not free are as they were. -/
structure Undone (k : KernelImage) (m : Memory) (owner : Nat → Owner) (m' : Memory) : Prop where
  owners : PageOwners k m' owner
  kept : ∀ g, owner g ≠ .free → m'.word g = m.word g

/-- The same pages are free. -/
theorem Undone.perm (undone : Undone k m owner m') (owners : PageOwners k m owner) : m'.free.Perm m.free :=
  (List.perm_ext_iff_of_nodup undone.owners.nodup owners.nodup).mpr fun f => by rw [← undone.owners.free, owners.free]

/-- `freevm` of what has been built undoes everything. -/
theorem Abandoned.freed (abandoned : Abandoned k m owner₀ d m') (owners₀ : PageOwners k m owner₀) :
    Returns k (Vm.freevm d) m' fun _ m'' => Undone k m owner₀ m'' := by
  obtain ⟨owner, owners, populated, kept⟩ := abandoned
  have own := owners.ownPages populated.dir
  refine ((freevm_frees owners populated.dir).and (freevm_kept own)).mono fun _ m'' known => ?_
  obtain ⟨⟨owner', owners', dismantled⟩, words⟩ := known
  have restored := populated.dismantle dismantled owners₀
  rw [restored.owners] at owners'
  refine ⟨owners', fun g used => ?_⟩
  have outside : ¬(owner g).Within d g := fun within => used (populated.fresh owners₀ within)
  have away : ¬m'.InSpace d g := fun within => outside ((owners.inSpace populated.dir).mp within)
  rw [words g (fun here => away (.inl here)) (fun i index named => away (.inr (.inl ⟨i, index, named⟩)))
    fun pn user w mapped frame => away (.inr (.inr ⟨pn, user, w, mapped, frame⟩)), kept g used outside]

/-- An exit to `bad` frees the directory. -/
theorem orFree_returns {α : Type} {p : Vm (Option α)} {m₁ : Memory} (good : α → Memory → Prop) (owners₀ : PageOwners k m owner₀)
    (runs : Returns k p m₁ fun r m' => Abandoned k m owner₀ d m' ∧ ∀ value, r = some value → good value m') :
    Returns k (Vm.orFree d p) m₁ fun r m' => (r = none ∧ Undone k m owner₀ m') ∨ ∃ value, r = some value ∧ good value m' := by
  unfold Vm.orFree
  refine .bind runs fun r m₂ known => ?_
  obtain ⟨abandoned, done⟩ := known
  cases r with
  | none => exact .bind (abandoned.freed owners₀) fun _ m₃ undone => Returns.pure (.inl ⟨rfl, undone⟩)
  | some value => exact Returns.pure (.inr ⟨value, rfl, done value rfl⟩)

/-- A new directory, before the first segment. -/
theorem NewDirectory.loading (directory : NewDirectory k m d m') (owners : PageOwners k m' owner)
    (populated : Populated d m owner₀ m' owner) (owners₀ : PageOwners k m owner₀) :
    Loading k m owner₀ d file [] 0 m' owner := by
  have empty : ∀ pn < USERPAGES, ∀ w, m'.mapping d pn ≠ some w := by
    intro pn user w mapped
    rw [directory.empty pn user] at mapped
    contradiction
  refine ⟨owners, populated, by decide, fun pn user => ?_, fun pn user w mapped => absurd mapped (empty pn user w),
    directory.hidden, fun s member => absurd member List.not_mem_nil, fun a low w mapped => ?_, fun g used _ => ?_⟩
  · rw [directory.empty pn user]
    exact iff_of_false Bool.false_ne_true (Nat.not_lt_zero _)
  · refine absurd mapped (empty _ ?_ w)
    unfold USERPAGES
    unfold KERNBASE PGSIZE at *
    omega
  · exact directory.kept g (owners₀.missing used)

/-- Loading any file returns: nothing has happened, or the file's segments are in a new directory. -/
theorem loadProgram_loads (owners₀ : PageOwners k m owner₀) (answers : Answers readi file) :
    Returns k (Vm.loadProgram k readi) m fun r m' => (r = none ∧ Undone k m owner₀ m') ∨
      ∃ d sz, r = some (d, sz) ∧ ∃ owner, Loading k m owner₀ d file
        (segments file (fieldAt (elfHeader file) 44 2) (fieldAt (elfHeader file) 28 4)) sz m' owner := by
  have idle : Undone k m owner₀ m := ⟨owners₀, fun _ _ => rfl⟩
  unfold Vm.loadProgram
  cases read : readi 0 elfhdrSize with
  | none => exact Returns.pure (.inl ⟨rfl, idle⟩)
  | some elf =>
    dsimp only
    by_cases complete : elf.length = elfhdrSize
    · have contents : elf = elfHeader file := (answers.whole read complete).1
      rw [if_neg (not_not.mpr complete)]
      by_cases magic : fieldAt elf 0 4 = ELF_MAGIC
      · rw [if_neg (not_not.mpr magic)]
        refine .bind ((setupkvm_builds owners₀).and (setupkvm_yields owners₀.stock)) fun r m₁ known => ?_
        obtain ⟨⟨owner₁, owners₁, ⟨rfl, restored⟩ | ⟨d, rfl, populated, _⟩⟩, words, directory, _⟩ := known
        · rw [restored.owners] at owners₁
          exact Returns.pure (.inl ⟨rfl, owners₁, fun g used => words g (owners₀.missing used)⟩)
        · have started : Loading k m owner₀ d file [] 0 m₁ owner₁ := (directory d rfl).loading owners₁ populated owners₀
          dsimp only
          refine (orFree_returns (fun image m' => image.1 = d ∧ ∃ owner, Loading k m owner₀ d file
            (segments file (fieldAt elf 44 2) (fieldAt elf 28 4)) image.2 m' owner) owners₀ ?_).mono fun r m₂ known => ?_
          · refine .bind (loadSegments_loads answers (fieldAt elf 44 2) started) fun r m₂ known => ?_
            obtain ⟨abandoned, all⟩ := known
            cases r with
            | none => exact Returns.pure ⟨abandoned, fun _ wrong => nomatch wrong⟩
            | some sz =>
              refine Returns.pure ⟨abandoned, fun image same => ?_⟩
              cases same
              exact ⟨rfl, all sz rfl⟩
          · refine known.imp id fun ⟨image, same, here, loaded⟩ => ⟨d, image.2, ?_, ?_⟩
            · rw [same, ← here]
            · rw [← contents]
              exact loaded
      · rw [if_pos magic]
        exact Returns.pure (.inl ⟨rfl, idle⟩)
    · rw [if_pos complete]
      exact Returns.pure (.inl ⟨rfl, idle⟩)

/-- Loading any file from any free list returns: every page is free again, or the file's segments are in
a new directory. -/
theorem loadProgram_safe (stock : Stock k m) (answers : Answers readi file) :
    Returns k (Vm.loadProgram k readi) m fun r m' =>
      (r = none ∧ m'.free.Perm m.free) ∨ ∃ d sz, r = some (d, sz) ∧
        LoadedImage m file (segments file (fieldAt (elfHeader file) 44 2) (fieldAt (elfHeader file) 28 4)) d sz m' := by
  obtain ⟨owner₀, owners₀⟩ := stock.owners
  refine (loadProgram_loads owners₀ answers).mono fun r m' known => ?_
  rcases known with ⟨rfl, undone⟩ | ⟨d, sz, rfl, owner, loading⟩
  · exact .inl ⟨rfl, undone.perm owners₀⟩
  · exact .inr ⟨d, sz, rfl, loading.image owners₀⟩

/-- A program that goes on after it has returned a value. -/
theorem program_pure_bind {α β : Type} {value : α} {next : α → Vm β} : (pure value >>= next) = next value := rfl

/-- `exec` goes on with the stack once the program is loaded. -/
theorem loadImage_eq (k : KernelImage) (readi : Contents) (argv : List (List UInt8)) :
    Vm.loadImage k readi argv =
      Vm.loadProgram k readi >>= Vm.pushImage (fieldAt ((readi 0 elfhdrSize).getD []) 24 4) argv := by
  unfold Vm.loadImage Vm.loadProgram
  cases readi 0 elfhdrSize with
  | none => rfl
  | some elf =>
    dsimp only [Option.getD_some]
    by_cases complete : elf.length ≠ elfhdrSize
    · rw [if_pos complete, if_pos complete]
      rfl
    rw [if_neg complete, if_neg complete]
    by_cases magic : fieldAt elf 0 4 ≠ ELF_MAGIC
    · rw [if_pos magic, if_pos magic]
      rfl
    rw [if_neg magic, if_neg magic, Program.bind_assoc]
    refine congrArg (Vm.setupkvm k >>= ·) (funext fun r => ?_)
    cases r with
    | none => rfl
    | some pgdir =>
      unfold Vm.orFree
      dsimp only
      simp only [Program.bind_assoc]
      refine congrArg (Vm.loadSegments _ _ _ _ _ >>= ·) (funext fun r => ?_)
      cases r with
      | none => simp only [program_pure_bind, Program.bind_assoc, Vm.pushImage]
      | some sz =>
        rw [program_pure_bind, program_pure_bind]
        unfold Vm.pushImage Vm.orFree
        refine (Program.bind_assoc (Vm.pushStack _ _ _) _ _).trans
          (Eq.trans ?_ (Program.bind_assoc (Vm.pushStack _ _ _) _ _).symm)
        exact congrArg (Vm.pushStack _ _ _ >>= ·) (funext fun pushed => by cases pushed <;> rfl)

end Program

/-- What `readi` answers when it reads as much as there is. -/
def readFile (file : List UInt8) (off n : Nat) : Option (List UInt8) := some ((file.drop off).take n)

/-- They are bytes of the file. -/
theorem readFile_answers {file : List UInt8} (size : file.length < 2 ^ 32) : Answers (readFile file) file :=
  ⟨size, fun off n bytes same => by cases same; exact List.prefix_refl _⟩

/-- They are as many as were asked for. -/
theorem readFile_complete (file : List UInt8) : Complete (readFile file) file := by
  intro off n inside
  refine ⟨_, rfl, ?_⟩
  rw [List.length_take, List.length_drop]
  omega

/-- An executable with one segment, of four bytes in the file and two pages at address 0. -/
def smallProgram : List UInt8 :=
  wordBytes ELF_MAGIC ++ List.replicate 24 0 ++ wordBytes 52 ++ List.replicate 12 0 ++ [1] ++ List.replicate 7 0 ++
    [ELF_PROG_LOAD, 84, 0, 0, 4, 5000, 7, PGSIZE].flatMap wordBytes ++ [1, 2, 3, 4]

/-- It is loaded with 200 free pages. -/
theorem loadProgram_safe_small : ∃ d m', Program.run (Memory.handler smallKernel)
      (Vm.loadProgram smallKernel (readFile smallProgram)) (blank (List.range' 0x110 200)) = .ok (some (d, 5000), m') ∧
    LoadedImage (blank (List.range' 0x110 200)) smallProgram [⟨84, 0, 4⟩] d 5000 m' := by
  have stock : Stock smallKernel (blank (List.range' 0x110 200)) := blank_stock (by decide)
  have answers : Answers (readFile smallProgram) smallProgram := readFile_answers (by decide)
  have atMost : pagesAtMost (pagesBetween 0 5000) = 3 := by decide
  have length : (blank (List.range' 0x110 200)).free.length = 200 := List.length_range'
  obtain ⟨d, m₁, m₂, _, made, grown, _⟩ := @image_built smallKernel _ 5000 stock (by decide) (by rw [atMost, length]; decide)
  obtain ⟨owner₀, owners₀⟩ := stock.owners
  obtain ⟨owner₁, owners₁, ⟨wrong, _⟩ | ⟨d', same, populated, _⟩⟩ := (setupkvm_builds owners₀).yields.ok made
  · cases wrong
  · cases same
    have directory := ((setupkvm_yields stock).ok made).2.1 d rfl
    have started : Loading smallKernel _ owner₀ d smallProgram [] 0 m₁ owner₁ := directory.loading owners₁ populated owners₀
    obtain ⟨_, _, _, loading⟩ := (started.grow.yields.ok grown).imp_right fun known => known (by decide)
    obtain ⟨r, m₃, filled, _, _, succeeds⟩ := (loaduvm_loads loading answers (show 0 % PGSIZE = 0 from rfl)
      (show 0 + 4 ≤ 5000 by decide) (show 84 < 2 ^ 32 by decide)).ok
    obtain rfl := succeeds (readFile_complete smallProgram) (by decide)
    have ran : Program.run (Memory.handler smallKernel) (Vm.loadProgram smallKernel (readFile smallProgram))
        (blank (List.range' 0x110 200)) = .ok (some (d, 5000), m₃) := by
      have segment : Program.run (Memory.handler smallKernel) (Vm.loadSegments d (readFile smallProgram) 1 52 0) m₁ =
          .ok (some 5000, m₃) := (Program.run_bind_ok grown).trans ((Program.run_bind_ok filled).trans rfl)
      have loads : Program.run (Memory.handler smallKernel) (Vm.loadSegments d (readFile smallProgram) 1 52 0 >>= fun
          | none => pure none
          | some sz => pure (some (d, sz))) m₁ = .ok (some (d, 5000), m₃) := Program.run_bind_ok segment
      exact (Program.run_bind_ok made).trans (Program.run_bind_ok loads)
    obtain ⟨wrong, _⟩ | ⟨_, _, same, image⟩ := (loadProgram_safe stock answers).yields.ok ran
    · cases wrong
    · cases same
      exact ⟨d, m₃, ran, image⟩

end Xv6
