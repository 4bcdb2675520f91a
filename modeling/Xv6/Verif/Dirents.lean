import Xv6.Dirent
import Xv6.Lib.SlotMap
import Xv6.Verif.Files

/-!
# Directories are finite maps

A name counts as far as `DIRSIZ` bytes or its NUL. `strncmp` compares names so cut, and what
`strncpy` stores is the name cut. The content of a directory is a list of entries, the slots of
a map: `dirlookup` finds a name in it, `dirlink` fills an empty slot or appends one, and removal
empties the slot of a name.
-/

namespace Xv6

open Program Splice

/-! ## Strings -/

/-- A string up to its NUL, and no longer than a bound. -/
def cut (s : Chars) : Nat → Name
  | 0 => []
  | n + 1 => if s 0 = 0 then [] else s 0 :: cut s.next n

/-- `strncmp` finds two strings equal exactly when they are cut to the same name. -/
theorem strncmp_eq_zero_iff {p q : Chars} {n : Nat} : strncmp p q n = 0 ↔ cut p n = cut q n := by
  induction n generalizing p q with
  | zero => exact ⟨fun _ => rfl, fun _ => rfl⟩
  | succ n ih =>
    have bytes : ((p 0).toNat : Int) - (q 0).toNat = 0 ↔ p 0 = q 0 := by
      rw [← UInt8.toNat_inj]
      omega
    unfold strncmp cut
    by_cases stop : p 0 = 0
    · rw [if_neg (fun both => both.1 stop), if_pos stop, bytes, stop]
      by_cases other : q 0 = 0
      · simp [other]
      · simp [other, Ne.symm other]
    · rw [if_neg stop]
      by_cases same : p 0 = q 0
      · rw [if_pos ⟨stop, same⟩, if_neg (by rw [← same]; exact stop), same, ih, List.cons.injEq]
        simp
      · rw [if_neg (fun both => same both.2), bytes]
        by_cases other : q 0 = 0
        · simp [other, stop]
        · simp [other, same]

/-- `strncpy` fills its bytes. -/
theorem length_strncpy (t : Chars) (n : Nat) : (strncpy t n).length = n := by
  induction n generalizing t with
  | zero => rfl
  | succ n ih =>
    unfold strncpy
    split
    · rw [List.length_cons, List.length_replicate]
    · rw [List.length_cons, ih]

/-- What `strncpy` stores is the name cut. -/
theorem cut_strncpy {q t : Chars} {n : Nat} (stored : ∀ i, i < n → q i = (strncpy t n).getD i 0) :
    cut q n = cut t n := by
  induction n generalizing q t with
  | zero => rfl
  | succ n ih =>
    have first : q 0 = t 0 := stored 0 (Nat.succ_pos n)
    unfold cut
    rw [first]
    by_cases stop : t 0 = 0
    · rw [if_pos stop, if_pos stop]
    · rw [if_neg stop, if_neg stop]
      congr 1
      apply ih
      intro i low
      have later := stored (i + 1) (Nat.succ_lt_succ low)
      rw [strncpy, if_neg stop, List.getD_cons_succ] at later
      exact later

/-! ## Entries -/

/-- An entry of a directory read from its bytes. -/
def decodeDirent (de : List UInt8) : Dirent := ⟨deInum de, cut (deName de) DIRSIZ⟩

/-- The entries of a directory's content. -/
def dirents (content : List UInt8) : List Dirent :=
  (List.range (content.length / direntSize)).map fun i =>
    decodeDirent ((content.drop (direntSize * i)).take direntSize)

/-- The slot of an entry: its inode number is bound to its name, if it is in use. -/
def Dirent.slot (e : Dirent) : Option (Name × Nat) := if e.inum = 0 then none else some (e.name, e.inum)

/-- `findEntry` looks a name up in the slots. -/
theorem findEntry_eq (name : Name) (entries : List Dirent) :
    findEntry name entries = SlotMap.find name (entries.map Dirent.slot) := by
  induction entries with
  | nil => rfl
  | cons e rest ih =>
    unfold findEntry
    rw [List.map_cons, ih]
    by_cases free : e.inum = 0
    · have slot : e.slot = none := if_pos free
      rw [slot, if_neg (fun both => both.1 free)]
      rfl
    · have slot : e.slot = some (e.name, e.inum) := if_neg free
      rw [slot, SlotMap.find]
      by_cases here : e.name = name
      · rw [if_pos ⟨free, here⟩, if_pos here]
      · rw [if_neg (fun both => here both.2), if_neg here]

/-- The number of entries. -/
theorem length_dirents (content : List UInt8) :
    (dirents content).length = content.length / direntSize := by
  rw [dirents, List.length_map, List.length_range]

/-- An entry of the content. -/
theorem getElem?_dirents {content : List UInt8} {i : Nat} (inside : i < content.length / direntSize) :
    (dirents content)[i]? =
      some (decodeDirent ((content.drop (direntSize * i)).take direntSize)) := by
  rw [dirents, List.getElem?_map, List.getElem?_range inside]
  rfl

/-- What `dirlink` writes is an entry with the name cut. -/
theorem decodeDirent_putDirent {inum : Nat} (fits : inum < 65536) (name : Chars) :
    decodeDirent (putDirent inum name) = ⟨inum, cut name DIRSIZ⟩ := by
  have number : deInum (putDirent inum name) = inum := by
    show (UInt8.ofNat inum).toNat + 256 * (UInt8.ofNat (inum / 256)).toNat = inum
    rw [UInt8.toNat_ofNat', UInt8.toNat_ofNat']
    omega
  have named : cut (deName (putDirent inum name)) DIRSIZ = cut name DIRSIZ := by
    apply cut_strncpy
    intro i _
    show (putDirent inum name).getD (2 + i) 0 = _
    rw [Nat.add_comm]
    rfl
  unfold decodeDirent
  rw [number, named]

/-- What removal writes is an entry that is not in use. -/
theorem decodeDirent_zeros : (decodeDirent (List.replicate direntSize 0)).inum = 0 := by
  decide

/-- The bytes of an entry are sixteen. -/
theorem length_putDirent (inum : Nat) (name : Chars) : (putDirent inum name).length = direntSize := by
  unfold putDirent
  rw [List.length_cons, List.length_cons, length_strncpy]
  rfl

/-- Writing an entry in its place or at the end. -/
theorem dirents_splice {content de : List UInt8} {i : Nat} (whole : content.length % direntSize = 0)
    (inside : i ≤ content.length / direntSize) (size : de.length = direntSize) :
    (dirents (splice content (direntSize * i) de))[i]? = some (decodeDirent de) ∧
      (∀ j, j ≠ i → (dirents (splice content (direntSize * i) de))[j]? = (dirents content)[j]?) ∧
      (splice content (direntSize * i) de).length =
        direntSize * max (content.length / direntSize) (i + 1) := by
  have unit : direntSize = 16 := rfl
  rw [unit] at whole inside size ⊢
  have no_gap : 16 * i ≤ content.length := by omega
  have length := length_splice de no_gap
  rw [size] at length
  have total : (splice content (16 * i) de).length = 16 * max (content.length / 16) (i + 1) := by
    rw [length]
    omega
  have count : (splice content (16 * i) de).length / direntSize =
      max (content.length / 16) (i + 1) := by
    rw [total, unit, Nat.mul_div_cancel_left _ (by decide)]
  refine ⟨?_, ?_, total⟩
  · rw [getElem?_dirents (by omega)]
    have slice : ((splice content (16 * i) de).drop (direntSize * i)).take direntSize = de := by
      rw [unit]
      apply List.ext_getElem?
      intro k
      rw [List.getElem?_take]
      by_cases low : k < 16
      · rw [if_pos low, List.getElem?_drop, getElem?_splice_within no_gap (by omega) (by omega),
          Nat.add_sub_cancel_left]
      · rw [if_neg low, List.getElem?_eq_none (by omega)]
    rw [slice]
  · intro j other
    by_cases old : j < content.length / 16
    · rw [getElem?_dirents (by omega), getElem?_dirents (by rw [unit]; exact old)]
      have slice : ((splice content (16 * i) de).drop (direntSize * j)).take direntSize =
          (content.drop (direntSize * j)).take direntSize := by
        rw [unit]
        apply List.ext_getElem?
        intro k
        rw [List.getElem?_take, List.getElem?_take]
        by_cases low : k < 16
        · rw [if_pos low, if_pos low, List.getElem?_drop, List.getElem?_drop]
          rcases Nat.lt_or_gt_of_ne other with before | after
          · exact getElem?_splice_before no_gap (by omega)
          · exact getElem?_splice_after no_gap (by omega)
        · rw [if_neg low, if_neg low]
      rw [slice]
    · rw [List.getElem?_eq_none (by rw [length_dirents]; omega),
        List.getElem?_eq_none (by rw [length_dirents, unit]; omega)]

/-! ## Reading a directory -/

section Reading

variable {σ : Type} {handler : Handler bufSignature σ Stop} {kept : σ → Prop} {sb : Superblock} {devsw : Devsw}
  {ip : Inode} {content : List UInt8} {x : σ}

/-- The entries from one on. -/
theorem drop_dirents {i : Nat} (inside : i < content.length / direntSize) :
    (dirents content).drop i =
      decodeDirent ((content.drop (direntSize * i)).take direntSize) :: (dirents content).drop (i + 1) := by
  have here := getElem?_dirents inside
  obtain ⟨low, same⟩ := List.getElem?_eq_some_iff.mp here
  rw [List.drop_eq_getElem_cons low, same]

/-- Every entry of the content is read, and the state stays as the property says. -/
def ReadsEntries (handler : Handler bufSignature σ Stop) (sb : Superblock) (devsw : Devsw) (ip : Inode)
    (content : List UInt8) (kept : σ → Prop) : Prop :=
  ∀ i x, i < content.length / direntSize → kept x →
    wp handler (readi sb devsw ip (direntSize * i) direntSize)
      (fun result y =>
        result = (ip, (direntSize : Int), (content.drop (direntSize * i)).take direntSize) ∧ kept y)
      (fun _ => False) x

/-- The loop of `dirlookup` finds what `findEntry` finds among the entries still to come. -/
theorem dirlookupFrom_spec (reads : ReadsEntries handler sb devsw ip content kept) (name : Chars)
    (size : ip.size = content.length) (whole : content.length % direntSize = 0) (i fuel : Nat)
    (enough : content.length / direntSize < i + fuel) (holds : kept x) :
    wp handler (dirlookupFrom sb devsw ip name (direntSize * i) fuel)
      (fun result y =>
        result = (ip, (findEntry (cut name DIRSIZ) ((dirents content).drop i)).map
          fun found => (found.1, direntSize * (i + found.2))) ∧ kept y)
      (fun _ => False) x := by
  have unit : direntSize = 16 := rfl
  induction fuel generalizing x i with
  | zero =>
    have past : (dirents content).drop i = [] := by
      apply List.drop_eq_nil_of_le
      rw [length_dirents]
      omega
    rw [past]
    exact ⟨rfl, holds⟩
  | succ fuel ih =>
    unfold dirlookupFrom
    by_cases inside : i < content.length / direntSize
    · have below : direntSize * i < ip.size := by
        rw [size]
        rw [unit] at inside whole ⊢
        omega
      rw [if_pos below, wp_bind, drop_dirents inside]
      apply wp_mono (reads i x inside holds)
      · rintro result after ⟨rfl, still⟩
        dsimp only
        rw [if_neg (fun different => different rfl)]
        have later := ih (i + 1) (by omega) still
        have next : direntSize * i + direntSize = direntSize * (i + 1) := rfl
        have shift : ∀ rest : Option (Nat × Nat), (rest.map fun found => (found.1, found.2 + 1)).map
            (fun found => (found.1, direntSize * (i + found.2))) =
              rest.map fun found => (found.1, direntSize * (i + 1 + found.2)) := by
          intro rest
          rw [Option.map_map]
          congr 1
          funext found
          show (found.1, direntSize * (i + (found.2 + 1))) = _
          rw [Nat.add_right_comm, Nat.add_assoc]
        generalize (content.drop (direntSize * i)).take direntSize = de
        rw [next]
        by_cases free : deInum de = 0
        · have skipped : findEntry (cut name DIRSIZ) (decodeDirent de :: (dirents content).drop (i + 1)) =
              (findEntry (cut name DIRSIZ) ((dirents content).drop (i + 1))).map
                fun found => (found.1, found.2 + 1) := if_neg fun both => both.1 free
          rw [if_pos free, skipped, shift]
          exact later
        · rw [if_neg free]
          have equal : namecmp name (deName de) = 0 ↔ (decodeDirent de).name = cut name DIRSIZ :=
            strncmp_eq_zero_iff.trans eq_comm
          by_cases here : namecmp name (deName de) = 0
          · have found : findEntry (cut name DIRSIZ) (decodeDirent de :: (dirents content).drop (i + 1)) =
                some (deInum de, 0) := if_pos ⟨free, equal.mp here⟩
            rw [if_pos here, found]
            exact ⟨rfl, still⟩
          · have skipped : findEntry (cut name DIRSIZ) (decodeDirent de :: (dirents content).drop (i + 1)) =
                (findEntry (cut name DIRSIZ) ((dirents content).drop (i + 1))).map
                  fun found => (found.1, found.2 + 1) := if_neg fun both => here (equal.mpr both.2)
            rw [if_neg here, skipped, shift]
            exact later
      · exact fun _ impossible => impossible
    · have past : (dirents content).drop i = [] := by
        apply List.drop_eq_nil_of_le
        rw [length_dirents]
        omega
      have beyond : ¬direntSize * i < ip.size := by
        rw [size]
        rw [unit] at inside whole ⊢
        omega
      rw [if_neg beyond, past]
      exact ⟨rfl, holds⟩

/-- `dirlookup` finds what `findEntry` finds among the entries that are read. -/
theorem dirlookup_reads (reads : ReadsEntries handler sb devsw ip content kept) (name : Chars)
    (size : ip.size = content.length) (whole : content.length % direntSize = 0) (dir : ip.type = T_DIR)
    (holds : kept x) :
    wp handler (dirlookup sb devsw ip name)
      (fun result y =>
        result = (ip, (findEntry (cut name DIRSIZ) (dirents content)).map
          fun found => (found.1, direntSize * found.2)) ∧ kept y)
      (fun _ => False) x := by
  unfold dirlookup
  rw [if_neg (fun different => different dir)]
  have spec := dirlookupFrom_spec reads name size whole 0 (ip.size / direntSize + 1) (by rw [size]; omega) holds
  simp only [Nat.zero_add, List.drop_zero, Nat.mul_zero] at spec
  exact spec

/-- The second loop of `dirlink` stops at the first entry that is not in use, or at the end. -/
theorem emptyDirentFrom_spec (reads : ReadsEntries handler sb devsw ip content kept)
    (size : ip.size = content.length) (whole : content.length % direntSize = 0) {i fuel : Nat}
    (start : i ≤ content.length / direntSize) (enough : content.length / direntSize < i + fuel)
    (used : ∀ j e, j < i → (dirents content)[j]? = some e → e.inum ≠ 0) (holds : kept x) :
    wp handler (emptyDirentFrom sb devsw ip (direntSize * i) fuel)
      (fun result y => (∃ j, result = (ip, direntSize * j) ∧ j ≤ content.length / direntSize ∧
        (∀ e, (dirents content)[j]? = some e → e.inum = 0) ∧
        ∀ l e, l < j → (dirents content)[l]? = some e → e.inum ≠ 0) ∧ kept y)
      (fun _ => False) x := by
  have unit : direntSize = 16 := rfl
  induction fuel generalizing x i with
  | zero => omega
  | succ fuel ih =>
    unfold emptyDirentFrom
    by_cases inside : i < content.length / direntSize
    · have below : direntSize * i < ip.size := by
        rw [size]
        rw [unit] at inside whole ⊢
        omega
      have here := getElem?_dirents inside
      rw [if_pos below, wp_bind]
      apply wp_mono (reads i x inside holds)
      · rintro result y ⟨rfl, still⟩
        dsimp only
        rw [if_neg (fun different => different rfl)]
        by_cases free : deInum ((content.drop (direntSize * i)).take direntSize) = 0
        · rw [if_pos free]
          refine ⟨⟨i, rfl, start, ?_, used⟩, still⟩
          intro e found
          rw [here] at found
          cases found
          exact free
        · rw [if_neg free]
          refine ih (i := i + 1) (by omega) (by omega) ?_ still
          intro j e low found
          rcases Nat.lt_succ_iff_lt_or_eq.mp low with before | same
          · exact used j e before found
          · rw [same, here] at found
            cases found
            exact free
      · exact fun _ impossible => impossible
    · have beyond : ¬direntSize * i < ip.size := by
        rw [size]
        rw [unit] at inside whole ⊢
        omega
      rw [if_neg beyond]
      refine ⟨⟨i, rfl, start, ?_, used⟩, holds⟩
      intro e found
      rw [List.getElem?_eq_none (by rw [length_dirents]; omega)] at found
      contradiction

end Reading

/-! ## Calls -/

/-- The slots of a directory's content. -/
def direntSlots (content : List UInt8) : SlotMap.Slots Name Nat := (dirents content).map Dirent.slot

/-- A call on one directory with its result. -/
inductive DirectoryCall where
  /-- `dirlink`. -/
  | link (name : Chars) (inum : Nat) (result : Int)
  /-- Removal of an entry, as in `sys_unlink`. -/
  | remove (name : Chars) (result : Int)

/-- What a call does to a finite map whose keys are names cut: linking binds an unbound key and
refuses a bound one, removal unbinds a bound key and refuses an unbound one. -/
def mapStep (m : Name → Option Nat) (call : DirectoryCall) (m' : Name → Option Nat) : Prop :=
  match call with
  | .link name inum result =>
    if m (cut name DIRSIZ) = none then
      result = 0 ∧ m' = Function.update m (cut name DIRSIZ) (some inum)
    else result = -1 ∧ m' = m
  | .remove name result =>
    if m (cut name DIRSIZ) = none then result = -1 ∧ m' = m
    else result = 0 ∧ m' = Function.update m (cut name DIRSIZ) none

/-- The content of the directory `k` is a map. -/
structure IsDirectory {ι : Type} (sb : Superblock) (nmeta : Nat) (s : FsState ι) (k : ι)
    (content : List UInt8) (m : Name → Option Nat) : Prop where
  owned : Owned sb nmeta s.inodes s.store.blocks
  /-- The inode number is on the disk. -/
  numbered : (s.inodes k).inum < sb.ninodes
  dir : (s.inodes k).type = T_DIR
  stores : Stores s k content
  /-- The content is made of entries. -/
  whole : content.length % direntSize = 0
  /-- No name is in two entries in use. -/
  distinct : SlotMap.Distinct (direntSlots content)
  /-- The entries in use bind what the map binds. -/
  binds : SlotMap.lookup (direntSlots content) = m
  /-- It ends within the direct and single indirect ranges. -/
  shallow : content.length ≤ (NDIRECT + NINDIRECT) * BSIZE

section Calls

variable {ι : Type} {sb : Superblock} {nmeta : Nat} {devsw : Devsw} {s : FsState ι} {k : ι}
  {content : List UInt8} {m : Name → Option Nat}

/-- An empty directory is the empty map. -/
theorem IsDirectory.empty (owned : Owned sb nmeta s.inodes s.store.blocks)
    (numbered : (s.inodes k).inum < sb.ninodes) (dir : (s.inodes k).type = T_DIR)
    (size : (s.inodes k).size = 0) : IsDirectory sb nmeta s k [] fun _ => none where
  owned := owned
  numbered := numbered
  dir := dir
  stores := ⟨size, Nat.zero_le _, fun i inside => absurd inside (Nat.not_lt_zero i)⟩
  whole := rfl
  distinct _ _ _ _ _ held := nomatch held
  binds := rfl
  shallow := Nat.zero_le _

/-- The slot of an entry of the content. -/
theorem getElem?_direntSlots {i : Nat} :
    (direntSlots content)[i]? = ((dirents content)[i]?).map Dirent.slot :=
  List.getElem?_map

namespace IsDirectory

/-- Its entries are read without a trace. -/
theorem reads (before : IsDirectory sb nmeta s k content m) (settled : Settled true s.store) (devsw : Devsw) :
    ReadsEntries (Store.handler (recording true)) sb devsw (s.inodes k) content (· = s.store) := by
  rintro i store inside rfl
  have unit : direntSize = 16 := rfl
  have limit : (NDIRECT + NINDIRECT) * BSIZE = 70656 := rfl
  have shallow := before.shallow
  have accepted : ¬Refused content.length (direntSize * i) direntSize := by
    unfold Refused
    rw [unit] at inside ⊢
    omega
  have all : min direntSize (content.length - direntSize * i) = direntSize := by
    rw [unit] at inside ⊢
    omega
  have quiet : ReadQuiet (s.inodes k).size (direntSize * i) direntSize := by
    refine .inr (.inr ?_)
    rw [before.stores.size, all]
    rw [unit] at inside ⊢
    omega
  have file : (s.inodes k).type ≠ T_DEV := by
    rw [before.dir]
    decide
  have spec := readi_spec sb devsw (d := recording true) (.inr (settled rfl)) file before.stores.mappedBelow
    (show direntSize * i < 2 ^ 32 by rw [unit] at inside ⊢; omega) (show direntSize < 2 ^ 32 by decide)
  apply wp_mono spec
  · rintro result after ⟨rfl, effect⟩
    rw [before.stores.read, if_neg accepted, all]
    exact ⟨rfl, effect.unchanged quiet⟩
  · exact fun _ stopped => stopped.1 quiet

/-- `dirlookup` finds what `findEntry` finds among the entries, and changes nothing. -/
theorem dirlookup (before : IsDirectory sb nmeta s k content m) (settled : Settled true s.store) (devsw : Devsw)
    (name : Chars) :
    wp (Store.handler (recording true)) (Xv6.dirlookup sb devsw (s.inodes k) name)
      (fun result store =>
        result = (s.inodes k, (Xv6.findEntry (cut name DIRSIZ) (dirents content)).map
          fun found => (found.1, direntSize * found.2)) ∧ store = s.store)
      (fun _ => False) s.store :=
  dirlookup_reads (before.reads settled devsw) name before.stores.size before.whole before.dir rfl

/-- What `findEntry` finds is the binding, in its entry. -/
theorem findEntry (before : IsDirectory sb nmeta s k content m) (name : Name) :
    match m name with
    | none => findEntry name (dirents content) = none
    | some inum => ∃ i, findEntry name (dirents content) = some (inum, i) ∧
        (dirents content)[i]? = some ⟨inum, name⟩ ∧ inum ≠ 0 := by
  have bound := congrFun before.binds name
  unfold SlotMap.lookup at bound
  rw [findEntry_eq]
  cases found : SlotMap.find name (direntSlots content) with
  | none =>
    rw [found] at bound
    rw [← bound]
    exact found
  | some pair =>
    obtain ⟨inum, i⟩ := pair
    rw [found] at bound
    rw [← bound]
    have held := SlotMap.find_some found
    rw [getElem?_direntSlots, Option.map_eq_some_iff] at held
    obtain ⟨e, here, slot⟩ := held
    unfold Dirent.slot at slot
    by_cases free : e.inum = 0
    · rw [if_pos free] at slot
      contradiction
    · rw [if_neg free] at slot
      cases slot
      exact ⟨i, found, here, free⟩

/-- No two entries in use have the same name. -/
theorem unique (before : IsDirectory sb nmeta s k content m) {i j : Nat} {e e' : Dirent}
    (left : (dirents content)[i]? = some e) (right : (dirents content)[j]? = some e')
    (used : e.inum ≠ 0) (used' : e'.inum ≠ 0) (same : e.name = e'.name) : i = j := by
  apply before.distinct i j e.name e.inum e'.inum
  · rw [getElem?_direntSlots, left, Option.map_some, Dirent.slot, if_neg used]
  · rw [getElem?_direntSlots, right, Option.map_some, Dirent.slot, if_neg used', same]

/-- An entry is written within the direct and single indirect ranges. -/
theorem writes [DecidableEq ι] (before : IsDirectory sb nmeta s k content m) (settled : Settled true s.store)
    (devsw : Devsw) (layout : Layout sb nmeta) {de : List UInt8} {i : Nat} {m' : Name → Option Nat}
    (inside : i ≤ content.length / direntSize) (size : de.length = direntSize)
    (low : direntSize * i + direntSize ≤ (NDIRECT + NINDIRECT) * BSIZE)
    (distinct : SlotMap.Distinct (direntSlots (splice content (direntSize * i) de)))
    (binds : SlotMap.lookup (direntSlots (splice content (direntSize * i) de)) = m') :
    wp (Store.handler (recording true)) (writei sb devsw (s.inodes k) de (direntSize * i))
      (fun result store => result.2 = direntSize ∧ IsDirectory sb nmeta ⟨Function.update s.inodes k result.1, store⟩ k
        (splice content (direntSize * i) de) m' ∧ Recorded sb true s.store store)
      outOfBlocks s.store := by
  have file : (s.inodes k).type ≠ T_DEV := by
    rw [before.dir]
    decide
  have whole := before.whole
  have accepted : Accepts content.length (direntSize * i) de.length := by
    have unit : direntSize = 16 := rfl
    have limit : (NDIRECT + NINDIRECT) * BSIZE = 70656 := rfl
    have largest : MAXFILE * BSIZE = 1082201088 := by decide
    unfold Accepts
    rw [size]
    rw [unit] at inside low ⊢
    omega
  have sized := accepted
  rw [← before.stores.size] at sized
  have small : direntSize * i < 2 ^ 32 := Nat.lt_of_le_of_lt (Nat.le_add_right _ _) accepted.2.1
  refine wp_mono (writei_wrote devsw layout before.owned before.numbered file small (by rw [size]; decide) sized settled
    fun _ => by rw [size]; exact low) ?_ fun _ stopped => stopped
  rintro ⟨ip, r⟩ store ⟨wrote, ⟨grown, value⟩, recorded⟩
  obtain ⟨_, _, same⟩ := wrote.inode k
  refine ⟨value.trans (congrArg Int.ofNat size), ⟨wrote.owned, ?_, ?_, ?_, ?_, distinct, binds, ?_⟩, recorded⟩
  · rw [same]
    exact before.numbered
  · rw [same]
    exact before.dir
  · apply before.stores.wrote accepted wrote
    show (Function.update s.inodes k ip k).size = _
    rw [Function.update_self, grown, before.stores.size, length_splice de accepted.1]
  · rw [(dirents_splice whole inside size).2.2, Nat.mul_mod_right]
  · rw [length_splice de accepted.1, size]
    exact Nat.max_le.mpr ⟨before.shallow, low⟩

end IsDirectory

/-- A slot whose entry is in use holds its name and number. -/
theorem slot_used {e : Dirent} (used : e.inum ≠ 0) : e.slot = some (e.name, e.inum) := if_neg used

/-- `dirlink` refuses a name that is bound, and nothing changes. -/
theorem dirlink_bound (devsw : Devsw) (name : Chars) (inum : Nat) (before : IsDirectory sb nmeta s k content m)
    (settled : Settled true s.store) (bound : m (cut name DIRSIZ) ≠ none) :
    wp (Store.handler (recording true)) (dirlink sb devsw (s.inodes k) name inum)
      (fun result store => result = (s.inodes k, -1) ∧ store = s.store) (fun _ => False) s.store := by
  have found := before.findEntry (cut name DIRSIZ)
  unfold dirlink
  rw [wp_bind]
  apply wp_mono (before.dirlookup settled devsw name)
  · rintro result store ⟨rfl, rfl⟩
    cases binding : m (cut name DIRSIZ) with
    | none => exact absurd binding bound
    | some number =>
      rw [binding] at found
      obtain ⟨i, there, -⟩ := found
      rw [there]
      exact ⟨rfl, rfl⟩
  · exact fun _ impossible => impossible

/-- The directory has room for an entry in the direct and single indirect ranges. -/
def HasRoom (content : List UInt8) : Prop :=
  content.length < (NDIRECT + NINDIRECT) * BSIZE ∨ ∃ e ∈ dirents content, e.inum = 0

variable [DecidableEq ι]

/-- `dirlink` of a name that is unbound binds it, where there is room. -/
theorem dirlink_unbound (devsw : Devsw) (layout : Layout sb nmeta) {name : Chars} {inum : Nat}
    (before : IsDirectory sb nmeta s k content m) (settled : Settled true s.store)
    (unbound : m (cut name DIRSIZ) = none) (positive : 1 ≤ inum) (fits : inum ≤ 65535) (room : HasRoom content) :
    wp (Store.handler (recording true)) (dirlink sb devsw (s.inodes k) name inum)
      (fun result store => (result.2 = 0 ∧ ∃ content', IsDirectory sb nmeta
        ⟨Function.update s.inodes k result.1, store⟩ k content'
          (Function.update m (cut name DIRSIZ) (some inum))) ∧ Recorded sb true s.store store)
      outOfBlocks s.store := by
  have unit : direntSize = 16 := rfl
  have limit : (NDIRECT + NINDIRECT) * BSIZE = 70656 := rfl
  have found := before.findEntry (cut name DIRSIZ)
  rw [unbound] at found
  unfold dirlink
  rw [wp_bind]
  apply wp_mono (before.dirlookup settled devsw name)
  · rintro result store ⟨rfl, rfl⟩
    rw [show findEntry (cut name DIRSIZ) (dirents content) = none from found]
    show wp _ (emptyDirentFrom sb devsw (s.inodes k) (direntSize * 0) _ >>= _) _ _ _
    rw [wp_bind]
    apply wp_mono (emptyDirentFrom_spec (before.reads settled devsw) before.stores.size before.whole
      (Nat.zero_le _) (by rw [before.stores.size]; omega) (fun j e low => absurd low (Nat.not_lt_zero j)) rfl)
    · rintro _ store ⟨⟨j, rfl, low, free, used⟩, rfl⟩
      have length := length_putDirent inum name
      have shallow := before.shallow
      have whole := before.whole
      -- the first empty entry, or the end, lies within the ranges
      have inside : direntSize * j + direntSize ≤ (NDIRECT + NINDIRECT) * BSIZE := by
        rcases room with short | ⟨e, member, empty⟩
        · rw [unit] at low whole ⊢
          omega
        · obtain ⟨l, here⟩ := List.mem_iff_getElem?.mp member
          have place : l < content.length / direntSize := by
            rw [← length_dirents]
            exact (List.getElem?_eq_some_iff.mp here).1
          have order : ¬l < j := fun below => used l e below here empty
          rw [unit] at place ⊢
          omega
      obtain ⟨entry, others, -⟩ := dirents_splice whole low length
      rw [decodeDirent_putDirent (by omega)] at entry
      have fills : SlotMap.Fills (direntSlots content)
          (direntSlots (splice content (direntSize * j) (putDirent inum name))) j (cut name DIRSIZ) inum := by
        refine ⟨?_, ?_, ?_⟩
        · intro held full
          rw [getElem?_direntSlots, Option.map_eq_some_iff] at full
          obtain ⟨e, here, slot⟩ := full
          rw [Dirent.slot, if_pos (free e here)] at slot
          contradiction
        · rw [getElem?_direntSlots, entry, Option.map_some, slot_used (by omega : inum ≠ 0)]
        · intro i other
          rw [getElem?_direntSlots, getElem?_direntSlots, others i other]
      have absent : SlotMap.lookup (direntSlots content) (cut name DIRSIZ) = none := by
        rw [before.binds]
        exact unbound
      show wp _ (writei sb devsw (s.inodes k) (putDirent inum name) (direntSize * j) >>= _) _ _ _
      rw [wp_bind]
      apply wp_mono (before.writes settled devsw layout low length inside (fills.distinct before.distinct absent) rfl)
      · rintro ⟨ip, r⟩ after ⟨value, directory, recorded⟩
        dsimp only at value directory recorded ⊢
        rw [if_neg (not_not_intro value)]
        rw [fills.lookup before.distinct absent, before.binds] at directory
        exact ⟨⟨rfl, _, directory⟩, recorded⟩
      · exact fun reason stopped => stopped
    · exact fun _ impossible => impossible.elim
  · exact fun _ impossible => impossible.elim

/-- Removing a name that is bound unbinds it. -/
theorem unlinkDirent_bound (devsw : Devsw) (layout : Layout sb nmeta) {name : Chars}
    (before : IsDirectory sb nmeta s k content m) (settled : Settled true s.store)
    (bound : m (cut name DIRSIZ) ≠ none) :
    wp (Store.handler (recording true)) (unlinkDirent sb devsw (s.inodes k) name)
      (fun result store => (result.2 = 0 ∧ ∃ content', IsDirectory sb nmeta
        ⟨Function.update s.inodes k result.1, store⟩ k content'
          (Function.update m (cut name DIRSIZ) none)) ∧ Recorded sb true s.store store)
      outOfBlocks s.store := by
  have unit : direntSize = 16 := rfl
  have limit : (NDIRECT + NINDIRECT) * BSIZE = 70656 := rfl
  have found := before.findEntry (cut name DIRSIZ)
  unfold unlinkDirent
  rw [wp_bind]
  apply wp_mono (before.dirlookup settled devsw name)
  · rintro result store ⟨rfl, rfl⟩
    cases binding : m (cut name DIRSIZ) with
    | none => exact absurd binding bound
    | some inum =>
      rw [binding] at found
      obtain ⟨i, there, here, used⟩ := found
      rw [there]
      show wp _ (writei sb devsw (s.inodes k) (List.replicate direntSize 0) (direntSize * i) >>= _) _ _ _
      have shallow := before.shallow
      have whole := before.whole
      have length : (List.replicate direntSize (0 : UInt8)).length = direntSize := List.length_replicate
      have inside : i < content.length / direntSize := by
        rw [← length_dirents]
        exact (List.getElem?_eq_some_iff.mp here).1
      have ends : direntSize * i + direntSize ≤ (NDIRECT + NINDIRECT) * BSIZE := by
        rw [unit] at inside ⊢
        omega
      have held : (direntSlots content)[i]? = some (some (cut name DIRSIZ, inum)) := by
        rw [getElem?_direntSlots, here, Option.map_some, slot_used used]
      have cleared : direntSlots (splice content (direntSize * i) (List.replicate direntSize 0)) =
          (direntSlots content).set i none := by
        obtain ⟨entry, others, -⟩ := dirents_splice whole (Nat.le_of_lt inside) length
        apply List.ext_getElem?
        intro j
        rw [getElem?_direntSlots]
        by_cases same : j = i
        · subst same
          rw [entry, Option.map_some, List.getElem?_set_self (List.getElem?_eq_some_iff.mp held).1,
            Dirent.slot, if_pos decodeDirent_zeros]
        · rw [others j same, List.getElem?_set_ne (Ne.symm same), getElem?_direntSlots]
      rw [wp_bind]
      apply wp_mono (before.writes settled devsw layout (Nat.le_of_lt inside) length ends
        (cleared ▸ SlotMap.distinct_clear before.distinct i) rfl)
      · rintro ⟨ip, r⟩ after ⟨value, directory, recorded⟩
        dsimp only at value directory recorded ⊢
        rw [if_neg (not_not_intro value)]
        rw [cleared, SlotMap.lookup_clear before.distinct held, before.binds] at directory
        exact ⟨⟨rfl, _, directory⟩, recorded⟩
      · exact fun reason stopped => stopped
  · exact fun _ impossible => impossible.elim

omit [DecidableEq ι] in
/-- Removing a name that is unbound changes nothing. -/
theorem unlinkDirent_unbound (devsw : Devsw) {name : Chars} (before : IsDirectory sb nmeta s k content m)
    (settled : Settled true s.store) (unbound : m (cut name DIRSIZ) = none) :
    wp (Store.handler (recording true)) (unlinkDirent sb devsw (s.inodes k) name)
      (fun result store => result = (s.inodes k, -1) ∧ store = s.store) (fun _ => False) s.store := by
  have found := before.findEntry (cut name DIRSIZ)
  rw [unbound] at found
  unfold unlinkDirent
  rw [wp_bind]
  apply wp_mono (before.dirlookup settled devsw name)
  · rintro result store ⟨rfl, rfl⟩
    rw [show findEntry (cut name DIRSIZ) (dirents content) = none from found]
    exact ⟨rfl, rfl⟩
  · exact fun _ impossible => impossible

end Calls

end Xv6
