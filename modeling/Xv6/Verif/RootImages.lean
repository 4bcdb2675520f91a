import Xv6.Verif.MkfsImages

/-!
# The root directory of the image

`main` of `mkfs` lists every file in the root directory and then rounds its size up, by a whole
block even if the last block is full. So the root directory ends in a hole exactly when its
entries fill their blocks; otherwise it is read and searched without allocating, and every file
is found in it.
-/

namespace Xv6

open Program DiskImage

/-! ## Entries -/

/-- The entries of the files, from an inode number on. -/
def fileDirents (inum : Nat) (files : List HostFile) : List Dirent :=
  files.mapIdx fun i file => ⟨inum + i, cut (chars file.entryName) DIRSIZ⟩

/-- The entries that `mkfs` writes into the root directory. -/
def rootEntries (files : List HostFile) : List Dirent :=
  ⟨ROOTINO, dot⟩ :: ⟨ROOTINO, dotdot⟩ :: fileDirents 2 files

/-- The bytes that `mkfs` writes into the root directory. -/
def rootContent (files : List HostFile) : List UInt8 :=
  putDirent ROOTINO (chars dot) ++ putDirent ROOTINO (chars dotdot) ++ fileEntries 2 files

/-- The first entry of a content, and the others. -/
theorem dirents_append {de : List UInt8} (size : de.length = direntSize) (rest : List UInt8) :
    dirents (de ++ rest) = decodeDirent de :: dirents rest := by
  have unit : direntSize = 16 := rfl
  have count : (de ++ rest).length / direntSize = rest.length / direntSize + 1 := by
    rw [List.length_append, size, unit]
    omega
  unfold dirents
  rw [count, List.range_succ_eq_map, List.map_cons, List.map_map]
  congr 1
  · rw [Nat.mul_zero, List.drop_zero, ← size, List.take_left]
  · apply List.map_congr_left
    intro i _
    show decodeDirent (((de ++ rest).drop (direntSize * (i + 1))).take direntSize) = _
    rw [Nat.mul_succ, Nat.add_comm (direntSize * i), ← List.drop_drop, ← size, List.drop_left]

/-- The files' entries are those fileDirents. -/
theorem dirents_fileEntries {files : List HostFile} {inum : Nat} (fits : inum + files.length ≤ 65536)
    (rest : List UInt8) : dirents (fileEntries inum files ++ rest) = fileDirents inum files ++ dirents rest := by
  induction files generalizing inum with
  | nil => rfl
  | cons file files ih =>
    rw [List.length_cons] at fits
    have later : fileDirents (inum + 1) files =
        files.mapIdx fun i file => ⟨inum + (i + 1), cut (chars file.entryName) DIRSIZ⟩ := by
      unfold fileDirents
      simp only [Nat.add_right_comm inum 1, Nat.add_assoc]
    rw [fileEntries, List.append_assoc, dirents_append (length_putDirent _ _), ih (by omega),
      decodeDirent_putDirent (by omega), later, fileDirents, List.mapIdx_cons]
    rfl

/-- The entries of the root directory, and what may follow them. -/
theorem dirents_rootContent {files : List HostFile} (fits : files.length + 2 ≤ 65536) (rest : List UInt8) :
    dirents (rootContent files ++ rest) = rootEntries files ++ dirents rest := by
  have first : decodeDirent (putDirent ROOTINO (chars dot)) = ⟨ROOTINO, dot⟩ := by decide
  have second : decodeDirent (putDirent ROOTINO (chars dotdot)) = ⟨ROOTINO, dotdot⟩ := by decide
  rw [rootContent, List.append_assoc, List.append_assoc, dirents_append (length_putDirent _ _),
    dirents_append (length_putDirent _ _), dirents_fileEntries (by omega), first, second]
  rfl

/-- The length of the files' entries. -/
theorem length_fileEntries (inum : Nat) (files : List HostFile) :
    (fileEntries inum files).length = direntSize * files.length := by
  induction files generalizing inum with
  | nil => rfl
  | cons file files ih =>
    rw [fileEntries, List.length_append, ih, length_putDirent, List.length_cons, Nat.mul_succ, Nat.add_comm]

/-- The length of the root directory before it is rounded. -/
theorem length_rootContent (files : List HostFile) :
    (rootContent files).length = direntSize * (files.length + 2) := by
  rw [rootContent, List.length_append, List.length_append, length_putDirent, length_putDirent,
    length_fileEntries, ← Nat.mul_two, ← Nat.mul_add, Nat.add_comm]

/-- What is found among some entries is found with entries after them. -/
theorem findEntry_append {name : Name} {entries : List Dirent} {found : Nat × Nat}
    (here : findEntry name entries = some found) (rest : List Dirent) :
    findEntry name (entries ++ rest) = some found := by
  induction entries generalizing found with
  | nil => cases here
  | cons e entries ih =>
    rw [findEntry] at here
    rw [List.cons_append, findEntry]
    by_cases first : e.inum ≠ 0 ∧ e.name = name
    · rw [if_pos first] at here ⊢
      exact here
    · rw [if_neg first] at here ⊢
      obtain ⟨later, there, same⟩ := Option.map_eq_some_iff.mp here
      rw [ih there, ← same]
      rfl

/-- The name of a file is found among the entries. -/
theorem findEntry_listed {files : List HostFile} {file : HostFile} (member : file ∈ files) :
    ∃ found, findEntry (cut (chars file.entryName) DIRSIZ) (rootEntries files) = some found := by
  obtain ⟨i, inside, same⟩ := List.mem_iff_getElem.mp member
  have entry : (fileDirents 2 files)[i]? = some ⟨2 + i, cut (chars file.entryName) DIRSIZ⟩ := by
    rw [fileDirents, List.getElem?_mapIdx, List.getElem?_eq_getElem inside, same]
    rfl
  have slot : ((rootEntries files).map Dirent.slot)[i + 2]? =
      some (some (cut (chars file.entryName) DIRSIZ, 2 + i)) := by
    rw [rootEntries, List.map_cons, List.map_cons, List.getElem?_cons_succ, List.getElem?_cons_succ,
      List.getElem?_map, entry, Option.map_some, slot_used (Nat.ne_of_gt (by omega : 0 < 2 + i))]
  rw [findEntry_eq]
  exact SlotMap.find_of_mem slot

/-! ## The finished root directory -/

/-- The root directory of an image has no hole: it is read and searched without allocating, and
every file is found in it. -/
structure RootWhole (files : List HostFile) (img : DiskImage) : Prop where
  /-- Every block below the size is allocated. -/
  allocated : ∀ bn, bn * BSIZE < (img.rinode ROOTINO).size →
    blockAt (img.rinode ROOTINO) img.sectors bn ≠ 0
  /-- `fileread` calls `log_write` on no block and changes none. -/
  read : ∀ devsw piperead log (f : File) n, f.readable = true → f.type = .inode → f.off < 2 ^ 32 →
    FilereadQuiet mkfsSuperblock devsw piperead f (img.rinode ROOTINO) n (Store.boot img.sectors log)
  /-- So does `dirlookup`, of any name. -/
  searched : ∀ devsw log name, ∃ found,
    Store.exec checked (dirlookup mkfsSuperblock devsw (img.rinode ROOTINO) name) (Store.boot img.sectors log) =
      .ok ((img.rinode ROOTINO, found), Store.boot img.sectors log)
  /-- `dirlookup` finds the name of each file, at the first entry with that name. -/
  found : ∀ file ∈ files, ∃ inum i,
    findEntry (cut (chars file.entryName) DIRSIZ) (rootEntries files) = some (inum, i) ∧
    ∀ devsw log,
      Store.exec checked (dirlookup mkfsSuperblock devsw (img.rinode ROOTINO) (chars file.entryName))
        (Store.boot img.sectors log) =
          .ok ((img.rinode ROOTINO, some (inum, direntSize * i)), Store.boot img.sectors log)

/-- A stored file whose size grows over mapped blocks only stores its content and some more. -/
theorem Stores.extended {ι : Type} {sb : Superblock} {nmeta : Nat} {s t : FsState ι} {k : ι}
    {content : List UInt8} {off size : Nat} (stores : Stores s k content) (wrote : Wrote sb nmeta s t k off [])
    (grown : (t.inodes k).size = size) (longer : content.length ≤ size) (short : size ≤ MAXFILE * BSIZE)
    (mapped : ∀ bn, bn * BSIZE < size → s.mapped k bn ≠ 0) : ∃ more, Stores t k (content ++ more) := by
  refine ⟨(List.range (size - content.length)).map fun i => t.fileByte k (content.length + i), ?_⟩
  have length : (content ++ (List.range (size - content.length)).map fun i =>
      t.fileByte k (content.length + i)).length = size := by
    rw [List.length_append, List.length_map, List.length_range]
    omega
  refine ⟨grown.trans length.symm, Nat.le_trans (Nat.le_of_eq length) short, ?_⟩
  intro i inside
  rw [length] at inside
  have block : i / BSIZE < MAXFILE := Nat.div_lt_of_lt_mul (by rw [Nat.mul_comm]; omega)
  have before := mapped (i / BSIZE) (Nat.lt_of_le_of_lt (Nat.div_mul_le_self _ _) inside)
  refine ⟨by rw [wrote.kept k _ block before]; exact before, ?_⟩
  by_cases old : i < content.length
  · have beside : k = k → i < off ∨ off + ([] : List UInt8).length ≤ i := by
      intro _
      rw [List.length_nil]
      omega
    rw [List.getElem?_append_left old, (stores.bytes i old).2, wrote.outside k i block before beside]
  · rw [List.getElem?_append_right (Nat.le_of_not_lt old), List.getElem?_map,
      List.getElem?_range (by omega), Option.map_some, Nat.add_sub_cancel' (Nat.le_of_not_lt old)]

/-! ## The whole image -/

section Whole

variable {files : List HostFile}

/-- The image before the last steps of `main`: the root directory holds its entries, and no block is
taken past them. -/
structure Listing (files : List HostFile) (img : DiskImage) (types : Inum → Int)
    (contents : Inum → List UInt8) : Prop extends img.Building types contents where
  /-- The root inode is a directory. -/
  dir : types rootInum = T_DIR
  root : contents rootInum = rootContent files
  /-- `balloc` can mark the blocks. -/
  few : img.freeblock < BSIZE * 8
  /-- What `main` does next. -/
  main : mkfsMain files =
    (img.winode { img.rinode ROOTINO with size := ((img.rinode ROOTINO).size / BSIZE + 1) * BSIZE }).balloc
      img.freeblock

/-- `main` lists every file if none is too long. -/
theorem mkfsMain_lists (fit : FilesFit files) (short : ∀ file ∈ files, file.content.length ≤ appendable) :
    ∃ img types contents, Listing files img types contents := by
  obtain ⟨img, types, contents, building, freeinode, dir, content, root, freeblock, main⟩ := mkfsMain_root
  have numbers := fit.numbers
  have room := fit.room
  have written := building.addFiles (by omega) (by rw [freeinode, Nat.add_comm]; exact numbers)
    (by rw [root, freeinode]) fit.named short
  rw [freeinode, Nat.add_comm 2] at written
  obtain ⟨img', types', contents', added, building', taken, _, ⟨kind, listing⟩, _⟩ := written (by omega)
  refine ⟨img', types', contents', building', kind.trans dir, ?_, by omega, ?_⟩
  · rw [listing, content]
    rfl
  · rw [main, added]
    rfl

variable {img : DiskImage} {types : Inum → Int} {contents : Inum → List UInt8}

namespace Listing

/-- The size of the root directory before it is rounded. -/
theorem size (listing : Listing files img types contents) :
    (img.rinode ROOTINO).size = direntSize * (files.length + 2) := by
  have stored : (img.rinode ROOTINO).size = (contents rootInum).length := (listing.stores rootInum).size
  rw [stored, listing.root, length_rootContent]

/-- The root directory of the finished image: its inode, its size, and what it stores if no block below
the size is missing. -/
theorem finish (listing : Listing files img types contents) (numbers : files.length + 2 ≤ mkfsSuperblock.ninodes) :
    ∃ img' size, mkfsMain files = .ok img' ∧ (img'.rinode ROOTINO).type = T_DIR ∧
      (img'.rinode ROOTINO).addrs = (img.rinode ROOTINO).addrs ∧ (img'.rinode ROOTINO).size = size ∧
      size = (direntSize * (files.length + 2) / BSIZE + 1) * BSIZE ∧
      ((∀ bn, bn * BSIZE < size → mapping img.inodes img.marked rootInum bn ≠ 0) →
        ∀ log, ∃ more, Stores ⟨img'.inodes, Store.boot img'.sectors log⟩ rootInum (rootContent files ++ more)) := by
  have unit : direntSize = 16 := rfl
  have block : BSIZE = 512 := rfl
  have ninodes : mkfsSuperblock.ninodes = 200 := rfl
  have maximum : MAXFILE * BSIZE = 1082201088 := by decide
  have size := listing.size
  obtain ⟨new, sized⟩ : ∃ new, new = ((img.rinode ROOTINO).size / BSIZE + 1) * BSIZE := ⟨_, rfl⟩
  have main := listing.main
  rw [← sized] at main
  rw [size] at sized
  have small : new < 2 ^ 32 := by
    rw [unit, block] at sized
    omega
  obtain ⟨img', finished, inodes, wrote, _⟩ := listing.toBuilding.finishRoot listing.few small
  have root : img'.rinode ROOTINO = { img.rinode ROOTINO with size := new } :=
    (congrFun inodes rootInum).trans (Function.update_self _ _ _)
  have kind : (img.rinode ROOTINO).type = T_DIR := (listing.typed rootInum).trans listing.dir
  refine ⟨img', new, main.trans finished, ?_, ?_, ?_, sized, ?_⟩
  · rw [root]
    exact kind
  · rw [root]
  · rw [root]
  · intro mapped log
    have stores := listing.stores rootInum
    rw [listing.root] at stores
    have grown : (img'.inodes rootInum).size = new := congrArg Inode.size root
    refine stores.extended (wrote log) grown ?_ ?_ mapped
    · rw [length_rootContent, sized, unit, block]
      omega
    · rw [unit, block] at sized
      omega

/-- The root directory has no hole if its last block is not full. -/
theorem whole (listing : Listing files img types contents) (numbers : files.length + 2 ≤ mkfsSuperblock.ninodes)
    (partly : direntSize * (files.length + 2) % BSIZE ≠ 0) :
    ∃ img', mkfsMain files = .ok img' ∧ RootWhole files img' := by
  have unit : direntSize = 16 := rfl
  have block : BSIZE = 512 := rfl
  have ninodes : mkfsSuperblock.ninodes = 200 := rfl
  have end_of_file : appendable = 70656 := by decide
  obtain ⟨img', size, main, dir, _, grown, sized, stored⟩ := listing.finish numbers
  have mapped : ∀ bn, bn * BSIZE < size → mapping img.inodes img.marked rootInum bn ≠ 0 := by
    intro bn low
    have stores := listing.stores rootInum
    have inside : bn * BSIZE < (contents rootInum).length := by
      rw [listing.root, length_rootContent]
      rw [unit, block] at sized partly
      rw [block] at low
      rw [unit, block]
      omega
    have at_start := (stores.bytes _ inside).1
    rw [Nat.mul_div_cancel bn (by decide)] at at_start
    exact at_start
  have stores := stored mapped
  have file : (img'.inodes rootInum).type ≠ T_DEV := by
    have kind : (img'.inodes rootInum).type = T_DIR := dir
    rw [kind]
    decide
  have short : size ≤ appendable := by
    rw [unit, block] at sized
    omega
  have searched : ∀ devsw log, ∃ more, ∀ name,
      Store.exec checked (dirlookup mkfsSuperblock devsw (img'.rinode ROOTINO) name)
        (Store.boot img'.sectors log) =
          .ok ((img'.rinode ROOTINO, (findEntry (cut name DIRSIZ) (rootEntries files ++ dirents more)).map
            fun found => (found.1, direntSize * found.2)), Store.boot img'.sectors log) := by
    intro devsw log
    obtain ⟨more, holds⟩ := stores log
    have length : (rootContent files ++ more).length = size := holds.size.symm.trans grown
    have reads : ReadsEntries (Store.handler checked) mkfsSuperblock devsw (img'.rinode ROOTINO) (rootContent files ++ more)
        fun store => store = Store.boot img'.sectors log := by
      rintro i store inside rfl
      have fits : direntSize * i < 2 ^ 32 := by
        rw [length, unit] at inside
        rw [unit]
        omega
      have returned : Store.exec checked
          (readi mkfsSuperblock devsw (img'.inodes rootInum) (direntSize * i) direntSize) _ = _ :=
        readi_quiet holds file (length ▸ short) fits (by decide)
      have accepted : ¬Refused (rootContent files ++ more).length (direntSize * i) direntSize := by
        unfold Refused
        rw [length, unit] at inside ⊢
        omega
      have all : min direntSize ((rootContent files ++ more).length - direntSize * i) = direntSize := by
        rw [length, unit] at inside ⊢
        omega
      rw [if_neg accepted, all] at returned
      exact wp_of_run returned ⟨rfl, rfl⟩
    refine ⟨more, fun name => ?_⟩
    have whole : (rootContent files ++ more).length % direntSize = 0 := by
      rw [length, sized, unit, block]
      omega
    have start : Store.boot img'.sectors log = Store.boot img'.sectors log := rfl
    obtain ⟨value, store, ran, returned, kept⟩ :=
      wp_returns (dirlookup_reads reads name (grown.trans length.symm) whole dir start)
    rw [dirents_rootContent (by omega)] at returned
    rw [returned, kept] at ran
    exact ran
  refine ⟨img', main, ?_, ?_, ?_, ?_⟩
  · intro bn low
    obtain ⟨more, holds⟩ := stores img.store.log
    exact (holds.mappedBelow bn low).2
  · intro devsw piperead log f n readable type off_fits
    obtain ⟨more, holds⟩ := stores log
    have length : (rootContent files ++ more).length = size := holds.size.symm.trans grown
    rw [filereadQuiet_iff readable type]
    exact ⟨_, _, readi_quiet holds file (length ▸ short) off_fits (toUint_lt n)⟩
  · intro devsw log name
    obtain ⟨more, search⟩ := searched devsw log
    exact ⟨_, search name⟩
  · intro file member
    obtain ⟨⟨inum, i⟩, here⟩ := findEntry_listed member
    refine ⟨inum, i, here, fun devsw log => ?_⟩
    obtain ⟨more, search⟩ := searched devsw log
    rw [search, findEntry_append here]
    rfl

/-- The root directory has a hole if its last block is full: the block after it is not allocated. -/
theorem hole (listing : Listing files img types contents) (numbers : files.length + 2 ≤ mkfsSuperblock.ninodes)
    (full : direntSize * (files.length + 2) % BSIZE = 0) :
    ∃ img', mkfsMain files = .ok img' ∧
      direntSize * (files.length + 2) / BSIZE * BSIZE < (img'.rinode ROOTINO).size ∧
      blockAt (img'.rinode ROOTINO) img'.sectors (direntSize * (files.length + 2) / BSIZE) = 0 := by
  have unit : direntSize = 16 := rfl
  have block : BSIZE = 512 := rfl
  have direct : NDIRECT = 10 := rfl
  have ninodes : mkfsSuperblock.ninodes = 200 := rfl
  obtain ⟨img', size, main, _, addrs, grown, sized, _⟩ := listing.finish numbers
  have low : direntSize * (files.length + 2) / BSIZE < NDIRECT := by
    rw [unit, block, direct]
    omega
  refine ⟨img', main, ?_, ?_⟩
  · rw [grown, sized]
    exact Nat.mul_lt_mul_of_pos_right (Nat.lt_succ_self _) (by decide)
  · have past : (contents rootInum).length ≤ direntSize * (files.length + 2) / BSIZE * BSIZE := by
      rw [listing.root, length_rootContent]
      rw [unit, block] at full ⊢
      omega
    have vacant := listing.trimmed rootInum ⟨_, direct_lt low⟩ low past
    rw [blockAt_direct low, addrs]
    exact vacant

end Listing

/-- The root directory made by `mkfs` has no hole. -/
def MkfsRootWhole (files : List HostFile) : Prop := ∃ img, mkfsMain files = .ok img ∧ RootWhole files img

/-- `mkfs` makes a root directory without a hole exactly when no file is longer than `iappend` can
write and the entries of the root directory do not fill its last block. -/
theorem mkfs_root_whole_iff (fit : FilesFit files) :
    MkfsRootWhole files ↔
      (∀ file ∈ files, file.content.length ≤ (NDIRECT + NINDIRECT) * BSIZE) ∧
        direntSize * (files.length + 2) % BSIZE ≠ 0 := by
  constructor
  · rintro ⟨img, made, root⟩
    have short : ∀ file ∈ files, file.content.length ≤ appendable := by
      intro file member
      by_contra longer
      rw [mkfsMain_outside fit ⟨file, member, Nat.lt_of_not_le longer⟩] at made
      cases made
    refine ⟨short, fun full => ?_⟩
    obtain ⟨_, _, _, listing⟩ := mkfsMain_lists fit short
    obtain ⟨img', made', below, missing⟩ := listing.hole fit.numbers full
    rw [made] at made'
    cases made'
    exact root.allocated _ below missing
  · rintro ⟨short, partly⟩
    obtain ⟨_, _, _, listing⟩ := mkfsMain_lists fit short
    exact listing.whole fit.numbers partly

end Whole

/-- An empty file with a name of two letters. -/
def emptyFile (i : Nat) : HostFile where
  name := [97, 97 + UInt8.ofNat i]
  reads := []
  pieces _ member := nomatch member

/-- Empty files fit the image. -/
theorem emptyFiles_fit {n : Nat} (few : n ≤ 30) : FilesFit ((List.range n).map emptyFile) := by
  have content : ∀ file ∈ (List.range n).map emptyFile, file.content.length = 0 ∧ slash ∉ file.name := by
    intro file member
    obtain ⟨i, inside, rfl⟩ := List.mem_map.mp member
    have low := List.mem_range.mp inside
    have names : ∀ i < 30, slash ∉ (emptyFile i).name := by decide
    exact ⟨rfl, names i (by omega)⟩
  have none : blocksOf ((List.range n).map emptyFile) = 0 := by
    unfold blocksOf
    rw [List.sum_eq_zero]
    intro cost member
    obtain ⟨file, inside, rfl⟩ := List.mem_map.mp member
    rw [(content file inside).1]
    rfl
  constructor
  · exact fun file member => (content file member).2
  · rw [List.length_map, List.length_range]
    exact Nat.le_trans (Nat.add_le_add_right few 2) (by decide)
  · rw [none, List.length_map, List.length_range]
    have more := blocksFor_mono (Nat.mul_le_mul_left direntSize (Nat.add_le_add_right few 2))
    exact Nat.lt_of_le_of_lt (Nat.add_le_add_left more _) (by decide)

/-- Two empty files leave the root directory whole. -/
theorem mkfs_root_whole_two :
    FilesFit ((List.range 2).map emptyFile) ∧ MkfsRootWhole ((List.range 2).map emptyFile) := by
  have fit := emptyFiles_fit (show 2 ≤ 30 by decide)
  refine ⟨fit, (mkfs_root_whole_iff fit).mpr ⟨?_, by decide⟩⟩
  intro file member
  obtain ⟨i, _, rfl⟩ := List.mem_map.mp member
  exact Nat.zero_le _

/-- With 30 empty files the entries of the root directory fill its block; its size becomes two blocks,
and the second is not allocated. -/
theorem mkfs_root_hole : FilesFit ((List.range 30).map emptyFile) ∧
    (∃ img, mkfsMain ((List.range 30).map emptyFile) = .ok img ∧ 1 * BSIZE < (img.rinode ROOTINO).size ∧
      blockAt (img.rinode ROOTINO) img.sectors 1 = 0) ∧
    ¬MkfsRootWhole ((List.range 30).map emptyFile) := by
  have fit := emptyFiles_fit (Nat.le_refl 30)
  have short : ∀ file ∈ (List.range 30).map emptyFile, file.content.length ≤ appendable := by
    intro file member
    obtain ⟨i, _, rfl⟩ := List.mem_map.mp member
    exact Nat.zero_le _
  obtain ⟨_, _, _, listing⟩ := mkfsMain_lists fit short
  obtain ⟨img, made, below, missing⟩ := listing.hole fit.numbers (by decide)
  refine ⟨fit, ⟨img, made, below, missing⟩, ?_⟩
  rintro ⟨img', made', root⟩
  rw [made] at made'
  cases made'
  exact root.allocated 1 below missing

end Xv6
