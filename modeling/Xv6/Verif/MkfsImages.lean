import Xv6.Verif.Dirents
import Xv6.Verif.MkfsAppends

/-!
# What `mkfs` writes, the kernel reads

The image under construction represents the files written so far; every call of `iappend` keeps
that as long as the file stays within the direct and single indirect ranges. So `mkfs` writes
what the kernel reads back if and only if no file is longer than that.
-/

namespace Xv6

open Program Splice

namespace DiskImage

/-- The image under construction: the types of its inodes, and the files written so far. -/
structure Building (img : DiskImage) (types : Inum → Int) (contents : Inum → List UInt8) : Prop where
  owned : Owned mkfsSuperblock nmeta img.inodes img.marked
  ready : img.Ready
  stores : ∀ k, Stores img.fs k (contents k)
  typed : ∀ k, (img.inodes k).type = types k
  /-- Inodes not allocated are blank. -/
  fresh : ∀ k : Inum, img.freeinode ≤ k → (∀ i, (img.inodes k).addrs i = 0) ∧ contents k = []
  /-- A file has no direct block past its end. -/
  trimmed : ∀ (k : Inum) (i : Slot), i.val < NDIRECT → (contents k).length ≤ i.val * BSIZE →
    (img.inodes k).addrs i = 0

/-- The length of the largest file that `iappend` can write. -/
def appendable : Nat := (NDIRECT + NINDIRECT) * BSIZE

variable {img img' : DiskImage} {types : Inum → Int} {contents : Inum → List UInt8}

/-! ## Steps -/

/-- The blank image is zero but for the super block. -/
theorem blankImage_sectors {b : Nat} (other : b ≠ 1) : blankImage.sectors b = Block.zero := if_neg other

/-- The inodes of the blank image are blank. -/
theorem blankImage_inodes (k : Inum) : (blankImage.inodes k).type = 0 ∧ (blankImage.inodes k).size = 0 ∧
    ∀ i, (blankImage.inodes k).addrs i = 0 := by
  have block : IBLOCK k mkfsSuperblock ≠ 1 :=
    Nat.ne_of_gt (Nat.lt_of_lt_of_le (by decide) (Nat.le_add_left mkfsSuperblock.inodestart _))
  rw [inodes, rinode, blankImage_sectors block, getDinode]
  simp only [Block.word_zero]
  exact ⟨rfl, trivial, fun _ => trivial⟩

/-- The blank image holds no file. -/
theorem blankImage_building : Building blankImage (fun _ => 0) fun _ => [] := by
  have ready : blankImage.Ready := by
    constructor
    · exact Nat.le_refl _
    · intro b high
      have bound : nmeta ≤ b := high
      rw [nmeta_eq] at bound
      exact blankImage_sectors (by omega)
    · intro b high _
      rw [bmapstart_eq] at high
      exact blankImage_sectors (by omega)
  constructor
  · apply Owned.empty fun k => (blankImage_inodes k).2.2
    intro b low exist
    exact (used_marked ready (by decide) exist).mpr low
  · exact ready
  · intro k
    exact ⟨(blankImage_inodes k).2.1, Nat.zero_le _, fun i inside => absurd inside (Nat.not_lt_zero i)⟩
  · exact fun k => (blankImage_inodes k).1
  · exact fun k _ => ⟨(blankImage_inodes k).2.2, rfl⟩
  · exact fun k i _ _ => (blankImage_inodes k).2.2 i

/-- `ialloc` makes the next inode an empty file of the given type. -/
theorem Building.ialloc (building : img.Building types contents) {k : Inum} (next : img.freeinode = k)
    (type : Int) (fits : -32768 ≤ type ∧ type < 32768) :
    ∃ img', img.ialloc type = (k.val, img') ∧
      img'.Building (Function.update types k type) contents ∧ img'.freeinode = k + 1 ∧
      img'.freeblock = img.freeblock := by
  obtain ⟨vacant, empty⟩ := building.fresh k (Nat.le_of_eq next)
  obtain ⟨din, defined⟩ : ∃ din : Inode, din = ⟨k, type, 0, 0, 1, 0, fun _ => 0⟩ := ⟨_, rfl⟩
  have made : ({ img with freeinode := img.freeinode + 1 } : DiskImage).winode din =
      (img.ialloc type).2 := by
    rw [defined, ← next]
    rfl
  have din_fits : din.Fits := by
    rw [defined]
    have zero : (-32768 : Int) ≤ 0 ∧ (0 : Int) < 32768 := by decide
    have one : (-32768 : Int) ≤ 1 ∧ (1 : Int) < 32768 := by decide
    have small : 0 < 2 ^ 32 := by decide
    exact ⟨fits, zero, zero, one, small, fun _ => small⟩
  have numbered : din.inum = k := by rw [defined]
  have size : din.size = 0 := by rw [defined]
  have addrs : din.addrs = fun _ => 0 := by rw [defined]
  have kind : din.type = type := by rw [defined]
  have old_size : (img.inodes k).size = 0 := by
    have stored := (building.stores k).size
    rw [empty] at stored
    exact stored
  -- the new inode in memory, the image as before
  have roots : ∀ j, (Function.update img.inodes k din j).addrs = (img.inodes j).addrs ∧
      (Function.update img.inodes k din j).size = (img.inodes j).size := by
    intro j
    by_cases here : j = k
    · subst here
      rw [Function.update_self, size, addrs, old_size]
      exact ⟨funext fun i => (vacant i).symm, rfl⟩
    · rw [Function.update_of_ne here]
      exact ⟨rfl, rfl⟩
  have owned : Owned mkfsSuperblock nmeta (Function.update img.inodes k din)
      ({ img with freeinode := img.freeinode + 1 } : DiskImage).marked :=
    building.owned.frame (fun j => (roots j).1) (fun _ _ => rfl) fun _ _ _ _ _ => rfl
  have wrote := winode_wrote owned ((congrArg Inode.inum (Function.update_self _ _ _)).trans numbered) 0 0
  rw [Function.update_self, Function.update_idem, ← size] at wrote
  have inodes := inodes_winode { img with freeinode := img.freeinode + 1 } numbered din_fits
  have same : ({ img with freeinode := img.freeinode + 1 } : DiskImage).inodes = img.inodes := rfl
  rw [same] at inodes
  refine ⟨(img.ialloc type).2, Prod.ext next rfl, ?_, congrArg (· + 1) next, rfl⟩
  rw [← made]
  have ready : ({ img with freeinode := img.freeinode + 1 } : DiskImage).Ready :=
    ⟨building.ready.low, building.ready.blank, building.ready.rest⟩
  constructor
  · rw [inodes]
    exact wrote.owned
  · exact ready.winode (by rw [numbered]; exact k.isLt)
  · intro j
    have before : Stores ⟨Function.update img.inodes k din, img.store⟩ j (contents j) :=
      (building.stores j).congr (roots j).2 (roots j).1 rfl
    have after := before.unwritten wrote rfl
    rw [fs, inodes]
    exact after
  · intro j
    rw [inodes]
    by_cases here : j = k
    · rw [here, Function.update_self, Function.update_self, kind]
    · rw [Function.update_of_ne here, Function.update_of_ne here, building.typed]
  · intro j past
    have later : img.freeinode + 1 ≤ j := past
    have apart : j ≠ k := fun equal => by
      rw [equal, ← next] at later
      exact Nat.not_succ_le_self _ later
    rw [inodes, Function.update_of_ne apart]
    exact building.fresh j (by omega)
  · intro j i direct past
    rw [inodes, (roots j).1]
    exact building.trimmed j i direct past

/-- `iappend` appends to a file, within the direct and single indirect ranges. -/
theorem Building.append (building : img.Building types contents) {k : Inum} {p : List UInt8}
    (allocated : k < img.freeinode) (inside : (contents k).length + p.length ≤ appendable)
    (room : img.freeblock + blocksFor ((contents k).length + p.length) ≤
      BSIZE * 8 + blocksFor (contents k).length) :
    ∃ img', img.iappend k p = .ok img' ∧
      img'.Building types (Function.update contents k (contents k ++ p)) ∧
      img'.freeinode = img.freeinode ∧ img'.freeblock + blocksFor (contents k).length ≤
        img.freeblock + blocksFor ((contents k).length + p.length) := by
  have stores := building.stores k
  have size : (img.inodes k).size = (contents k).length := stores.size
  have below : ∀ bn, bn * BSIZE < (img.inodes k).size → mapping img.inodes img.marked k bn ≠ 0 := by
    intro bn low
    have mapped := (stores.mappedBelow bn low).2
    rw [← mapping_eq_blockAt img.fs.inodes img.fs.store.blocks k bn] at mapped
    exact mapped
  rw [← size] at inside room
  obtain ⟨img', returned, appends, grown, others, slots⟩ :=
    iappend_appends building.ready building.owned below inside room
  rw [size] at appends grown inside slots
  have maximum : appendable ≤ MAXFILE * BSIZE := Nat.mul_le_mul_right BSIZE (by decide)
  have accepted : Accepts (contents k).length (contents k).length p.length :=
    ⟨Nat.le_refl _, Nat.lt_of_le_of_lt inside (by decide), Nat.le_trans inside maximum⟩
  refine ⟨img', returned, ?_, appends.freeinode, ?_⟩
  · constructor
    · exact appends.wrote.owned
    · exact appends.ready
    · intro j
      by_cases here : j = k
      · subst here
        have wrote := stores.wrote accepted appends.wrote (by
          rw [splice_end, List.length_append]
          exact grown)
        rw [splice_end] at wrote
        rw [Function.update_self]
        exact wrote
      · rw [Function.update_of_ne here]
        exact (building.stores j).kept appends.wrote here (congrArg Inode.size (others j here))
    · intro j
      obtain ⟨_, _, same⟩ := appends.wrote.inode j
      dsimp only at same
      rw [same]
      exact building.typed j
    · intro j past
      rw [appends.freeinode] at past
      have apart : j ≠ k := fun equal => by
        rw [equal] at past
        omega
      rw [others j apart, Function.update_of_ne apart]
      exact building.fresh j past
    · intro j i direct past
      by_cases here : j = k
      · subst here
        rw [Function.update_self, List.length_append] at past
        rw [slots i direct past]
        exact building.trimmed j i direct (Nat.le_trans (Nat.le_add_right _ _) past)
      · rw [Function.update_of_ne here] at past
        rw [others j here]
        exact building.trimmed j i direct past
  · exact appends.taken

/-- The loop over what `read` returned appends a whole file. -/
theorem Building.appendAll (building : img.Building types contents) {k : Inum} (pieces : List (List UInt8))
    (allocated : k < img.freeinode) (inside : (contents k).length + pieces.flatten.length ≤ appendable)
    (room : img.freeblock + blocksFor ((contents k).length + pieces.flatten.length) ≤
      BSIZE * 8 + blocksFor (contents k).length) :
    ∃ img', img.appendAll k pieces = .ok img' ∧
      img'.Building types (Function.update contents k (contents k ++ pieces.flatten)) ∧
      img'.freeinode = img.freeinode ∧ img'.freeblock + blocksFor (contents k).length ≤
        img.freeblock + blocksFor ((contents k).length + pieces.flatten.length) := by
  induction pieces generalizing img contents with
  | nil =>
    refine ⟨img, rfl, ?_, rfl, ?_⟩
    · rw [List.flatten_nil, List.append_nil, Function.update_eq_self]
      exact building
    · rw [List.flatten_nil, List.length_nil, Nat.add_zero]
  | cons p rest ih =>
    rw [List.flatten_cons, List.length_append, ← Nat.add_assoc] at inside room ⊢
    have part := blocksFor_mono (Nat.le_add_right ((contents k).length + p.length) rest.flatten.length)
    obtain ⟨img₁, returned, building₁, freeinode, taken⟩ :=
      building.append allocated (p := p) (by omega) (by omega)
    have length : (Function.update contents k (contents k ++ p) k).length = (contents k).length + p.length := by
      rw [Function.update_self, List.length_append]
    obtain ⟨img', returned', building', freeinode', taken'⟩ := ih building₁ (by rw [freeinode]; exact allocated)
      (by rw [length]; exact inside) (by rw [length]; omega)
    rw [Function.update_self, Function.update_idem, List.append_assoc] at building'
    rw [length] at taken'
    refine ⟨img', ?_, building', freeinode'.trans freeinode, by omega⟩
    rw [DiskImage.appendAll, returned]
    exact returned'

/-! ## Files that are too long -/

/-- Past the direct and single indirect ranges the loop of `iappend` indexes outside `indirect`. -/
theorem appendLoop_outside {din : Inode} {off fuel : Nat} {p : List UInt8} (short : off ≤ appendable)
    (long : appendable < off + p.length) (enough : p.length ≤ fuel) :
    img.appendLoop din off p fuel = .error (.outside "indirect" NINDIRECT) := by
  induction fuel generalizing img din off p with
  | zero => omega
  | succ fuel ih =>
    have maximum : NDIRECT + NINDIRECT < MAXFILE := by decide
    have top : appendable / BSIZE = NDIRECT + NINDIRECT := Nat.mul_div_cancel _ (by decide)
    have block : off / BSIZE ≤ NDIRECT + NINDIRECT := top ▸ Nat.div_le_div_right short
    rw [appendLoop, if_neg (by omega), if_neg (by omega)]
    by_cases past : off / BSIZE = NDIRECT + NINDIRECT
    · rw [past, appendBlock_outside (Nat.le_refl _), Nat.add_sub_cancel_left]
      rfl
    · obtain ⟨found, step⟩ := appendBlock_total img din (show off / BSIZE < NDIRECT + NINDIRECT by omega)
      have whole := Nat.div_add_mod off BSIZE
      have limit : (off / BSIZE + 1) * BSIZE ≤ appendable := Nat.mul_le_mul_right BSIZE (by omega)
      have next : off < (off / BSIZE + 1) * BSIZE := by
        have small : off % BSIZE < BSIZE := Nat.mod_lt _ (by decide)
        rw [Nat.mul_comm] at whole
        rw [Nat.add_mul]
        omega
      have part : min p.length ((off / BSIZE + 1) * BSIZE - off) = (off / BSIZE + 1) * BSIZE - off := by omega
      have left : (p.drop ((off / BSIZE + 1) * BSIZE - off)).length =
          p.length - ((off / BSIZE + 1) * BSIZE - off) := List.length_drop
      rw [step, part]
      exact ih (by omega) (by omega) (by omega)

/-- So does `iappend`. -/
theorem Building.append_outside (building : img.Building types contents) {k : Inum} {p : List UInt8}
    (short : (contents k).length ≤ appendable) (long : appendable < (contents k).length + p.length) :
    img.iappend k p = .error (.outside "indirect" NINDIRECT) := by
  have size : (img.rinode k).size = (contents k).length := (building.stores k).size
  rw [iappend, size, appendLoop_outside short long (Nat.le_refl _)]
  rfl

/-- A file that is too long is never finished. -/
theorem Building.appendAll_outside (building : img.Building types contents) {k : Inum}
    (pieces : List (List UInt8)) (allocated : k < img.freeinode) (short : (contents k).length ≤ appendable)
    (long : appendable < (contents k).length + pieces.flatten.length)
    (room : img.freeblock + blocksFor ((contents k).length + pieces.flatten.length) ≤
      BSIZE * 8 + blocksFor (contents k).length) :
    img.appendAll k pieces = .error (.outside "indirect" NINDIRECT) := by
  induction pieces generalizing img contents with
  | nil =>
    rw [List.flatten_nil, List.length_nil] at long
    omega
  | cons p rest ih =>
    rw [List.flatten_cons, List.length_append, ← Nat.add_assoc] at long room
    have part := blocksFor_mono (Nat.le_add_right ((contents k).length + p.length) rest.flatten.length)
    rw [DiskImage.appendAll]
    by_cases inside : (contents k).length + p.length ≤ appendable
    · obtain ⟨img₁, step, building₁, freeinode, taken⟩ := building.append allocated inside (by omega)
      have length : (Function.update contents k (contents k ++ p) k).length = (contents k).length + p.length := by
        rw [Function.update_self, List.length_append]
      rw [step]
      exact ih building₁ (by rw [freeinode]; exact allocated) (by rw [length]; exact inside)
        (by rw [length]; exact long) (by rw [length]; omega)
    · rw [building.append_outside short (Nat.lt_of_not_le inside)]
      rfl

/-! ## The files of the command line -/

/-- The inode number of the root directory. -/
def rootInum : Inum := ⟨ROOTINO, by decide⟩

/-- The blocks for the contents of some files. -/
def blocksOf (files : List HostFile) : Nat := (files.map fun file => blocksFor file.content.length).sum

/-- A new file gets an inode and an entry of the root directory. -/
theorem Building.addEntry (building : img.Building types contents) {k : Inum} (next : img.freeinode = k)
    (past : 2 ≤ k.val) (root : (contents rootInum).length = direntSize * k) (name : Chars)
    (room : img.freeblock + blocksFor (direntSize * (k + 1)) ≤ BSIZE * 8 + blocksFor (direntSize * k)) :
    ∃ img₁ img₂, img.ialloc T_FILE = (k.val, img₁) ∧ img₁.iappend ROOTINO (putDirent k name) = .ok img₂ ∧
      img₂.Building (Function.update types k T_FILE)
        (Function.update contents rootInum (contents rootInum ++ putDirent k name)) ∧
      img₂.freeinode = k + 1 ∧ img₂.freeblock + blocksFor (direntSize * k) ≤
        img.freeblock + blocksFor (direntSize * (k + 1)) := by
  obtain ⟨img₁, made, building₁, freeinode, freeblock⟩ := building.ialloc next T_FILE (by decide)
  have allocated : rootInum.val < img₁.freeinode := by
    have one : rootInum.val = 1 := rfl
    omega
  have grown : (contents rootInum).length + (putDirent k name).length = direntSize * (k + 1) := by
    rw [root, length_putDirent, Nat.mul_succ]
  have small : direntSize * (k + 1) ≤ appendable :=
    Nat.le_trans (Nat.mul_le_mul_left _ k.isLt) (by decide)
  obtain ⟨img₂, appended, building₂, freeinode₂, taken⟩ := building₁.append (p := putDirent k name) allocated
    (by rw [grown]; exact small) (by rw [grown, root, freeblock]; exact room)
  rw [grown, root, freeblock] at taken
  exact ⟨img₁, img₂, made, appended, building₂, freeinode₂.trans freeinode, taken⟩

/-- A file that is not too long is written. -/
theorem Building.addFile (building : img.Building types contents) {k : Inum} (next : img.freeinode = k)
    (past : 2 ≤ k.val) (root : (contents rootInum).length = direntSize * k) {file : HostFile}
    (short : file.content.length ≤ appendable)
    (room : img.freeblock + blocksFor (direntSize * (k + 1)) + blocksFor file.content.length ≤
      BSIZE * 8 + blocksFor (direntSize * k)) :
    ∃ img₁ img₂ img', img.ialloc T_FILE = (k.val, img₁) ∧
      img₁.iappend ROOTINO (putDirent k (chars file.entryName)) = .ok img₂ ∧
      img₂.appendAll k file.reads = .ok img' ∧
      img'.Building (Function.update types k T_FILE) (Function.update (Function.update contents rootInum
        (contents rootInum ++ putDirent k (chars file.entryName))) k file.content) ∧
      img'.freeinode = k + 1 ∧ img'.freeblock + blocksFor (direntSize * k) ≤
        img.freeblock + blocksFor (direntSize * (k + 1)) + blocksFor file.content.length ∧
      (Function.update (Function.update contents rootInum (contents rootInum ++ putDirent k (chars file.entryName))) k
        file.content rootInum).length = direntSize * (k + 1) := by
  obtain ⟨img₁, img₂, made, listed, building₂, freeinode, taken⟩ :=
    building.addEntry next past root (chars file.entryName) (by omega)
  have apart : k ≠ rootInum := fun equal => by
    rw [equal] at past
    exact absurd past (by decide)
  have empty : Function.update contents rootInum (contents rootInum ++ putDirent k (chars file.entryName)) k =
      [] := by
    rw [Function.update_of_ne apart]
    exact (building.fresh k (Nat.le_of_eq next)).2
  have zero : blocksFor 0 = 0 := rfl
  have content : file.reads.flatten = file.content := rfl
  have written := building₂.appendAll (k := k) file.reads (by omega)
  rw [empty, List.length_nil, Nat.zero_add, zero, Nat.add_zero, List.nil_append, content] at written
  obtain ⟨img', appended, building', freeinode', taken'⟩ := written short (by omega)
  refine ⟨img₁, img₂, img', made, listed, appended, building', freeinode'.trans freeinode, by omega, ?_⟩
  rw [Function.update_of_ne (Ne.symm apart), Function.update_self, List.length_append, root, length_putDirent, Nat.mul_succ]

/-- The bytes of the files' entries in the root directory, from an inode number on. -/
def fileEntries (inum : Nat) : List HostFile → List UInt8
  | [] => []
  | file :: rest => putDirent inum (chars file.entryName) ++ fileEntries (inum + 1) rest

/-- The loop of `main` writes every file, if none is too long, and lists it in the root directory. -/
theorem Building.addFiles (building : img.Building types contents) {files : List HostFile}
    (past : 2 ≤ img.freeinode) (numbers : img.freeinode + files.length ≤ mkfsSuperblock.ninodes)
    (root : (contents rootInum).length = direntSize * img.freeinode)
    (named : ∀ file ∈ files, slash ∉ file.name) (short : ∀ file ∈ files, file.content.length ≤ appendable)
    (room : img.freeblock + blocksFor (direntSize * (img.freeinode + files.length)) + blocksOf files ≤
      BSIZE * 8 + blocksFor (direntSize * img.freeinode)) :
    ∃ img' types' contents', img.addFiles ROOTINO files = .ok img' ∧ img'.Building types' contents' ∧
      img'.freeblock + blocksFor (direntSize * img.freeinode) ≤
        img.freeblock + blocksFor (direntSize * (img.freeinode + files.length)) + blocksOf files ∧
      (∀ k : Inum, k < img.freeinode → k ≠ rootInum → types' k = types k ∧ contents' k = contents k) ∧
      (types' rootInum = types rootInum ∧
        contents' rootInum = contents rootInum ++ fileEntries img.freeinode files) ∧
      ∀ i file, files[i]? = some file → ∀ k : Inum, k.val = img.freeinode + i →
        types' k = T_FILE ∧ contents' k = file.content := by
  induction files generalizing img types contents with
  | nil =>
    exact ⟨img, types, contents, rfl, building, Nat.le_refl _, fun _ _ _ => ⟨rfl, rfl⟩,
      ⟨rfl, (List.append_nil _).symm⟩, fun i file found => by rw [List.getElem?_nil] at found; cases found⟩
  | cons file rest ih =>
    rw [List.length_cons] at numbers room ⊢
    obtain ⟨k, next⟩ : ∃ k : Inum, img.freeinode = k := ⟨⟨img.freeinode, by omega⟩, rfl⟩
    rw [next] at past numbers root room ⊢
    have total : blocksOf (file :: rest) = blocksFor file.content.length + blocksOf rest := by
      rw [blocksOf, List.map_cons, List.sum_cons]
      rfl
    have later : k.val + 1 + rest.length = k + (rest.length + 1) := by omega
    have more := blocksFor_mono (Nat.mul_le_mul_left direntSize (show k.val + 1 ≤ k + (rest.length + 1) by omega))
    rw [total] at room ⊢
    obtain ⟨img₁, img₂, img₃, made, listed, appended, building₃, freeinode, taken, length⟩ :=
      building.addFile next past root (short file List.mem_cons_self) (by omega)
    have apart : rootInum ≠ k := fun equal => by
      rw [← equal] at past
      exact absurd past (by decide)
    have rest_of_run := ih building₃ (by omega) (by omega) (by rw [length, freeinode])
      (fun other member => named other (List.mem_cons_of_mem _ member))
      (fun other member => short other (List.mem_cons_of_mem _ member)) (by rw [freeinode, later]; omega)
    rw [freeinode, later] at rest_of_run
    obtain ⟨img', types', contents', returned, building', taken', before, listing, after⟩ := rest_of_run
    refine ⟨img', types', contents', ?_, building', by omega, ?_, ?_, ?_⟩
    · rw [DiskImage.addFiles, if_neg (named file List.mem_cons_self), made]
      dsimp only
      rw [listed]
      show (img₂.appendAll k file.reads >>= _) = _
      rw [appended]
      exact returned
    · intro j low other
      have apart_j : j ≠ k := fun equal => by
        rw [equal] at low
        exact Nat.lt_irrefl _ low
      have kept := before j (Nat.lt_succ_of_lt low) other
      rw [Function.update_of_ne apart_j, Function.update_of_ne apart_j, Function.update_of_ne other] at kept
      exact kept
    · rw [Function.update_of_ne apart, Function.update_of_ne apart, Function.update_self, List.append_assoc]
        at listing
      exact listing
    · intro i found at_i j number
      cases i with
      | zero =>
        have here : j = k := Fin.ext number
        rw [List.getElem?_cons_zero] at at_i
        cases at_i
        have kept := before k (Nat.lt_succ_self _) (Ne.symm apart)
        rw [Function.update_self, Function.update_self] at kept
        rw [here]
        exact kept
      | succ i =>
        rw [List.getElem?_cons_succ] at at_i
        exact after i found at_i j (by omega)

/-- The loop of `main` indexes outside `indirect` if a file is too long. -/
theorem Building.addFiles_outside (building : img.Building types contents) {files : List HostFile}
    (past : 2 ≤ img.freeinode) (numbers : img.freeinode + files.length ≤ mkfsSuperblock.ninodes)
    (root : (contents rootInum).length = direntSize * img.freeinode)
    (named : ∀ file ∈ files, slash ∉ file.name) (long : ∃ file ∈ files, appendable < file.content.length)
    (room : img.freeblock + blocksFor (direntSize * (img.freeinode + files.length)) + blocksOf files ≤
      BSIZE * 8 + blocksFor (direntSize * img.freeinode)) :
    img.addFiles ROOTINO files = .error (.outside "indirect" NINDIRECT) := by
  induction files generalizing img types contents with
  | nil =>
    obtain ⟨_, member, _⟩ := long
    exact absurd member List.not_mem_nil
  | cons file rest ih =>
    rw [List.length_cons] at numbers room
    obtain ⟨k, next⟩ : ∃ k : Inum, img.freeinode = k := ⟨⟨img.freeinode, by omega⟩, rfl⟩
    rw [next] at past numbers root room
    have total : blocksOf (file :: rest) = blocksFor file.content.length + blocksOf rest := by
      rw [blocksOf, List.map_cons, List.sum_cons]
      rfl
    have later : k.val + 1 + rest.length = k + (rest.length + 1) := by omega
    have more := blocksFor_mono (Nat.mul_le_mul_left direntSize (show k.val + 1 ≤ k + (rest.length + 1) by omega))
    have apart : rootInum ≠ k := fun equal => by
      rw [← equal] at past
      exact absurd past (by decide)
    rw [total] at room
    rw [DiskImage.addFiles, if_neg (named file List.mem_cons_self)]
    by_cases short : file.content.length ≤ appendable
    · obtain ⟨img₁, img₂, img₃, made, listed, appended, building₃, freeinode, taken, length⟩ :=
        building.addFile next past root short (by omega)
      have remains : ∃ other ∈ rest, appendable < other.content.length := by
        obtain ⟨other, member, longer⟩ := long
        rcases List.mem_cons.mp member with here | there
        · rw [here] at longer
          omega
        · exact ⟨other, there, longer⟩
      have failed := ih building₃ (by omega) (by omega) (by rw [length, freeinode])
        (fun other member => named other (List.mem_cons_of_mem _ member)) remains
        (by rw [freeinode, later]; omega)
      rw [made]
      dsimp only
      rw [listed]
      show (img₂.appendAll k file.reads >>= _) = _
      rw [appended]
      exact failed
    · obtain ⟨img₁, img₂, made, listed, building₂, freeinode, taken⟩ :=
        building.addEntry next past root (chars file.entryName) (by omega)
      have empty : Function.update contents rootInum
          (contents rootInum ++ putDirent k (chars file.entryName)) k = [] := by
        rw [Function.update_of_ne (Ne.symm apart)]
        exact (building.fresh k (Nat.le_of_eq next)).2
      have zero : blocksFor 0 = 0 := rfl
      have content : file.reads.flatten = file.content := rfl
      have failed := building₂.appendAll_outside (k := k) file.reads (by omega)
      rw [empty, List.length_nil, Nat.zero_add, zero, Nat.add_zero, content] at failed
      rw [made]
      dsimp only
      rw [listed]
      show (img₂.appendAll k file.reads >>= _) = _
      rw [failed (Nat.zero_le _) (Nat.lt_of_not_le short) (by omega)]
      rfl

/-- The root directory before the files: two entries. -/
theorem mkfsMain_root : ∃ (img : DiskImage) (types : Inum → Int) (contents : Inum → List UInt8),
    img.Building types contents ∧ img.freeinode = 2 ∧ types rootInum = T_DIR ∧
    contents rootInum = putDirent ROOTINO (chars dot) ++ putDirent ROOTINO (chars dotdot) ∧
    (contents rootInum).length = direntSize * 2 ∧ img.freeblock ≤ nmeta + blocksFor (direntSize * 2) ∧
    ∀ files, mkfsMain files = (img.addFiles ROOTINO files >>= fun img =>
      (img.winode { img.rinode ROOTINO with size := ((img.rinode ROOTINO).size / BSIZE + 1) * BSIZE }).balloc
        img.freeblock) := by
  obtain ⟨img₀, made, building₀, freeinode₀, freeblock₀⟩ :=
    blankImage_building.ialloc (k := rootInum) rfl T_DIR (by decide)
  have allocated : ∀ {n}, n = rootInum.val + 1 → rootInum.val < n := fun same => same ▸ Nat.lt_succ_self _
  have start : blankImage.freeblock = 68 := nmeta_eq
  have zero : blocksFor 0 = 0 := rfl
  have one : blocksFor direntSize = 1 := rfl
  have two : blocksFor (direntSize * 2) = 1 := rfl
  have bits : BSIZE * 8 = 4096 := rfl
  have first := length_putDirent ROOTINO (chars dot)
  have second := length_putDirent ROOTINO (chars dotdot)
  have small : direntSize * 2 ≤ appendable := by decide
  have unit : direntSize = 16 := rfl
  have step₁ := building₀.append (p := putDirent ROOTINO (chars dot)) (allocated freeinode₀)
  rw [List.length_nil, Nat.zero_add, List.nil_append, first, zero, Nat.add_zero] at step₁
  obtain ⟨img₁, dotted, building₁, freeinode₁, taken₁⟩ := step₁ (by omega) (by omega)
  have step₂ := building₁.append (p := putDirent ROOTINO (chars dotdot)) (allocated (freeinode₁.trans freeinode₀))
  rw [Function.update_self, Function.update_idem, first, second, ← Nat.mul_two] at step₂
  obtain ⟨img₂, dotdotted, building₂, freeinode₂, taken₂⟩ := step₂ (by omega) (by omega)
  refine ⟨img₂, _, _, building₂, (freeinode₂.trans freeinode₁).trans freeinode₀, Function.update_self _ _ _,
    Function.update_self _ _ _, ?_, ?_, ?_⟩
  · rw [Function.update_self, List.length_append, first, second, ← Nat.mul_two]
  · rw [nmeta_eq]
    omega
  · intro files
    have number : rootInum.val = ROOTINO := rfl
    rw [number] at made dotted dotdotted
    rw [mkfsMain, made]
    dsimp only
    rw [if_neg (fun wrong => wrong rfl), dotted]
    show (img₁.iappend ROOTINO _ >>= _) = _
    rw [dotdotted]
    rfl

/-- `readi` of an inode of the finished image returns the slices of a file, calls `log_write` on no
block and changes none. -/
def ReadBack (img : DiskImage) (inum : Nat) (content : List UInt8) : Prop :=
  (img.rinode inum).type = T_FILE ∧ (img.rinode inum).size = content.length ∧
    ∀ devsw log off n, off < 2 ^ 32 → n < 2 ^ 32 →
      Store.exec checked (readi mkfsSuperblock devsw (img.rinode inum) off n) (Store.boot img.sectors log) =
        .ok ((img.rinode inum, if Refused content.length off n then (-1, [])
          else (↑(min n (content.length - off)), (content.drop off).take (min n (content.length - off)))),
          Store.boot img.sectors log)

/-- A stored file within the direct and single indirect ranges is read without a write. -/
theorem readi_quiet {sb : Superblock} {devsw : Devsw} {s : FsState Inum} {k : Inum} {content : List UInt8}
    (stores : Stores s k content) (file : (s.inodes k).type ≠ T_DEV) (short : content.length ≤ appendable)
    {off n : Nat} (off_fits : off < 2 ^ 32) (n_fits : n < 2 ^ 32) :
    Store.exec checked (readi sb devsw (s.inodes k) off n) s.store =
      .ok ((s.inodes k, if Refused content.length off n then (-1, [])
        else (↑(min n (content.length - off)), (content.drop off).take (min n (content.length - off)))),
        s.store) := by
  have quiet : ReadQuiet (s.inodes k).size off n := by
    rw [stores.size]
    by_cases refused : Refused content.length off n
    · exact .inl refused
    · right
      unfold Refused at refused
      have end_of_file : (NDIRECT + NINDIRECT) * BSIZE = appendable := rfl
      unfold Quiet
      rw [end_of_file]
      omega
  have spec := readi_spec sb devsw (d := checked) (.inl rfl) file stores.mappedBelow off_fits n_fits
  cases result : Store.exec checked (readi sb devsw (s.inodes k) off n) s.store with
  | error reason => exact absurd quiet (wp_error spec result).1
  | ok passed =>
    obtain ⟨value, store⟩ := passed
    obtain ⟨returned, effect⟩ := wp_ok spec result
    rw [returned, effect.unchanged quiet, stores.read]

/-- A stored file within the direct and single indirect ranges is read back. -/
theorem readBack_of_stores {inodes : Inum → Inode} {k : Inum} {content : List UInt8}
    (same : inodes k = img.rinode k) (kind : (inodes k).type = T_FILE)
    (stores : ∀ log, Stores ⟨inodes, Store.boot img.sectors log⟩ k content)
    (short : content.length ≤ appendable) : img.ReadBack k content := by
  refine ⟨by rw [← same]; exact kind, by rw [← same]; exact (stores img.store.log).size, ?_⟩
  intro devsw log off n off_fits n_fits
  rw [← same]
  exact readi_quiet (stores log) (not_device kind) short off_fits n_fits

/-- The last steps of `main`: the root inode has its new size, the blocks are those before, and the free map is
written. -/
theorem Building.finishRoot (building : img.Building types contents) (few : img.freeblock < BSIZE * 8)
    {size : Nat} (small : size < 2 ^ 32) :
    ∃ img', (img.winode { img.rinode ROOTINO with size := size }).balloc img.freeblock = .ok img' ∧
      img'.inodes = Function.update img.inodes rootInum { img.inodes rootInum with size := size } ∧
      (∀ log, Wrote mkfsSuperblock nmeta img.fs ⟨img'.inodes, Store.boot img'.sectors log⟩ rootInum 0 []) ∧
      ∀ b < mkfsSuperblock.size, Used mkfsSuperblock img'.sectors b ↔ b < img'.freeblock := by
  obtain ⟨din, changed⟩ : ∃ din : Inode, din = { img.inodes rootInum with size := size } := ⟨_, rfl⟩
  have same_din : ({ img.rinode ROOTINO with size := size } : Inode) = din := changed.symm
  have numbered : din.inum = rootInum := by rw [changed]; rfl
  have fits : din.Fits := by
    have read : (img.inodes rootInum).Fits := getDinode_fits _ _
    rw [changed]
    exact ⟨read.type, read.major, read.minor, read.nlink, small, read.addrs⟩
  have wrote := winode_wrote (k := rootInum) building.owned rfl 0 size
  rw [← changed] at wrote ⊢
  have inodes := inodes_winode img numbered fits
  have ready := building.ready.winode (show din.inum < _ from numbered ▸ rootInum.isLt)
  have freeblock : (img.winode din).freeblock = img.freeblock := rfl
  have finished : (img.winode din).balloc img.freeblock =
      .ok ((img.winode din).wsect mkfsSuperblock.bmapstart (bitmap img.freeblock)) :=
    if_neg (Nat.not_le_of_lt few)
  have sectors : ((img.winode din).wsect mkfsSuperblock.bmapstart (bitmap img.freeblock)).sectors =
      (img.winode din).marked := rfl
  have read : ((img.winode din).wsect mkfsSuperblock.bmapstart (bitmap img.freeblock)).inodes =
      (img.winode din).inodes := by
    funext k
    show ((img.winode din).wsect mkfsSuperblock.bmapstart (bitmap img.freeblock)).rinode k = _
    rw [rinode, sectors, marked_ne (Nat.ne_of_lt (iblock_lt k.isLt))]
    rfl
  rw [same_din]
  refine ⟨_, finished, read.trans inodes, ?_, ?_⟩
  · intro log
    rw [read, inodes]
    exact wrote.congr rfl rfl rfl rfl
  · intro b exist
    rw [sectors, used_marked ready (by rw [freeblock]; exact Nat.le_of_lt few) exist]
    rfl

/-- The last steps of `main`: the files stay, and the free map is written. -/
theorem Building.finish (building : img.Building types contents) (few : img.freeblock < BSIZE * 8) (size : Nat)
    (small : size < 2 ^ 32) :
    ∃ img', (img.winode { img.rinode ROOTINO with size := size }).balloc img.freeblock = .ok img' ∧
      (∀ k : Inum, k ≠ rootInum → types k = T_FILE → (contents k).length ≤ appendable →
        img'.ReadBack k (contents k)) ∧
      ∀ b < mkfsSuperblock.size, Used mkfsSuperblock img'.sectors b ↔ b < img'.freeblock := by
  obtain ⟨img', finished, inodes, wrote, bits⟩ := building.finishRoot few small
  refine ⟨img', finished, ?_, bits⟩
  intro k other kind short
  have kept : img'.inodes k = img.inodes k := by
    rw [inodes, Function.update_of_ne other]
  refine readBack_of_stores (show img'.inodes k = img'.rinode k from rfl) (by rw [kept, building.typed]; exact kind) ?_ short
  exact fun log => (building.stores k).unwritten (wrote log) (congrArg Inode.size kept)

end DiskImage

open DiskImage

/-! ## The whole image -/

/-- `mkfs` writes an image from which the kernel reads every file, and whose free map marks exactly
the blocks below `freeblock`. -/
def MkfsReadable (files : List HostFile) : Prop :=
  ∃ img, mkfsMain files = .ok img ∧
    (∀ i file, files[i]? = some file → img.ReadBack (i + 2) file.content) ∧
    ∀ b < mkfsSuperblock.size, Used mkfsSuperblock img.sectors b ↔ b < img.freeblock

/-- The files fit the image: no name has a slash, there is an inode for each, and `balloc` can mark
the blocks of the root directory and of the files. -/
structure FilesFit (files : List HostFile) : Prop where
  named : ∀ file ∈ files, slash ∉ file.name
  numbers : files.length + 2 ≤ mkfsSuperblock.ninodes
  /-- The blocks. -/
  room : nmeta + blocksFor (direntSize * (files.length + 2)) + blocksOf files < BSIZE * 8

section Whole

variable {files : List HostFile}

/-- Files that are not too long are readable. -/
theorem mkfsMain_readable (fit : FilesFit files) (short : ∀ file ∈ files, file.content.length ≤ appendable) :
    MkfsReadable files := by
  obtain ⟨img, types, contents, building, freeinode, _, _, root, freeblock, main⟩ := mkfsMain_root
  have numbers := fit.numbers
  have room := fit.room
  have written := building.addFiles (by omega) (by rw [freeinode, Nat.add_comm]; exact numbers) (by rw [root, freeinode])
    fit.named short
  rw [freeinode, Nat.add_comm 2] at written
  obtain ⟨img', types', contents', added, building', taken, _, _, after⟩ := written (by omega)
  have root_size : ((img'.rinode ROOTINO).size / BSIZE + 1) * BSIZE < 2 ^ 32 := by
    have stored : (img'.rinode ROOTINO).size = (contents' rootInum).length := (building'.stores rootInum).size
    have bounded := (building'.stores rootInum).short
    rw [stored]
    have maximum : MAXFILE * BSIZE + BSIZE < 2 ^ 32 := by decide
    have part := Nat.div_mul_le_self (contents' rootInum).length BSIZE
    rw [Nat.add_mul]
    omega
  obtain ⟨final, finished, reads, bits⟩ := building'.finish (by omega) _ root_size
  refine ⟨final, ?_, ?_, bits⟩
  · rw [main, added]
    exact finished
  · intro i file found
    have inside : i < files.length := (List.getElem?_eq_some_iff.mp found).1
    obtain ⟨k, number⟩ : ∃ k : Inum, k.val = 2 + i := ⟨⟨2 + i, by omega⟩, rfl⟩
    obtain ⟨kind, content⟩ := after i file found k (by rw [number])
    have other : k ≠ rootInum := fun equal => by
      rw [equal] at number
      have one : rootInum.val = 1 := rfl
      omega
    have member : file ∈ files := List.mem_of_getElem? found
    have read := reads k other kind (by rw [content]; exact short file member)
    rw [content, number, Nat.add_comm 2] at read
    exact read

/-- A file that is too long makes `mkfs` index outside `indirect`. -/
theorem mkfsMain_outside (fit : FilesFit files) (long : ∃ file ∈ files, appendable < file.content.length) :
    mkfsMain files = .error (.outside "indirect" NINDIRECT) := by
  obtain ⟨img, types, contents, building, freeinode, _, _, root, freeblock, main⟩ := mkfsMain_root
  have numbers := fit.numbers
  have room := fit.room
  have failed := building.addFiles_outside (by omega) (by rw [freeinode, Nat.add_comm]; exact numbers)
    (by rw [root, freeinode])
    fit.named long
  rw [freeinode, Nat.add_comm 2] at failed
  rw [main, failed (by omega)]
  rfl

/-- What `mkfs` writes, the kernel reads, exactly when no file is longer than the direct and single
indirect ranges. -/
theorem mkfs_readable_iff (fit : FilesFit files) :
    MkfsReadable files ↔ ∀ file ∈ files, file.content.length ≤ (NDIRECT + NINDIRECT) * BSIZE := by
  constructor
  · intro readable file member
    by_contra longer
    obtain ⟨img, made, _⟩ := readable
    rw [mkfsMain_outside fit ⟨file, member, Nat.lt_of_not_le longer⟩] at made
    cases made
  · exact mkfsMain_readable fit

end Whole

/-- A file of three bytes, named `_a`. -/
def threeBytes : HostFile where
  name := [95, 97]
  reads := [[1, 2, 3]]
  pieces buf member := by
    rw [List.mem_singleton.mp member]
    decide

/-- A file of three bytes is read back. -/
theorem mkfs_readable_three : FilesFit [threeBytes] ∧ MkfsReadable [threeBytes] := by
  have fit : FilesFit [threeBytes] := by
    constructor
    · intro file member
      rw [List.mem_singleton.mp member]
      decide
    · decide
    · decide
  refine ⟨fit, (mkfs_readable_iff fit).mpr ?_⟩
  intro file member
  rw [List.mem_singleton.mp member]
  decide

/-- A file of 139 blocks, named `_a`. -/
def longFile : HostFile where
  name := [95, 97]
  reads := List.replicate 139 (List.replicate BSIZE 1)
  pieces buf member := by
    rw [List.eq_of_mem_replicate member, List.length_replicate]
    decide

/-- A file one block longer than the single indirect range is well below the largest file, but `mkfs`
indexes outside `indirect` and writes no image. -/
theorem mkfs_outside_long : FilesFit [longFile] ∧ longFile.content.length ≤ MAXFILE * BSIZE ∧
    mkfsMain [longFile] = .error (.outside "indirect" NINDIRECT) ∧ ¬MkfsReadable [longFile] := by
  have length : longFile.content.length = 71168 := by
    rw [HostFile.content, longFile, List.length_flatten, List.map_replicate, List.length_replicate,
      List.sum_replicate]
    rfl
  have fit : FilesFit [longFile] := by
    constructor
    · intro file member
      rw [List.mem_singleton.mp member]
      decide
    · decide
    · rw [blocksOf, List.map_singleton, List.sum_singleton, length]
      decide
  have failed : mkfsMain [longFile] = .error (.outside "indirect" NINDIRECT) := by
    apply mkfsMain_outside fit
    exact ⟨longFile, List.mem_singleton.mpr rfl, by rw [length]; decide⟩
  refine ⟨fit, by rw [length]; decide, failed, ?_⟩
  intro readable
  obtain ⟨img, made, _⟩ := readable
  rw [failed] at made
  cases made

end Xv6
