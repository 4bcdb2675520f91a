import Xv6.Verif.Links

/-!
# References and links

Between calls the references of an inode are those of the processes that have it as their current
directory and of the open files; within a call also those that the call has taken. The links are
counted all along, up to those that are pending. This is kept by each thing that a call does: it walks,
changes a count, writes or removes an entry, makes an inode and gives a reference back. When an inode
is freed at that, no entry behind `.` and `..` names it; a `..` may.
-/

namespace Xv6

/-! ## Giving back a reference -/

namespace Names

/-- `iput` frees the inode. -/
def Frees (s : Names) (i : Nat) : Prop := s.valid i = true ∧ (s.inode i).nlink = 0 ∧ s.ref i = 1

instance (s : Names) (i : Nat) : Decidable (s.Frees i) := inferInstanceAs (Decidable (_ ∧ _ ∧ _))

/-- The processes whose current directory an inode is, and its open files. -/
def holders (s : Names) (procs : List Nat) (i : Nat) : Nat :=
  (procs.countP fun p => s.cwd p = some i) + (List.range NFILE).countP fun f => 0 < s.fileRef f ∧ s.fileIp f = some i

end Names

section Puts

variable {s t : Names} {i j : Nat}

/-- `iput` that frees. -/
theorem iput_frees (frees : s.Frees i) :
    s.iput i = ((s.setInode i { s.inode i with type := 0, entries := [] }).setValid i false).setRef i (s.ref i - 1) := by
  have freed : s.reclaim i = (s.setInode i { s.inode i with type := 0, entries := [] }).setValid i false := if_pos frees
  unfold Names.iput
  rw [freed]
  rfl

/-- What `iput` leaves of the inodes. -/
theorem iput_inode : (s.iput i).inode = if s.Frees i then Function.update s.inode i { s.inode i with type := 0, entries := [] } else s.inode := by
  by_cases frees : s.Frees i
  · rw [iput_frees frees, if_pos frees]
    rfl
  · rw [iput_keeps frees, if_neg frees]
    rfl

/-- The references that `iput` leaves. -/
theorem iput_ref : (s.iput i).ref = Function.update s.ref i (s.ref i - 1) := by
  by_cases frees : s.Frees i
  · rw [iput_frees frees]
    rfl
  · rw [iput_keeps frees]
    rfl

/-- What `iput` leaves in memory. -/
theorem iput_valid : (s.iput i).valid = if s.Frees i then Function.update s.valid i false else s.valid := by
  by_cases frees : s.Frees i
  · rw [iput_frees frees, if_pos frees]
    rfl
  · rw [iput_keeps frees, if_neg frees]
    rfl

/-- `iput` changes nothing that a process has. -/
theorem iput_frame : (s.iput i).cwd = s.cwd ∧ (s.iput i).ofile = s.ofile ∧ (s.iput i).fileRef = s.fileRef ∧ (s.iput i).fileIp = s.fileIp := by
  by_cases frees : s.Frees i
  · rw [iput_frees frees]
    exact ⟨rfl, rfl, rfl, rfl⟩
  · rw [iput_keeps frees]
    exact ⟨rfl, rfl, rfl, rfl⟩

/-- The type of an inode after `iput`. -/
theorem iput_type : ((s.iput i).inode j).type = if j = i ∧ s.Frees i then 0 else (s.inode j).type := by
  rw [iput_inode]
  by_cases frees : s.Frees i
  · rw [if_pos frees, Function.update_apply]
    by_cases here : j = i
    · rw [if_pos here, if_pos ⟨here, frees⟩]
    · rw [if_neg here, if_neg (fun both => here both.1)]
  · rw [if_neg frees, if_neg (fun both => frees both.2)]

end Puts

/-! ## States within a call -/

/-- The parent of every directory is not free. -/
def Upward (x : Inodes) : Prop := ∀ d, (x d).type = T_DIR → (x (x.up d)).type ≠ 0

/-- A state within a call: the links are counted up to the pending ones, and the references are those
of processes and files and those taken. -/
structure Sound (tidy : Prop) (procs : List Nat) (pending : Nat → Nat) (taken : List Nat) (s : Names) : Prop where
  linked : Linked tidy pending s.inode
  held : Held s
  refs : ∀ i, s.holders procs i + taken.count i = s.ref i
  distinct : procs.Nodup
  /-- They are all processes. -/
  people : ∀ p i, s.cwd p = some i → p ∈ procs
  /-- The file table. -/
  table : ∀ f, NFILE ≤ f → s.fileRef f = 0
  /-- A file has one descriptor. -/
  slots : ∀ f, 0 < s.fileRef f → s.fileRef f = 1 ∧ ∃ p fd, s.ofile p fd = some f

/-- No links are pending. -/
def settled : Nat → Nat := fun _ => 0

/-- One link is pending. -/
def awaiting (i j : Nat) : Nat := if j = i then 1 else 0

section States

variable {tidy strict : Prop} {procs : List Nat} {pending pending' : Nat → Nat} {taken more : List Nat} {s t : Names} {i d p : Nat}

/-- The types and the parents are the same. -/
def SameShape (x y : Inodes) : Prop := ∀ d, (y d).type = (x d).type ∧ y.up d = x.up d

/-- Nothing else matters for the parents. -/
theorem Upward.congr {x y : Inodes} (upward : Upward x) (same : SameShape x y) : Upward y := by
  intro d dir
  rw [(same d).1] at dir
  rw [(same d).2, (same (x.up d)).1]
  exact upward d dir

/-- One change after the other. -/
theorem SameShape.trans {x y z : Inodes} (first : SameShape x y) (second : SameShape y z) : SameShape x z := fun d =>
  ⟨(second d).1.trans (first d).1, (second d).2.trans (first d).2⟩

/-- One inode is changed, but not its type and its parent. -/
theorem sameShape_update {x : Inodes} {ip : Node} (type : ip.type = (x i).type) (up : ip.entries[1]? = (x i).entries[1]?) :
    SameShape x (Function.update x i ip) := by
  intro d
  unfold Inodes.up
  rw [Function.update_apply]
  by_cases here : d = i
  · rw [if_pos here, here, up]
    exact ⟨type, rfl⟩
  · rw [if_neg here]
    exact ⟨rfl, rfl⟩

/-- A count is changed. -/
theorem addLink_shape {k : Int} : SameShape s.inode (s.addLink i k).inode := sameShape_update rfl rfl

/-- No entry of a directory names a free inode when its parent is not free. -/
theorem Linked.noDangling (linked : Linked tidy pending s.inode) (upward : Upward s.inode) : NoDangling s := by
  intro d dir e member nonzero free
  obtain ⟨p, rest, listed, _⟩ := linked.dots d dir
  have up : Inodes.up s.inode d = p := by
    unfold Inodes.up
    rw [listed]
    rfl
  rw [listed] at member
  rcases List.mem_cons.mp member with rfl | member
  · exact dir_used dir free
  rcases List.mem_cons.mp member with rfl | member
  · apply upward d dir
    rw [up]
    exact free
  · have child : e ∈ Inodes.children s.inode d := by
      unfold Inodes.children
      rw [listed]
      exact member
    have positive := names_pos linked dir child
    have none := linked.unnamed e.inum nonzero free
    omega

/-- A process holds its current directory. -/
theorem Sound.cwd_held (sound : Sound tidy procs pending taken s) (current : s.cwd p = some d) : 0 < s.ref d := by
  have here : 0 < procs.countP fun p => s.cwd p = some d := by
    rw [List.countP_pos_iff]
    exact ⟨p, sound.people p d current, decide_eq_true current⟩
  have law := sound.refs d
  unfold Names.holders at law
  omega

/-- An inode with a reference is not free. -/
theorem Sound.used (sound : Sound tidy procs pending taken s) (counted : 0 < s.ref i) : (s.inode i).type ≠ 0 := by
  intro free
  have none := sound.held.free i free
  omega

/-- An inode that is taken has a reference. -/
theorem Sound.taken_ref (sound : Sound tidy procs pending taken s) (member : i ∈ taken) : 0 < s.ref i := by
  have law := sound.refs i
  have positive := List.count_pos_iff.mpr member
  omega

/-- A walk from a sound state. -/
theorem Sound.walks {nameiparent : Bool} (sound : Sound tidy procs pending taken s) (upward : strict → Upward s.inode) (p : Nat)
    (path : List UInt8) :
    Ends strict (s.namex p path nameiparent) (Walked strict s nameiparent (s.resolve p path nameiparent)) :=
  namex_walks sound.held (fun strictly => sound.linked.noDangling (upward strictly)) (dir_used sound.linked.root) p
    (fun _ current => sound.used (sound.cwd_held current)) path

/-- References are taken to inodes that are not free. -/
theorem Sound.borrow (sound : Sound tidy procs pending taken s) (borrowed : Borrowed s more t) (used : ∀ i ∈ more, (s.inode i).type ≠ 0) :
    Sound tidy procs pending (more ++ taken) t := by
  refine ⟨?_, ⟨fun i allocated unlinked => ?_, fun i free => ?_⟩, fun i => ?_, sound.distinct, ?_, ?_, ?_⟩
  · rw [borrowed.inode]
    exact sound.linked
  · rw [borrowed.inode] at allocated unlinked
    obtain ⟨counted, good⟩ := sound.held.idle i allocated unlinked
    refine ⟨?_, borrowed.valid i counted good⟩
    have known := borrowed.ref i
    omega
  · rw [borrowed.inode] at free
    have none := sound.held.free i free
    have absent : more.count i = 0 := List.count_eq_zero.mpr fun member => used i member free
    have known := borrowed.ref i
    omega
  · have same : t.holders procs i = s.holders procs i := by
      unfold Names.holders
      rw [borrowed.cwd, borrowed.fileRef, borrowed.fileIp]
    have law := sound.refs i
    have known := borrowed.ref i
    rw [same, List.count_append]
    omega
  · rw [borrowed.cwd]
    exact sound.people
  · rw [borrowed.fileRef]
    exact sound.table
  · rw [borrowed.fileRef, borrowed.ofile]
    exact sound.slots

/-- Every reference has been given back. -/
theorem Sound.returned (sound : Sound tidy procs pending taken s) (borrowed : Borrowed s [] t) : Sound tidy procs pending taken t :=
  sound.borrow borrowed fun _ member => absurd member List.not_mem_nil

/-- The order of the references does not matter. -/
theorem Sound.perm {taken' : List Nat} (sound : Sound tidy procs pending taken s) (same : taken.Perm taken') : Sound tidy procs pending taken' s :=
  { sound with
    refs := fun i => by
      rw [← same.count_eq i]
      exact sound.refs i }

/-- A reference is given back. -/
theorem Sound.iput (sound : Sound tidy procs pending (i :: taken) s) : Sound tidy procs pending taken (s.iput i) := by
  have counted := sound.taken_ref List.mem_cons_self
  have used := sound.used counted
  have holders : ∀ j, (s.iput i).holders procs j = s.holders procs j := by
    intro j
    unfold Names.holders
    rw [iput_frame.1, iput_frame.2.2.1, iput_frame.2.2.2]
  have ref : ∀ j, (s.iput i).ref j = if j = i then s.ref i - 1 else s.ref j := by
    intro j
    rw [iput_ref, Function.update_apply]
  refine ⟨?_, ⟨fun j allocated unlinked => ?_, fun j free => ?_⟩, fun j => ?_, sound.distinct, ?_, ?_, ?_⟩
  · rw [iput_inode]
    by_cases frees : s.Frees i
    · rw [if_pos frees]
      exact sound.linked.free used frees.2.1 fun _ => rfl
    · rw [if_neg frees]
      exact sound.linked
  · rw [iput_type] at allocated
    have kept : ¬(j = i ∧ s.Frees i) := fun both => allocated (if_pos both)
    rw [if_neg kept] at allocated
    have before : (s.inode j).nlink = 0 ∧ (s.iput i).valid j = s.valid j := by
      rw [iput_inode] at unlinked
      rw [iput_valid]
      by_cases frees : s.Frees i
      · have apart : j ≠ i := fun here => kept ⟨here, frees⟩
        rw [if_pos frees, Function.update_of_ne apart] at unlinked
        rw [if_pos frees, Function.update_of_ne apart]
        exact ⟨unlinked, rfl⟩
      · rw [if_neg frees] at unlinked
        rw [if_neg frees]
        exact ⟨unlinked, rfl⟩
    obtain ⟨positive, good⟩ := sound.held.idle j allocated before.1
    refine ⟨?_, before.2.trans good⟩
    rw [ref j]
    by_cases here : j = i
    · rw [if_pos here]
      rw [here] at good positive before
      have several : s.ref i ≠ 1 := fun last => kept ⟨here, good, before.1, last⟩
      omega
    · rw [if_neg here]
      exact positive
  · rw [iput_type] at free
    rw [ref j]
    by_cases here : j = i
    · rw [if_pos here]
      by_cases frees : s.Frees i
      · have last := frees.2.2
        omega
      · rw [if_neg (fun both => frees both.2), here] at free
        exact absurd free used
    · rw [if_neg here]
      rw [if_neg (fun both => here both.1)] at free
      exact sound.held.free j free
  · have law := sound.refs j
    rw [holders j, ref j]
    by_cases here : j = i
    · rw [here, List.count_cons_self] at law
      rw [if_pos here, here]
      omega
    · rw [List.count_cons_of_ne (Ne.symm here)] at law
      rw [if_neg here]
      exact law
  · rw [iput_frame.1]
    exact sound.people
  · rw [iput_frame.2.2.1]
    exact sound.table
  · rw [iput_frame.2.1, iput_frame.2.2.1]
    exact sound.slots

/-- The inodes are changed, and those without links are held as before. -/
theorem Sound.change (sound : Sound tidy procs pending taken s) {x : Inodes} (linked : Linked tidy pending' x)
    (idle : ∀ i, (x i).type ≠ 0 → (x i).nlink = 0 → 0 < s.ref i ∧ s.valid i = true)
    (same : ∀ i, (x i).type = (s.inode i).type) :
    Sound tidy procs pending' taken { s with inode := x } :=
  ⟨linked, ⟨idle, fun i free => sound.held.free i ((same i).symm.trans free)⟩, sound.refs, sound.distinct, sound.people,
    sound.table, sound.slots⟩

/-- The count of an inode in memory is changed. -/
theorem Sound.addLink (sound : Sound tidy procs pending taken s) (member : i ∈ taken) (good : s.valid i = true) {k : Int}
    (low : -2 ^ 15 ≤ (s.inode i).nlink + k) (high : (s.inode i).nlink + k < 2 ^ 15)
    (other : ∀ j, j ≠ i → pending' j = pending j) (counted : (pending' i : Int) - pending i = k) :
    Sound tidy procs pending' taken (s.addLink i k) := by
  have positive := sound.taken_ref member
  have value := short_eq low high
  unfold Names.addLink
  rw [value]
  refine sound.change (sound.linked.relink high other (by omega)) (fun j allocated unlinked => ?_) fun j => ?_
  · by_cases here : j = i
    · rw [here]
      exact ⟨positive, good⟩
    · rw [Function.update_of_ne here] at allocated unlinked
      exact sound.held.idle j allocated unlinked
  · have same : SameShape s.inode (Function.update s.inode i { s.inode i with nlink := (s.inode i).nlink + k }) :=
      sameShape_update rfl rfl
    exact (same j).1

/-- The entries of a directory are changed. -/
theorem Sound.setEntries (sound : Sound tidy procs pending taken s) {entries : List Dirent}
    (linked : Linked tidy pending' (Function.update s.inode d { s.inode d with entries })) :
    Sound tidy procs pending' taken (s.setEntries d entries) := by
  refine sound.change linked (fun j allocated unlinked => ?_) fun j => ?_
  · rw [Function.update_apply] at allocated unlinked
    by_cases here : j = d
    · rw [if_pos here] at allocated unlinked
      rw [here]
      exact sound.held.idle d allocated unlinked
    · rw [if_neg here] at allocated unlinked
      exact sound.held.idle j allocated unlinked
  · rw [Function.update_apply]
    split
    · rename_i here
      rw [here]
    · rfl

/-! ## Holders -/

/-- The count after one element of a list has changed. -/
theorem countP_change {α : Type} {l : List α} (distinct : l.Nodup) {a : α} (member : a ∈ l) (q q' : α → Bool)
    (same : ∀ b, b ≠ a → q' b = q b) : l.countP q' + (if q a then 1 else 0) = l.countP q + if q' a then 1 else 0 := by
  induction l with
  | nil => exact absurd member List.not_mem_nil
  | cons b rest ih =>
    obtain ⟨fresh, distinct⟩ := List.nodup_cons.mp distinct
    rw [List.countP_cons, List.countP_cons]
    rcases List.mem_cons.mp member with rfl | later
    · have others : rest.countP q' = rest.countP q := by
        refine List.countP_congr fun b there => ?_
        rw [same b fun here => fresh (here ▸ there)]
      omega
    · have rest := ih distinct later
      have first : q' b = q b := same b fun here => fresh (here ▸ later)
      rw [first]
      omega

/-- A process holds another directory instead. -/
theorem Sound.swap {old : Nat} (sound : Sound tidy procs pending (i :: taken) s) (current : s.cwd p = some old) :
    Sound tidy procs pending (old :: taken) { s with cwd := Function.update s.cwd p (some i) } := by
  have member := sound.people p old current
  refine ⟨sound.linked, ⟨sound.held.idle, sound.held.free⟩, fun j => ?_, sound.distinct, fun q d there => ?_, sound.table,
    sound.slots⟩
  · have moved := countP_change sound.distinct member (fun q => decide (s.cwd q = some j))
      (fun q => decide (Function.update s.cwd p (some i) q = some j)) fun q other => by
        rw [Function.update_of_ne other]
    rw [Function.update_self, current] at moved
    have law := sound.refs j
    unfold Names.holders at law ⊢
    rw [List.count_cons] at law ⊢
    simp only [decide_eq_true_eq, Option.some.injEq, beq_iff_eq] at moved law ⊢
    show (procs.countP fun q => decide (Function.update s.cwd p (some i) q = some j)) + _ + _ = s.ref j
    omega
  · by_cases here : q = p
    · rw [here]
      exact member
    · apply sound.people q d
      rw [← there]
      exact (Function.update_of_ne here ..).symm

/-- The open files of an inode after an entry of the file table has changed. -/
theorem files_change {f : Nat} (low : f < NFILE) (j n : Nat) (ip : Option Nat) :
    ((List.range NFILE).countP fun g => 0 < Function.update s.fileRef f n g ∧ Function.update s.fileIp f ip g = some j) +
        (if 0 < s.fileRef f ∧ s.fileIp f = some j then 1 else 0) =
      ((List.range NFILE).countP fun g => 0 < s.fileRef g ∧ s.fileIp g = some j) + if 0 < n ∧ ip = some j then 1 else 0 := by
  have moved := countP_change List.nodup_range (List.mem_range.mpr low)
    (fun g => decide (0 < s.fileRef g ∧ s.fileIp g = some j))
    (fun g => decide (0 < Function.update s.fileRef f n g ∧ Function.update s.fileIp f ip g = some j)) fun g other => by rw [Function.update_of_ne other, Function.update_of_ne other]
  rw [Function.update_self, Function.update_self] at moved
  simp only [decide_eq_true_eq] at moved
  exact moved

/-- A descriptor that is not the one that is changed. -/
theorem other_slot {g fd : Nat} {file : Option Nat} (slot : ∃ q gd, s.ofile q gd = some g) (other : s.ofile p fd ≠ some g) :
    ∃ q gd, Function.update s.ofile p (Function.update (s.ofile p) fd file) q gd = some g := by
  obtain ⟨q, gd, held⟩ := slot
  refine ⟨q, gd, ?_⟩
  by_cases here : q = p
  · rw [here] at held ⊢
    rw [Function.update_self]
    by_cases same : gd = fd
    · rw [same] at held
      exact absurd held other
    · rw [Function.update_of_ne same]
      exact held
  · rw [Function.update_of_ne here]
    exact held

/-- An open file holds an inode. -/
theorem Sound.opened (sound : Sound tidy procs pending (i :: taken) s) {f : Nat} (low : f < NFILE) (free : s.fileRef f = 0) {fd : Nat}
    (empty : s.ofile p fd = none) :
    Sound tidy procs pending taken
      { s with
        ofile := Function.update s.ofile p (Function.update (s.ofile p) fd (some f))
        fileRef := Function.update s.fileRef f 1
        fileIp := Function.update s.fileIp f (some i) } := by
  refine ⟨sound.linked, ⟨sound.held.idle, sound.held.free⟩, fun j => ?_, sound.distinct, sound.people, fun g high => ?_,
    fun g counted => ?_⟩
  · have moved := files_change (s := s) low j 1 (some i)
    have law := sound.refs j
    have before : ¬(0 < s.fileRef f ∧ s.fileIp f = some j) := fun both => absurd both.1 (by omega)
    rw [if_neg before] at moved
    unfold Names.holders at law ⊢
    rw [List.count_cons] at law
    simp only [Option.some.injEq, beq_iff_eq, Nat.zero_lt_one, true_and] at moved law
    show (procs.countP fun q => s.cwd q = some j) + ((List.range NFILE).countP fun g => 0 < Function.update s.fileRef f 1 g ∧
      Function.update s.fileIp f (some i) g = some j) + taken.count j = s.ref j
    omega
  · have other : g ≠ f := by omega
    show Function.update s.fileRef f 1 g = 0
    rw [Function.update_of_ne other]
    exact sound.table g high
  · change 0 < Function.update s.fileRef f 1 g at counted
    show Function.update s.fileRef f 1 g = 1 ∧ _
    by_cases here : g = f
    · rw [here, Function.update_self]
      refine ⟨rfl, p, fd, ?_⟩
      show Function.update s.ofile p (Function.update (s.ofile p) fd (some f)) p fd = some f
      rw [Function.update_self, Function.update_self]
    · rw [Function.update_of_ne here] at counted ⊢
      obtain ⟨one, slot⟩ := sound.slots g counted
      exact ⟨one, other_slot slot (by rw [empty]; exact Option.some_ne_none g |>.symm)⟩

/-- A file that is closed holds its inode no more. -/
theorem Sound.closed (sound : Sound tidy procs pending taken s) {f : Nat} (used : 0 < s.fileRef f) {fd : Nat}
    (descriptor : s.ofile p fd = some f) :
    Sound tidy procs pending ((s.fileIp f).elim taken (· :: taken))
      { s with
        ofile := Function.update s.ofile p (Function.update (s.ofile p) fd none)
        fileRef := Function.update s.fileRef f 0
        fileIp := Function.update s.fileIp f none } := by
  have low : f < NFILE := by
    by_contra high
    have none := sound.table f (by omega)
    omega
  refine ⟨sound.linked, ⟨sound.held.idle, sound.held.free⟩, fun j => ?_, sound.distinct, sound.people, fun g high => ?_,
    fun g counted => ?_⟩
  · have moved := files_change (s := s) low j 0 none
    have law := sound.refs j
    have taking : ((s.fileIp f).elim taken (· :: taken)).count j = taken.count j + if s.fileIp f = some j then 1 else 0 := by
      cases s.fileIp f with
      | none => rfl
      | some ip =>
        show (ip :: taken).count j = _
        rw [List.count_cons]
        simp only [Option.some.injEq, beq_iff_eq]
    have after : ¬(0 < 0 ∧ (none : Option Nat) = some j) := fun both => Nat.lt_irrefl 0 both.1
    rw [if_neg after] at moved
    simp only [used, true_and] at moved
    rw [taking]
    unfold Names.holders at law ⊢
    show (procs.countP fun q => s.cwd q = some j) + ((List.range NFILE).countP fun g => 0 < Function.update s.fileRef f 0 g ∧
      Function.update s.fileIp f none g = some j) + (taken.count j + _) = s.ref j
    omega
  · have other : g ≠ f := by omega
    show Function.update s.fileRef f 0 g = 0
    rw [Function.update_of_ne other]
    exact sound.table g high
  · change 0 < Function.update s.fileRef f 0 g at counted
    show Function.update s.fileRef f 0 g = 1 ∧ _
    by_cases here : g = f
    · rw [here, Function.update_self] at counted
      exact absurd counted (Nat.lt_irrefl 0)
    · rw [Function.update_of_ne here] at counted ⊢
      obtain ⟨one, slot⟩ := sound.slots g counted
      exact ⟨one, other_slot slot (by rw [descriptor]; exact fun same => here (Option.some.inj same).symm)⟩

end States

end Xv6
