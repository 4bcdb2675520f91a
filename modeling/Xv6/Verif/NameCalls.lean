import Xv6.Verif.Naming

/-!
# Calls on names

Every call leaves the links counted and the inodes without links held, unless it is a `link` that
makes a full count wrap around. A call frees the directories that it vacates: those whose last link or
last reference it takes away. When the parent of a directory is vacated only together with it, every
parent stays allocated, and no call arrives at a free inode.
-/

namespace Xv6

namespace Names

/-- The call is a `link` that makes the count of an inode wrap around. -/
def Overflows (s : Names) (p : Nat) : NameCall → Prop
  | .link old new => ∃ ip last dp name, s.resolve p old false = some (ip, last) ∧ (s.inode ip).type ≠ T_DIR ∧
      (s.inode ip).nlink = 32767 ∧ s.resolve p new true = some (dp, name) ∧ findEntry name (s.inode dp).entries = none
  | _ => False

/-- A path leads to a new name in a directory of this kind. -/
def NamesIn (s : Names) (p : Nat) (kind : Node → Prop) (path : List UInt8) : Prop :=
  ∃ dp name, s.resolve p path true = some (dp, name) ∧ kind (s.inode dp) ∧ findEntry name (s.inode dp).entries = none

/-- The call writes an entry into a directory of this kind. -/
def Enters (s : Names) (p : Nat) (kind : Node → Prop) : NameCall → Prop
  | .open path creates _ => creates = true ∧ s.NamesIn p kind path
  | .mkdir path => s.NamesIn p kind path
  | .mknod path _ _ => s.NamesIn p kind path
  | .link old new => (∃ ip last, s.resolve p old false = some (ip, last) ∧ (s.inode ip).type ≠ T_DIR) ∧ s.NamesIn p kind new
  | _ => False

/-- The call writes an entry into a directory without links. -/
def Strays (s : Names) (p : Nat) (call : NameCall) : Prop := s.Enters p (fun dp => dp.nlink = 0) call

/-- The call takes away the last link of an inode without references or the last reference of an inode
without links. -/
def Vacates (s : Names) (p : Nat) (call : NameCall) (i : Nat) : Prop :=
  match call with
  | .unlink path => ∃ dp name ip off, s.resolve p path true = some (dp, name) ∧ name ≠ dot ∧ name ≠ dotdot ∧
      findEntry name (s.inode dp).entries = some (ip, off) ∧
      ((s.inode ip).type = T_DIR → isdirempty (s.inode ip).entries = true) ∧
      (i = ip ∧ (s.inode ip).nlink = 1 ∧ s.ref ip = 0 ∨
        i = dp ∧ (s.inode ip).type = T_DIR ∧ (s.inode dp).nlink = 1 ∧ s.ref dp = 0)
  | .close fd => ∃ f, s.ofile p fd = some f ∧ s.fileRef f = 1 ∧ s.fileIp f = some i ∧ (s.inode i).nlink = 0 ∧ s.ref i = 1
  | .chdir path => s.cwd p = some i ∧ (s.inode i).nlink = 0 ∧ s.ref i = 1 ∧
      ∃ ip last, s.resolve p path false = some (ip, last) ∧ (s.inode ip).type = T_DIR ∧ ip ≠ i
  | _ => False

/-- The call vacates the parent of a directory only together with the directory. -/
def Together (s : Names) (p : Nat) (call : NameCall) : Prop :=
  ∀ d, (s.inode d).type = T_DIR → s.Vacates p call (Inodes.up s.inode d) → s.Vacates p call d

end Names

section Leaving

variable {tidy strict : Prop} {procs : List Nat} {pending : Nat → Nat} {taken : List Nat} {s t : Names} {i p : Nat}
  {call : NameCall}

/-- What a call leaves. -/
def Leaves (tidy strict : Prop) (procs : List Nat) (s : Names) (p : Nat) (call : NameCall) (t : Names) : Prop :=
  Sound tidy procs settled [] t ∧ (strict → s.Together p call → Upward t.inode)

/-- A call that changes no inode. -/
theorem leaves_same (sound : Sound tidy procs settled [] s) (upward : strict → Upward s.inode) (borrowed : Borrowed s [] t) :
    Leaves tidy strict procs s p call t := by
  refine ⟨sound.returned borrowed, fun strictly _ => ?_⟩
  rw [borrowed.inode]
  exact upward strictly

/-- The parent of an inode that is not free is the same after `iput`. -/
theorem iput_up {d : Nat} (used : ((s.iput i).inode d).type ≠ 0) : Inodes.up (s.iput i).inode d = Inodes.up s.inode d := by
  unfold Inodes.up
  rw [iput_inode]
  by_cases frees : s.Frees i
  · have apart : d ≠ i := by
      intro here
      rw [iput_type, if_pos ⟨here, frees⟩] at used
      exact used rfl
    rw [if_pos frees, Function.update_of_ne apart]
  · rw [if_neg frees]

/-- The parents after `iput`. -/
theorem iput_upward (upward : Upward s.inode)
    (alone : s.Frees i → ∀ d, (s.inode d).type = T_DIR → Inodes.up s.inode d = i → d = i) : Upward (s.iput i).inode := by
  intro d dir
  rw [iput_up (dir_used dir), iput_type]
  rw [iput_type] at dir
  have kept : ¬(d = i ∧ s.Frees i) := by
    intro both
    rw [if_pos both] at dir
    exact absurd dir (by decide)
  rw [if_neg kept] at dir
  by_cases both : Inodes.up s.inode d = i ∧ s.Frees i
  · exact absurd ⟨alone both.2 d dir both.1, both.2⟩ kept
  · rw [if_neg both]
    exact upward d dir

/-- The inode of a file that is opened. -/
theorem openFile_leaves (sound : Sound tidy procs settled [i] t) (kept : ¬t.Frees i) (upward : strict → Upward t.inode) :
    Sound tidy procs settled [] (t.openFile p i).2 ∧ (strict → Upward (t.openFile p i).2.inode) := by
  have failed : Sound tidy procs settled [] (t.iput i) ∧ (strict → Upward (t.iput i).inode) :=
    ⟨sound.iput, fun strictly => iput_upward (upward strictly) fun frees => absurd frees kept⟩
  unfold Names.openFile
  cases file : t.filealloc with
  | none => exact failed
  | some f =>
    cases slot : t.fdalloc p with
    | none => exact failed
    | some fd =>
      have empty : t.ofile p fd = none := by
        have found := List.find?_some slot
        exact Option.isNone_iff_eq_none.mp found
      have free : t.fileRef f = 0 := by
        have found := List.find?_some file
        exact eq_of_beq found
      have low : f < NFILE := List.mem_range.mp (List.mem_of_find?_eq_some file)
      exact ⟨sound.opened low free empty, upward⟩

/-- `sys_open` without `O_CREATE`. -/
theorem openExisting_leaves (sound : Sound tidy procs settled [] s) (upward : strict → Upward s.inode) (path : List UInt8) (rdonly : Bool) :
    Ends strict (s.openExisting p path rdonly) fun r => Leaves tidy strict procs s p call r.2 := by
  unfold Names.openExisting
  refine (sound.walks upward p path).bind fun r walked => ?_
  obtain ⟨result, t⟩ := r
  have borrowed := walked.borrowed
  cases result with
  | none => exact Ends.pure (leaves_same sound upward borrowed)
  | some found =>
    obtain ⟨ip, last⟩ := found
    refine (borrowed.ilock List.mem_cons_self (walked.used _ rfl)).bind fun u known => ?_
    obtain ⟨borrowed, used, _⟩ := known
    show Ends strict (if _ then _ else _) _
    by_cases refused : (u.inode ip).type = T_DIR ∧ rdonly = false
    · rw [if_pos refused]
      exact Ends.pure (leaves_same sound upward (borrowed.iput_head sound.held))
    · rw [if_neg refused]
      have taking : Sound tidy procs settled [ip] u := sound.borrow borrowed fun i member => by
        rw [List.mem_singleton.mp member]
        exact used
      have same : strict → Upward u.inode := by
        rw [borrowed.inode]
        exact upward
      have opened := openFile_leaves (p := p) taking (borrowed.kept sound.held List.mem_cons_self) same
      exact Ends.pure ⟨opened.1, fun strictly _ => opened.2 strictly⟩

/-- `sys_close`. -/
theorem sysClose_leaves (sound : Sound tidy procs settled [] s) (upward : strict → Upward s.inode) (fd : Nat) :
    Ends strict (s.sysClose p fd) fun r => Leaves tidy strict procs s p (.close fd) r.2 := by
  unfold Names.sysClose
  cases descriptor : s.ofile p fd with
  | none => exact Ends.pure (leaves_same sound upward (Borrowed.refl s))
  | some f =>
    let ofile := Function.update s.ofile p (Function.update (s.ofile p) fd none)
    suffices closing : Ends strict (Names.fileclose { s with ofile } f) (Leaves tidy strict procs s p (.close fd)) by
      exact closing.bind fun t leaves => Ends.pure leaves
    unfold Names.fileclose
    show Ends strict (if s.fileRef f < 1 then _ else if 0 < s.fileRef f - 1 then _ else _) _
    by_cases unused : s.fileRef f < 1
    · rw [if_pos unused]
      exact Ends.panic (by decide)
    rw [if_neg unused]
    have used : 0 < s.fileRef f := by omega
    have one := (sound.slots f used).1
    have more : ¬0 < s.fileRef f - 1 := by omega
    rw [if_neg more]
    have closed := sound.closed used descriptor
    dsimp only
    cases file : s.fileIp f with
    | none =>
      rw [file] at closed
      exact Ends.pure ⟨closed, fun strictly _ => upward strictly⟩
    | some ip =>
      rw [file] at closed
      refine Ends.pure ⟨closed.iput, fun strictly together => ?_⟩
      refine iput_upward (upward strictly) fun frees d dir parent => ?_
      have vacated : s.Vacates p (.close fd) ip := ⟨f, descriptor, by omega, file, frees.2.1, frees.2.2⟩
      rw [← parent] at vacated
      obtain ⟨g, opened, _, named, _⟩ := together d dir vacated
      rw [descriptor] at opened
      cases opened
      rw [file] at named
      exact (Option.some.inj named).symm

/-- `iput` does not look at the current directories. -/
theorem iput_cwd {cwd : Nat → Option Nat} : { s.iput i with cwd } = Names.iput { s with cwd } i := by
  by_cases frees : s.Frees i
  · have freed : Names.Frees { s with cwd } i := frees
    rw [iput_frees frees, iput_frees freed]
    rfl
  · have kept : ¬Names.Frees { s with cwd } i := frees
    rw [iput_keeps frees, iput_keeps kept]
    rfl

/-- `sys_chdir`. -/
theorem sysChdir_leaves (sound : Sound tidy procs settled [] s) (upward : strict → Upward s.inode) (path : List UInt8) :
    Ends strict (s.sysChdir p path) fun r => Leaves tidy strict procs s p (.chdir path) r.2 := by
  unfold Names.sysChdir
  refine (sound.walks upward p path).bind fun r walked => ?_
  obtain ⟨result, t⟩ := r
  have borrowed := walked.borrowed
  have resolved := walked.result
  cases result with
  | none => exact Ends.pure (leaves_same sound upward borrowed)
  | some found =>
    obtain ⟨ip, name⟩ := found
    change Borrowed s [ip] t at borrowed
    refine (borrowed.ilock List.mem_cons_self (walked.used _ rfl)).bind fun u known => ?_
    obtain ⟨borrowed, used, _⟩ := known
    show Ends strict (if _ then _ else _) _
    by_cases file : (u.inode ip).type ≠ T_DIR
    · rw [if_pos file]
      exact Ends.pure (leaves_same sound upward (borrowed.iput_head sound.held))
    rw [if_neg file]
    have dir : (s.inode ip).type = T_DIR := by
      rw [← borrowed.inode]
      exact not_not.mp file
    dsimp only
    cases current : u.cwd p with
    | none => exact Ends.panic (by decide)
    | some old =>
      have taking : Sound tidy procs settled [ip] u := sound.borrow borrowed fun i member => by
        rw [List.mem_singleton.mp member]
        exact used
      refine Ends.pure ?_
      show Leaves tidy strict procs s p (.chdir path) { u.iput old with cwd := Function.update (u.iput old).cwd p (some ip) }
      rw [iput_frame.1, iput_cwd]
      refine ⟨(taking.swap current).iput, fun strictly together => ?_⟩
      refine iput_upward (s := { u with cwd := Function.update u.cwd p (some ip) }) ?_ fun frees d listed parent => ?_
      · show Upward u.inode
        rw [borrowed.inode]
        exact upward strictly
      · have here : s.cwd p = some old := by
          rw [← borrowed.cwd]
          exact current
        have counted := sound.cwd_held here
        have last : s.ref old + [ip].count old = 1 := by
          rw [← borrowed.ref old]
          exact frees.2.2
        have other : ip ≠ old := by
          rintro rfl
          rw [List.count_singleton_self] at last
          omega
        have unlinked : (s.inode old).nlink = 0 := by
          rw [← borrowed.inode]
          exact frees.2.1
        have vacated : s.Vacates p (.chdir path) old := ⟨here, unlinked, by omega, ip, name, resolved.symm, dir, other⟩
        change (u.inode d).type = T_DIR at listed
        change Inodes.up u.inode d = old at parent
        rw [borrowed.inode] at listed parent
        rw [← parent] at vacated
        have same := (together d listed vacated).1
        rw [here] at same
        exact (Option.some.inj same).symm

/-! ## Unlinking -/

section Removing

variable {dp ip off : Nat} {e : Dirent}

/-- The entry is removed, and for a directory also the link to its parent. -/
def withoutEntry (s : Names) (dp ip off : Nat) : Names :=
  let s := s.setEntries dp ((s.inode dp).entries.set off ⟨0, []⟩)
  if (s.inode ip).type = T_DIR then s.addLink dp (-1) else s

/-- The state after the entry has been removed. -/
structure Entered (tidy : Prop) (procs : List Nat) (s : Names) (dp ip : Nat) (t : Names) : Prop where
  /-- The link of the inode is pending. -/
  sound : Sound tidy procs (awaiting ip) [ip, dp] t
  shape : SameShape s.inode t.inode
  same : t.inode ip = s.inode ip
  ref : t.ref = s.ref
  valid : t.valid = s.valid
  /-- The directory may be freed. -/
  frees : t.Frees dp ↔ (s.inode ip).type = T_DIR ∧ (s.inode dp).nlink = 1 ∧ s.ref dp = 1

/-- An entry behind `.` and `..` is a child. -/
theorem mem_children (place : (s.inode dp).entries[off]? = some e) (behind : 2 ≤ off) : e ∈ Inodes.children s.inode dp := by
  refine List.mem_of_getElem? (i := off - 2) ?_
  unfold Inodes.children
  rw [List.getElem?_drop, Nat.add_sub_cancel' behind]
  exact place

/-- The entry of an inode is removed. -/
theorem withoutEntry_leaves (sound : Sound tidy procs settled [ip, dp] s) (dir : (s.inode dp).type = T_DIR) (good : s.valid dp = true)
    (place : (s.inode dp).entries[off]? = some e) (named : e.inum = ip) (behind : 2 ≤ off) (kept : ¬s.Frees dp)
    (empty : (s.inode ip).type = T_DIR → Bare s.inode ip) :
    Entered tidy procs s dp ip (withoutEntry s dp ip off) := by
  have used := sound.used (sound.taken_ref List.mem_cons_self)
  have apart : ip ≠ dp := by
    rw [← named]
    exact sound.linked.apart dp dir e (mem_children place behind)
  let u := s.setEntries dp ((s.inode dp).entries.set off ⟨0, []⟩)
  have shape : SameShape s.inode u.inode := by
    refine sameShape_update rfl ?_
    rw [List.getElem?_set_ne]
    omega
  have removed : Sound tidy procs (entryLinks s.inode dp ip) [ip, dp] u := by
    refine sound.setEntries (sound.linked.remove dir place behind (fun _ => ?_) fun j => ?_)
    · rw [named]
      exact empty
    · rw [named]
      exact (Nat.zero_add _).symm
  have self : u.inode dp = { s.inode dp with entries := (s.inode dp).entries.set off ⟨0, []⟩ } := Function.update_self ..
  have same : u.inode ip = s.inode ip := Function.update_of_ne apart ..
  show Entered tidy procs s dp ip (if (u.inode ip).type = T_DIR then u.addLink dp (-1) else u)
  rw [(shape ip).1]
  by_cases listed : (s.inode ip).type = T_DIR
  · rw [if_pos listed]
    have positive := removed.linked.law dp (by rw [(shape dp).1]; exact dir_used dir)
    have small := removed.linked.small dp
    have links : ∀ j, entryLinks s.inode dp ip j = awaiting ip j + if j = dp then 1 else 0 := by
      intro j
      unfold entryLinks awaiting
      simp only [listed, and_true]
    have value : (u.addLink dp (-1)).inode dp = { u.inode dp with nlink := (u.inode dp).nlink - 1 } := by
      show Function.update u.inode dp _ dp = _
      rw [Function.update_self]
      have lower : short ((u.inode dp).nlink + -1) = (u.inode dp).nlink - 1 := short_eq (by omega) (by omega)
      rw [lower]
    refine ⟨?_, shape.trans addLink_shape, (Function.update_of_ne apart ..).trans same, rfl, rfl, ?_⟩
    · refine removed.addLink (List.mem_cons_of_mem ip List.mem_cons_self) good (by omega) (by omega) (fun j other => ?_) ?_
      · rw [links j, if_neg other]
        rfl
      · rw [links dp, if_pos rfl]
        omega
    · unfold Names.Frees
      rw [value, self]
      show s.valid dp = true ∧ (s.inode dp).nlink - 1 = 0 ∧ s.ref dp = 1 ↔ _
      simp only [good, listed, true_and]
      omega
  · rw [if_neg listed]
    have links : entryLinks s.inode dp ip = awaiting ip := by
      funext j
      unfold entryLinks awaiting
      simp only [listed, and_false, if_false, Nat.add_zero]
    rw [links] at removed
    refine ⟨removed, shape, same, rfl, rfl, ?_⟩
    unfold Names.Frees
    rw [self]
    exact ⟨fun frees => absurd frees kept, fun other => absurd other.1 listed⟩

/-- What `removeEntry` leaves. -/
structure Removed (tidy : Prop) (procs : List Nat) (s : Names) (dp ip : Nat) (t : Names) : Prop where
  /-- The links and the references. -/
  sound : Sound tidy procs settled [] t
  /-- The inodes that are freed. -/
  type : ∀ j, (t.inode j).type = if j = ip ∧ (s.inode ip).nlink = 1 ∧ s.ref ip = 1 ∨
    j = dp ∧ (s.inode ip).type = T_DIR ∧ (s.inode dp).nlink = 1 ∧ s.ref dp = 1 then 0 else (s.inode j).type
  /-- The parents of the others. -/
  up : ∀ j, (t.inode j).type ≠ 0 → Inodes.up t.inode j = Inodes.up s.inode j

/-- The part of `sys_unlink` that removes the entry. -/
theorem removeEntry_leaves (apart : ip ≠ dp) (good : s.valid ip = true) (entered : Entered tidy procs s dp ip t) :
    Removed tidy procs s dp ip (((t.iput dp).addLink ip (-1)).iput ip) := by
  have given : Sound tidy procs (awaiting ip) [ip] (t.iput dp) := (entered.sound.perm (List.Perm.swap dp ip [])).iput
  have used := given.used (given.taken_ref List.mem_cons_self)
  have same : (t.iput dp).inode ip = s.inode ip := by
    rw [iput_inode]
    by_cases frees : t.Frees dp
    · rw [if_pos frees, Function.update_of_ne apart]
      exact entered.same
    · rw [if_neg frees]
      exact entered.same
  have valid : (t.iput dp).valid ip = true := by
    rw [iput_valid, entered.valid]
    by_cases frees : t.Frees dp
    · rw [if_pos frees, Function.update_of_ne apart]
      exact good
    · rw [if_neg frees]
      exact good
  have ref : (t.iput dp).ref ip = s.ref ip := by
    rw [iput_ref, Function.update_of_ne apart, entered.ref]
  have positive := given.linked.nonneg used
  have small := given.linked.small ip
  let u := (t.iput dp).addLink ip (-1)
  have uncounted : Sound tidy procs settled [ip] u := by
    refine given.addLink List.mem_cons_self valid (by omega) (by omega) (fun j other => ?_) ?_
    · exact (if_neg other).symm
    · unfold awaiting settled
      rw [if_pos rfl]
      decide
  have frees : u.Frees ip ↔ (s.inode ip).nlink = 1 ∧ s.ref ip = 1 := by
    have value : (u.inode ip).nlink = (s.inode ip).nlink - 1 := by
      show (Function.update (t.iput dp).inode ip _ ip).nlink = _
      rw [Function.update_self]
      show short (((t.iput dp).inode ip).nlink + -1) = _
      rw [short_eq (by omega) (by omega), same]
      rfl
    unfold Names.Frees
    rw [value]
    show (t.iput dp).valid ip = true ∧ _ ∧ (t.iput dp).ref ip = 1 ↔ _
    rw [valid, ref]
    simp only [true_and]
    omega
  have types : ∀ j, (u.inode j).type = if j = dp ∧ t.Frees dp then 0 else (s.inode j).type := by
    intro j
    rw [(addLink_shape (s := t.iput dp) j).1, iput_type, (entered.shape j).1]
  refine ⟨uncounted.iput, fun j => ?_, fun j allocated => ?_⟩
  · rw [iput_type, types]
    simp only [entered.frees]
    grind
  · rw [iput_up allocated]
    rw [iput_type] at allocated
    have alive : ((t.iput dp).inode j).type ≠ 0 := by
      rw [← (addLink_shape (s := t.iput dp) (i := ip) (k := -1) j).1]
      intro free
      apply allocated
      rw [show (u.inode j).type = 0 from free, ite_self]
    rw [(addLink_shape (s := t.iput dp) j).2, iput_up alive, (entered.shape j).2]

/-- The part of `sys_unlink` after the entry has been found, from a state in which the directory is
locked. -/
theorem unlinkEntry_leaves {u : Names} {path : List UInt8} {name : Name} (sound : Sound tidy procs settled [] s)
    (upward : strict → Upward s.inode)
    (resolved : s.resolve p path true = some (dp, name)) (ordinary : ¬(name = dot ∨ name = dotdot))
    (found : findEntry name (s.inode dp).entries = some (ip, off)) (dir : (s.inode dp).type = T_DIR)
    (locked : Borrowed s [dp] t) (good : t.valid dp = true) (borrowed : Borrowed t [ip] u) :
    Ends strict (u.unlinkEntry dp ip off) fun r => Leaves tidy strict procs s p (.unlink path) r.2 := by
  obtain ⟨e, place, named, nonzero, called⟩ := findEntry_some found
  have behind : 2 ≤ off := by
    obtain ⟨q, rest, listed, _⟩ := sound.linked.dots dp dir
    rw [listed] at place
    by_contra early
    have first : off = 0 ∨ off = 1 := by omega
    rcases first with rfl | rfl
    · cases place
      exact ordinary (.inl called.symm)
    · cases place
      exact ordinary (.inr called.symm)
  have directory : ∀ i ∈ [dp], (s.inode i).type ≠ 0 := by
    intro i member
    rw [List.mem_singleton.mp member]
    exact dir_used dir
  have held : Sound tidy procs settled [dp] t := sound.borrow locked directory
  have target : strict → (t.inode ip).type ≠ 0 := by
    intro strictly
    rw [locked.inode, ← named]
    exact sound.linked.noDangling (upward strictly) dp dir e (List.mem_of_getElem? place) (named ▸ nonzero)
  unfold Names.unlinkEntry
  refine (borrowed.ilock List.mem_cons_self target).bind fun v known => ?_
  obtain ⟨borrowed, used, goodip⟩ := known
  have inode : v.inode = s.inode := borrowed.inode.trans locked.inode
  have both : Borrowed s [ip, dp] v := locked.trans borrowed directory
  show Ends strict (if _ then _ else if _ then _ else _) _
  by_cases few : (v.inode ip).nlink < 1
  · rw [if_pos few]
    exact Ends.panic (by decide)
  rw [if_neg few]
  by_cases full : (v.inode ip).type = T_DIR ∧ isdirempty (v.inode ip).entries = false
  · rw [if_pos full]
    exact Ends.pure (leaves_same sound upward ((both.iput_head sound.held).iput_head sound.held))
  rw [if_neg full]
  have taken : Sound tidy procs settled [ip, dp] v := held.borrow borrowed fun i member => by
    rw [List.mem_singleton.mp member]
    exact used
  have goodv : v.valid dp = true := locked.locked borrowed List.mem_cons_self good
  have nothing : (v.inode ip).type = T_DIR → Bare v.inode ip := by
    intro listed
    have emptied : isdirempty (v.inode ip).entries = true := Bool.not_eq_false _ ▸ fun nonempty => full ⟨listed, nonempty⟩
    exact fun e member => eq_of_beq (List.all_eq_true.mp emptied e member)
  have entered := withoutEntry_leaves taken (by rw [inode]; exact dir) goodv (by rw [inode]; exact place) named behind
    (both.kept sound.held (List.mem_cons_of_mem ip List.mem_cons_self)) nothing
  have apart : ip ≠ dp := by
    rw [← named]
    exact sound.linked.apart dp dir e (mem_children place behind)
  have removed : Removed tidy procs v dp ip (v.removeEntry dp ip off) := removeEntry_leaves apart goodip entered
  refine Ends.pure ⟨removed.sound, fun strictly together => ?_⟩
  have refip : v.ref ip = s.ref ip + 1 := by
    rw [both.ref ip, List.count_cons_self, List.count_cons_of_ne (Ne.symm apart)]
    rfl
  have refdp : v.ref dp = s.ref dp + 1 := by
    rw [both.ref dp, List.count_cons_of_ne apart, List.count_singleton_self]
  have vacated : ∀ j, s.Vacates p (.unlink path) j ↔ j = ip ∧ (v.inode ip).nlink = 1 ∧ v.ref ip = 1 ∨
      j = dp ∧ (v.inode ip).type = T_DIR ∧ (v.inode dp).nlink = 1 ∧ v.ref dp = 1 := by
    intro j
    rw [inode, refip, refdp, Nat.add_eq_right, Nat.add_eq_right]
    constructor
    · rintro ⟨dp', name', ip', off', leads, _, _, entry, _, which⟩
      rw [resolved] at leads
      cases leads
      rw [found] at entry
      cases entry
      exact which
    · intro which
      refine ⟨dp, name, ip, off, resolved, fun same => ordinary (.inl same), fun same => ordinary (.inr same), found,
        fun listed => ?_, which⟩
      rw [inode] at full
      exact Bool.not_eq_false _ ▸ fun nonempty => full ⟨listed, nonempty⟩
  intro d listed
  show ((v.removeEntry dp ip off).inode (Inodes.up (v.removeEntry dp ip off).inode d)).type ≠ 0
  rw [removed.up d (dir_used listed), inode]
  have freed : ∀ j, s.Vacates p (.unlink path) j → ((v.removeEntry dp ip off).inode j).type = 0 := fun j gone =>
    (removed.type j).trans (if_pos ((vacated j).mp gone))
  have alive : ∀ j, ¬s.Vacates p (.unlink path) j → ((v.removeEntry dp ip off).inode j).type = (s.inode j).type := by
    intro j stays
    rw [removed.type j, if_neg fun gone => stays ((vacated j).mpr gone), inode]
  have stays : ¬s.Vacates p (.unlink path) d := fun gone => dir_used listed (freed d gone)
  change ((v.removeEntry dp ip off).inode d).type = T_DIR at listed
  rw [alive d stays] at listed
  rw [alive _ fun parent => stays (together d listed parent)]
  exact upward strictly d listed

/-- `sys_unlink`. -/
theorem sysUnlink_leaves (sound : Sound tidy procs settled [] s) (upward : strict → Upward s.inode) (path : List UInt8) :
    Ends strict (s.sysUnlink p path) fun r => Leaves tidy strict procs s p (.unlink path) r.2 := by
  unfold Names.sysUnlink
  refine (sound.walks upward p path).bind fun r walked => ?_
  obtain ⟨result, t⟩ := r
  have borrowed := walked.borrowed
  have resolved := walked.result
  cases result with
  | none => exact Ends.pure (leaves_same sound upward borrowed)
  | some target =>
    obtain ⟨dp, name⟩ := target
    change Borrowed s [dp] t at borrowed
    have dir : (s.inode dp).type = T_DIR := (walked.dir rfl _ rfl).1
    refine (borrowed.ilock List.mem_cons_self fun _ => dir_used dir).bind fun u known => ?_
    obtain ⟨locked, _, good⟩ := known
    show Ends strict (if name = dot ∨ name = dotdot then _ else _) _
    by_cases special : name = dot ∨ name = dotdot
    · rw [if_pos special]
      exact Ends.pure (leaves_same sound upward (locked.iput_head sound.held))
    rw [if_neg special]
    have directory : ∀ i ∈ [dp], (s.inode i).type ≠ 0 := by
      intro i member
      rw [List.mem_singleton.mp member]
      exact dir_used dir
    have held : Sound tidy procs settled [dp] u := sound.borrow locked directory
    have listed : (u.inode dp).type = T_DIR := by
      rw [locked.inode]
      exact dir
    refine ((Borrowed.refl u).dirlookup held.held listed name).bind fun r known => ?_
    obtain ⟨entry, v⟩ := r
    obtain ⟨found, taking⟩ := known
    change entry = _ at found
    cases entry with
    | none => exact Ends.pure (leaves_same sound upward ((locked.trans taking directory).iput_head sound.held))
    | some entry =>
      obtain ⟨ip, off⟩ := entry
      rw [locked.inode] at found
      exact unlinkEntry_leaves sound upward resolved.symm special found.symm dir locked good taking

end Removing

/-! ## Linking -/

section Linking

variable {ip dp : Nat} {u w : Names} {old new : List UInt8}

/-- An inode that is to be linked: it is in memory, and its link has been counted. -/
structure Raised (s : Names) (ip : Nat) (w : Names) : Prop where
  /-- It is not free. -/
  used : (s.inode ip).type ≠ 0
  inode : w.inode = Function.update s.inode ip { s.inode ip with nlink := short ((s.inode ip).nlink + 1) }
  valid : w.valid ip = true
  /-- Before the count it has been taken. -/
  borrowed : Borrowed s [ip] { w with inode := s.inode }

/-- The count is restored. -/
theorem short_undo {n : Int} (low : -2 ^ 15 ≤ n) (high : n < 2 ^ 15) : short (short (n + 1) + -1) = n := by
  unfold short
  omega

/-- What a counted inode leaves as it was. -/
theorem Raised.shape (counted : Raised s ip w) (d : Nat) :
    (w.inode d).type = (s.inode d).type ∧ (w.inode d).entries = (s.inode d).entries := by
  rw [counted.inode, Function.update_apply]
  by_cases here : d = ip
  · rw [if_pos here, here]
    exact ⟨rfl, rfl⟩
  · rw [if_neg here]
    exact ⟨rfl, rfl⟩

/-- It is held. -/
theorem Raised.held (held : Held s) (counted : Raised s ip w) : Held w ∧ 0 < w.ref ip := by
  have ref : ∀ i, w.ref i = s.ref i + [ip].count i := counted.borrowed.ref
  have positive : 0 < w.ref ip := by
    rw [ref ip, List.count_singleton_self]
    omega
  refine ⟨⟨fun i allocated unlinked => ?_, fun i free => ?_⟩, positive⟩
  · by_cases here : i = ip
    · rw [here]
      exact ⟨positive, counted.valid⟩
    · rw [counted.inode, Function.update_of_ne here] at allocated unlinked
      obtain ⟨busy, good⟩ := held.idle i allocated unlinked
      refine ⟨?_, counted.borrowed.valid i busy good⟩
      rw [ref i]
      omega
  · rw [(counted.shape i).1] at free
    have other : ip ≠ i := by
      rintro rfl
      exact counted.used free
    rw [ref i, held.free i free, List.count_cons_of_ne other]
    rfl

/-- The part of `sys_link` at the label `bad` gives back what has been counted and taken. -/
theorem linkBad_borrowed (held : Held s) (low : -2 ^ 15 ≤ (s.inode ip).nlink) (high : (s.inode ip).nlink < 2 ^ 15)
    (counted : Raised s ip w) (borrowed : Borrowed w [] u) :
    Ends strict (u.linkBad ip) fun r => r.1 = -1 ∧ Borrowed s [] r.2 := by
  have positive := (counted.held held).2
  have good := borrowed.valid ip positive counted.valid
  have ref := borrowed.ref ip
  unfold Names.linkBad
  rw [ilock_valid (by omega) good]
  refine Ends.pure ⟨rfl, Borrowed.iput_head held ?_⟩
  have restored : (u.addLink ip (-1)).inode = s.inode := by
    show Function.update u.inode ip { u.inode ip with nlink := short ((u.inode ip).nlink + -1) } = s.inode
    rw [borrowed.inode, counted.inode, Function.update_self, Function.update_idem, short_undo low high]
    exact Function.update_eq_self ip s.inode
  have before := counted.borrowed
  refine ⟨restored, fun i => ?_, fun i busy kept => ?_, fun i member free => ?_, borrowed.cwd.trans before.cwd,
    borrowed.ofile.trans before.ofile, borrowed.fileRef.trans before.fileRef, borrowed.fileIp.trans before.fileIp⟩
  · exact (borrowed.ref i).trans (before.ref i)
  · refine borrowed.valid i ?_ (before.valid i busy kept)
    have known : w.ref i = _ := before.ref i
    omega
  · rw [List.mem_singleton.mp member] at free
    exact absurd free counted.used

/-- The part of `sys_link` at the label `bad`. -/
theorem linkBad_leaves (sound : Sound tidy procs settled [] s) (upward : strict → Upward s.inode) (counted : Raised s ip w)
    (borrowed : Borrowed w [] u) : Ends strict (u.linkBad ip) fun r => Leaves tidy strict procs s p call r.2 := by
  have nonneg := sound.linked.nonneg counted.used
  exact (linkBad_borrowed sound.held (by omega) (sound.linked.small ip) counted borrowed).mono fun r known =>
    leaves_same sound upward known.2

/-- The part of `sys_link` that writes the entry. -/
theorem linkEntry_leaves {name : Name} (sound : Sound tidy procs settled [] s) (upward : strict → Upward s.inode) (counted : Raised s ip w)
    (file : (s.inode ip).type ≠ T_DIR) (dir : (s.inode dp).type = T_DIR) (room : (s.inode ip).nlink ≠ 32767)
    (named : tidy → (s.inode dp).nlink ≠ 0) (borrowed : Borrowed w [dp] u) :
    let t := u.setEntries dp (putEntry ⟨ip, name⟩ (w.inode dp).entries)
    Leaves tidy strict procs s p call ((t.iput dp).iput ip) := by
  intro t
  have apart : ip ≠ dp := by
    rintro rfl
    exact file dir
  have nonneg := sound.linked.nonneg counted.used
  have small := sound.linked.small ip
  have value : short ((s.inode ip).nlink + 1) = (s.inode ip).nlink + 1 := short_eq (by omega) (by omega)
  have held := (counted.held sound.held).1
  have shape : SameShape s.inode w.inode := by
    rw [counted.inode]
    exact sameShape_update rfl rfl
  have linked : Linked tidy (awaiting ip) w.inode := by
    rw [counted.inode, value]
    refine sound.linked.relink (by omega) (fun j other => if_neg other) ?_
    unfold awaiting settled
    rw [if_pos rfl]
    omega
  have first : Sound tidy procs (awaiting ip) [ip] w := by
    have taken := sound.borrow counted.borrowed fun i member => by
      rw [List.mem_singleton.mp member]
      exact counted.used
    exact ⟨linked, held, taken.refs, taken.distinct, taken.people, taken.table,
      taken.slots⟩
  have listed : (w.inode dp).type = T_DIR := by
    rw [(counted.shape dp).1]
    exact dir
  have second : Sound tidy procs (awaiting ip) [dp, ip] u := first.borrow borrowed fun i member => by
    rw [List.mem_singleton.mp member]
    exact dir_used listed
  have entered : Sound tidy procs settled [dp, ip] t := by
    have used := second.used (second.taken_ref (i := ip) (by simp))
    refine second.setEntries ?_
    have same := second.linked
    rw [← borrowed.inode]
    rw [borrowed.inode] at used same ⊢
    refine same.enter listed used apart name (fun other => ?_) (fun other => ?_) (fun tidily => ?_) fun j => ?_
    · rw [(counted.shape ip).1] at other
      exact absurd other file
    · rw [(counted.shape ip).1] at other
      exact absurd other file
    · refine same.home tidily listed ?_
      have nonneg := sound.linked.nonneg (dir_used dir)
      have positive := named tidily
      have unchanged : w.inode dp = s.inode dp := by
        rw [counted.inode, Function.update_of_ne (Ne.symm apart)]
      unfold awaiting
      rw [unchanged, if_neg (Ne.symm apart)]
      omega
    · unfold entryLinks awaiting settled
      rw [(counted.shape ip).1]
      simp [file]
  have after : SameShape w.inode t.inode := by
    show SameShape w.inode (Function.update u.inode dp _)
    rw [← borrowed.inode]
    refine sameShape_update rfl ?_
    obtain ⟨q, rest, entries, nonzero⟩ := second.linked.dots dp (by rw [borrowed.inode]; exact listed)
    show (putEntry _ (u.inode dp).entries)[1]? = _
    rw [entries, putEntry_cons (second.linked.inside (second.used (second.taken_ref List.mem_cons_self))).1,
      putEntry_cons nonzero]
    rfl
  have keptdp : ¬t.Frees dp := by
    intro frees
    refine borrowed.kept held List.mem_cons_self ⟨frees.1, ?_, frees.2.2⟩
    have same : (t.inode dp).nlink = (u.inode dp).nlink := by
      show (Function.update u.inode dp _ dp).nlink = _
      rw [Function.update_self]
    exact same.symm.trans frees.2.1
  have keptip : ¬(t.iput dp).Frees ip := by
    intro frees
    have zero := frees.2.1
    rw [iput_inode, if_neg keptdp] at zero
    change (Function.update u.inode dp _ ip).nlink = 0 at zero
    rw [Function.update_of_ne apart, borrowed.inode, counted.inode, Function.update_self] at zero
    change short _ = 0 at zero
    omega
  refine ⟨entered.iput.iput, fun strictly _ => ?_⟩
  exact iput_upward (iput_upward ((upward strictly).congr (shape.trans after)) fun frees => absurd frees keptdp) fun frees =>
    absurd frees keptip

/-- `sys_link`. -/
theorem sysLink_leaves (sound : Sound tidy procs settled [] s) (upward : strict → Upward s.inode) (room : ¬s.Overflows p (.link old new))
    (straight : tidy → ¬s.Strays p (.link old new)) :
    Ends strict (s.sysLink p old new) fun r => Leaves tidy strict procs s p (.link old new) r.2 := by
  unfold Names.sysLink
  refine (sound.walks upward p old).bind fun r walked => ?_
  obtain ⟨result, t⟩ := r
  have borrowed := walked.borrowed
  have source := walked.result
  cases result with
  | none => exact Ends.pure (leaves_same sound upward borrowed)
  | some found =>
    obtain ⟨ip, last⟩ := found
    change Borrowed s [ip] t at borrowed
    refine (borrowed.ilock List.mem_cons_self (walked.used _ rfl)).bind fun u known => ?_
    obtain ⟨borrowed, used, good⟩ := known
    show Ends strict (if _ then _ else _) _
    by_cases file : (u.inode ip).type = T_DIR
    · rw [if_pos file]
      exact Ends.pure (leaves_same sound upward (borrowed.iput_head sound.held))
    rw [if_neg file]
    rw [borrowed.inode] at file
    have counted : Raised s ip (u.addLink ip 1) := by
      refine ⟨used, ?_, good, ?_⟩
      · show Function.update u.inode ip _ = _
        rw [borrowed.inode]
      · exact { borrowed with inode := rfl }
    generalize u.addLink ip 1 = w at counted
    have held := (counted.held sound.held).1
    have dangling : strict → NoDangling w := by
      intro strictly d dir e member nonzero
      rw [(counted.shape d).1] at dir
      rw [(counted.shape d).2] at member
      rw [(counted.shape e.inum).1]
      exact sound.linked.noDangling (upward strictly) d dir e member nonzero
    have root : (w.inode ROOTINO).type ≠ 0 := by
      rw [(counted.shape ROOTINO).1]
      exact dir_used sound.linked.root
    have cwd : ∀ d, w.cwd p = some d → (w.inode d).type ≠ 0 := by
      intro d current
      rw [(counted.shape d).1]
      refine sound.used (sound.cwd_held (p := p) ?_)
      rw [← current]
      exact (congrFun counted.borrowed.cwd p).symm
    have same : w.resolve p new true = s.resolve p new true := by
      unfold Names.resolve Names.origin
      rw [show w.cwd p = s.cwd p from congrFun counted.borrowed.cwd p]
      simp only [walkFrom_congr (fun d => (counted.shape d).1) fun d => (counted.shape d).2]
    unfold Names.linkTo
    refine (namex_walks held dangling root p cwd new).bind fun r walked => ?_
    obtain ⟨result, t⟩ := r
    have borrowed := walked.borrowed
    have target := walked.result
    rw [same] at target
    cases result with
    | none => exact linkBad_leaves sound upward counted borrowed
    | some found =>
      obtain ⟨dp, name⟩ := found
      change Borrowed w [dp] t at borrowed
      have listed : (w.inode dp).type = T_DIR := (walked.dir rfl _ rfl).1
      refine (borrowed.ilock List.mem_cons_self fun _ => dir_used listed).bind fun v known => ?_
      refine (known.1.dirlink held listed name ip).bind fun r known => ?_
      obtain ⟨linked, x⟩ := r
      rcases known with ⟨present, borrowed⟩ | ⟨written, absent, v, borrowed, entered⟩
      · change linked = false at present
        rw [present]
        exact linkBad_leaves sound upward counted (borrowed.iput_head held)
      · change linked = true at written
        change x = _ at entered
        rw [written, entered]
        rw [(counted.shape dp).1] at listed
        rw [(counted.shape dp).2] at absent
        refine Ends.pure (linkEntry_leaves sound upward counted file listed (fun full => room ?_) (fun tidily bare => ?_) borrowed)
        · exact ⟨ip, last, dp, name, source.symm, file, full, target.symm, absent⟩
        · exact straight tidily ⟨⟨ip, last, source.symm, file⟩, dp, name, target.symm, bare, absent⟩

end Linking

/-! ## Creating -/

section Creating

variable {ip dp : Nat} {name : Name} {type major minor : Int} {node : Node}

/-- A free inode is made a new one, with one reference and in memory. -/
def made (s : Names) (ip : Nat) (node : Node) : Names :=
  { s with
    inode := Function.update s.inode ip node
    ref := Function.update s.ref ip 1
    valid := Function.update s.valid ip true }

/-- The new inode has a reference. -/
theorem Sound.made (sound : Sound tidy procs pending taken s) (free : (s.inode ip).type = 0) (inside : ip ≠ 0 ∧ ip < NINODES)
    (used : node.type ≠ 0) (one : node.nlink = 1)
    (dots : node.type = T_DIR → ∃ q, q ≠ 0 ∧ node.entries = [⟨ip, dot⟩, ⟨q, dotdot⟩]) (other : pending ip = 0) :
    Sound tidy procs (fun j => pending j + awaiting ip j) (ip :: taken) (made s ip node) := by
  have none := sound.held.free ip free
  refine ⟨?_, ⟨fun j allocated unlinked => ?_, fun j unallocated => ?_⟩, fun j => ?_, sound.distinct, sound.people, sound.table,
    sound.slots⟩
  · refine sound.linked.alloc free inside (by rw [one]; decide) dots (fun j apart => ?_) ?_
    · unfold awaiting
      rw [if_neg apart]
      rfl
    · unfold awaiting
      rw [other, if_pos rfl, one]
      rfl
  · change (Function.update s.inode ip node j).type ≠ 0 at allocated
    change (Function.update s.inode ip node j).nlink = 0 at unlinked
    show 0 < Function.update s.ref ip 1 j ∧ Function.update s.valid ip true j = true
    by_cases here : j = ip
    · rw [here, Function.update_self, one] at unlinked
      exact absurd unlinked (by decide)
    · rw [Function.update_of_ne here] at allocated unlinked
      rw [Function.update_of_ne here, Function.update_of_ne here]
      exact sound.held.idle j allocated unlinked
  · change (Function.update s.inode ip node j).type = 0 at unallocated
    show Function.update s.ref ip 1 j = 0
    by_cases here : j = ip
    · rw [here, Function.update_self] at unallocated
      exact absurd unallocated used
    · rw [Function.update_of_ne here] at unallocated ⊢
      exact sound.held.free j unallocated
  · have law := sound.refs j
    show s.holders procs j + (ip :: taken).count j = Function.update s.ref ip 1 j
    by_cases here : j = ip
    · rw [here] at law ⊢
      rw [List.count_cons_self, Function.update_self]
      omega
    · rw [List.count_cons_of_ne (Ne.symm here), Function.update_of_ne here]
      exact law

/-- The parents with the new inode. -/
theorem made_upward (upward : Upward s.inode) (free : (s.inode ip).type = 0) {q : Nat} (parent : (s.inode q).type ≠ 0)
    (up : node.type = T_DIR → (node.entries[1]?).elim 0 (·.inum) = q) : Upward (made s ip node).inode := by
  have apart : ∀ j, (s.inode j).type ≠ 0 → (made s ip node).inode j = s.inode j := by
    intro j used
    refine Function.update_of_ne ?_ ..
    rintro rfl
    exact used free
  have self : (made s ip node).inode ip = node := Function.update_self ..
  intro d dir
  by_cases here : d = ip
  · rw [here, self] at dir
    have above : Inodes.up (made s ip node).inode d = q := by
      unfold Inodes.up
      rw [here, self]
      exact up dir
    rw [above, apart q parent]
    exact parent
  · have same : (made s ip node).inode d = s.inode d := Function.update_of_ne here ..
    rw [same] at dir
    have above : Inodes.up (made s ip node).inode d = Inodes.up s.inode d := by
      unfold Inodes.up
      rw [same]
    have parent := upward d dir
    rw [above, apart _ parent]
    exact parent

/-- `ialloc` makes a free inode a new one. -/
theorem ialloc_makes (held : Held s) (type : Int) :
    Ends strict (s.ialloc type) fun r => (s.inode r.1).type = 0 ∧ (r.1 ≠ 0 ∧ r.1 < NINODES) ∧
      r.2 = ((s.setInode r.1 ⟨type, 0, 0, 0, []⟩).setRef r.1 1).setValid r.1 false := by
  unfold Names.ialloc
  cases found : (List.range' 1 (NINODES - 1)).find? fun inum => (s.inode inum).type = 0 with
  | none => exact Ends.panic (by decide)
  | some ip =>
    have check := List.find?_some found
    have free : (s.inode ip).type = 0 := of_decide_eq_true check
    have inside : ip ≠ 0 ∧ ip < NINODES := by
      have member := List.mem_range'_1.mp (List.mem_of_find?_eq_some found)
      have count : NINODES = 200 := rfl
      omega
    have none : (s.setInode ip ⟨type, 0, 0, 0, []⟩).ref ip = 0 := held.free ip free
    show Ends strict (do let t ← (s.setInode ip ⟨type, 0, 0, 0, []⟩).iget ip; pure (ip, t)) _
    unfold Names.iget
    rw [if_neg (by omega)]
    by_cases full : NINODE ≤ (s.setInode ip ⟨type, 0, 0, 0, []⟩).cached
    · rw [if_pos full]
      exact Ends.panic (by decide)
    · rw [if_neg full]
      exact Ends.pure ⟨free, inside, rfl⟩

/-- The new inode before its entries are made. -/
theorem ilock_made (used : type ≠ 0) :
    (((s.setInode ip ⟨type, 0, 0, 0, []⟩).setRef ip 1).setValid ip false).ilock ip =
      .ok (made s ip ⟨type, 0, 0, 0, []⟩) := by
  let t := ((s.setInode ip ⟨type, 0, 0, 0, []⟩).setRef ip 1).setValid ip false
  have ref : t.ref ip = 1 := Function.update_self ..
  have bad : t.valid ip = false := Function.update_self ..
  have self : t.inode ip = ⟨type, 0, 0, 0, []⟩ := Function.update_self ..
  have locked : t.ilock ip = .ok (t.setValid ip true) := by
    unfold Names.ilock
    rw [ref, bad, self, if_neg (by decide), if_neg (by decide), if_neg used]
  refine locked.trans (congrArg Except.ok ?_)
  show { t with valid := Function.update (Function.update s.valid ip false) ip true } = _
  rw [Function.update_idem]
  rfl

/-- The new inode gets its numbers and its link. -/
theorem made_renewed : (made s ip ⟨type, 0, 0, 0, []⟩).setInode ip
    { (made s ip ⟨type, 0, 0, 0, []⟩).inode ip with major, minor, nlink := 1 } = made s ip ⟨type, major, minor, 1, []⟩ := by
  have self : (made s ip ⟨type, 0, 0, 0, []⟩).inode ip = ⟨type, 0, 0, 0, []⟩ := Function.update_self ..
  have inode : Function.update (made s ip ⟨type, 0, 0, 0, []⟩).inode ip ⟨type, major, minor, 1, []⟩ =
      (made s ip ⟨type, major, minor, 1, []⟩).inode := Function.update_idem ..
  rw [self]
  show { made s ip ⟨type, 0, 0, 0, []⟩ with
    inode := Function.update (made s ip ⟨type, 0, 0, 0, []⟩).inode ip ⟨type, major, minor, 1, []⟩ } = _
  rw [inode]
  rfl

/-- The entries `.` and `..` are made. -/
theorem createDots_makes (apart : ip ≠ dp) (inside : ip ≠ 0) (dir : node.type = T_DIR) (empty : node.entries = []) :
    (made s ip node).createDots ip dp = .ok (made (s.addLink dp 1) ip { node with entries := [⟨ip, dot⟩, ⟨dp, dotdot⟩] }) := by
  let t := (made s ip node).addLink dp 1
  have self : t.inode ip = node := by
    show Function.update (Function.update s.inode ip node) dp _ ip = node
    rw [Function.update_of_ne apart, Function.update_self]
  have first : t.dirlink ip dot ip = .ok (true, t.setEntries ip [⟨ip, dot⟩]) := by
    have written := @dirlink_absent t dot ip (by rw [self]; exact dir) (by rw [self, empty]; rfl) ip
    rw [self, empty] at written
    exact written
  let u := t.setEntries ip [⟨ip, dot⟩]
  have next : u.inode ip = { node with entries := [⟨ip, dot⟩] } := by
    show Function.update t.inode ip { t.inode ip with entries := [⟨ip, dot⟩] } ip = _
    rw [Function.update_self, self]
  have second : u.dirlink ip dotdot dp = .ok (true, u.setEntries ip [⟨ip, dot⟩, ⟨dp, dotdot⟩]) := by
    have absent : findEntry dotdot (u.inode ip).entries = none := by
      rw [next]
      show (if ip ≠ 0 ∧ dot = dotdot then _ else _) = none
      rw [if_neg (fun both => absurd both.2 (by decide))]
      rfl
    have written := @dirlink_absent u dotdot ip (by rw [next]; exact dir) absent dp
    rw [next] at written
    change _ = Except.ok (true, u.setEntries ip (putEntry _ [⟨ip, dot⟩])) at written
    rw [putEntry_cons inside] at written
    exact written
  unfold Names.createDots
  show (t.dirlink ip dot ip >>= _) = _
  rw [first]
  show (u.dirlink ip dotdot dp >>= _) = _
  rw [second]
  have inode : (u.setEntries ip [⟨ip, dot⟩, ⟨dp, dotdot⟩]).inode =
      Function.update (s.addLink dp 1).inode ip { node with entries := [⟨ip, dot⟩, ⟨dp, dotdot⟩] } := by
    show Function.update (Function.update (Function.update (Function.update s.inode ip node) dp _) ip _) ip _ =
      Function.update (Function.update s.inode dp _) ip _
    rw [Function.update_idem, next]
    have same : (made s ip node).inode dp = s.inode dp := Function.update_of_ne (Ne.symm apart) ..
    rw [same, Function.update_comm apart, Function.update_idem]
  refine congrArg Except.ok ?_
  show { u with inode := (u.setEntries ip [⟨ip, dot⟩, ⟨dp, dotdot⟩]).inode } = _
  rw [inode]
  rfl

/-- The part of `create` that writes the entry of the new inode. -/
theorem createEntry_leaves (sound : Sound tidy procs (entryLinks s.inode dp ip) [ip, dp] s) (upward : strict → Upward s.inode)
    (dir : (s.inode dp).type = T_DIR) (apart : ip ≠ dp) (one : (s.inode ip).nlink = 1)
    (parent : (s.inode ip).type = T_DIR → Inodes.up s.inode ip = dp) (absent : findEntry name (s.inode dp).entries = none)
    (home : tidy → dp = ROOTINO ∨ 0 < Inodes.names s.inode dp) (kept : ¬s.Frees dp) :
    ∃ t, s.dirlink dp name ip = .ok (true, t) ∧ Sound tidy procs settled [ip] (t.iput dp) ∧ ¬(t.iput dp).Frees ip ∧
      (strict → Upward (t.iput dp).inode) := by
  have used := sound.used (sound.taken_ref List.mem_cons_self)
  let t := s.setEntries dp (putEntry ⟨ip, name⟩ (s.inode dp).entries)
  have nameless : Inodes.names s.inode ip = 0 := by
    have law := sound.linked.law ip used
    have pending : entryLinks s.inode dp ip ip = 1 := by
      unfold entryLinks
      rw [if_pos rfl, if_neg (fun both => apart both.1)]
    omega
  have entered : Sound tidy procs settled [ip, dp] t :=
    sound.setEntries (sound.linked.enter dir used apart name parent (fun _ => nameless) home fun j => Nat.zero_add _)
  have shape : SameShape s.inode t.inode := by
    obtain ⟨q, rest, listed, nonzero⟩ := sound.linked.dots dp dir
    refine sameShape_update rfl ?_
    show (putEntry _ (s.inode dp).entries)[1]? = _
    rw [listed, putEntry_cons (sound.linked.inside (dir_used dir)).1, putEntry_cons nonzero]
    rfl
  have keptdp : ¬t.Frees dp := by
    intro frees
    refine kept ⟨frees.1, ?_, frees.2.2⟩
    have same : (t.inode dp).nlink = (s.inode dp).nlink := by
      show (Function.update s.inode dp _ dp).nlink = _
      rw [Function.update_self]
    exact same.symm.trans frees.2.1
  have keptip : ¬(t.iput dp).Frees ip := by
    intro frees
    have zero := frees.2.1
    rw [iput_inode, if_neg keptdp] at zero
    change (Function.update s.inode dp _ ip).nlink = 0 at zero
    rw [Function.update_of_ne apart, one] at zero
    exact absurd zero (by decide)
  exact ⟨t, dirlink_absent dir absent ip, (entered.perm (List.Perm.swap dp ip [])).iput, keptip, fun strictly =>
    iput_upward ((upward strictly).congr shape) fun frees => absurd frees keptdp⟩

/-- A call that goes on after a step that succeeded. -/
theorem except_bind_ok {α β : Type} {value : α} {next : α → Except String β} : (Except.ok value >>= next) = next value :=
  rfl

/-- The part of `create` after the inode has been allocated. -/
theorem createAs_leaves (sound : Sound tidy procs settled [dp] s) (upward : strict → Upward s.inode) (dir : (s.inode dp).type = T_DIR)
    (good : s.valid dp = true) (kept : ¬s.Frees dp) (absent : findEntry name (s.inode dp).entries = none) (free : (s.inode ip).type = 0)
    (inside : ip ≠ 0 ∧ ip < NINODES) (used : type ≠ 0) (named : tidy → (s.inode dp).nlink ≠ 0) :
    Ends strict ((((s.setInode ip ⟨type, 0, 0, 0, []⟩).setRef ip 1).setValid ip false).createAs dp name ip type major minor) fun r =>
      ∃ t, r = (some ip, t) ∧ Sound tidy procs settled [ip] t ∧ ¬t.Frees ip ∧ (strict → Upward t.inode) := by
  have apart : ip ≠ dp := by
    rintro rfl
    exact dir_used dir free
  have finish : ∀ {t : Names} {node : Node}, Sound tidy procs (entryLinks (made t ip node).inode dp ip) [ip, dp] (made t ip node) →
      (strict → Upward (made t ip node).inode) → (t.inode dp).type = T_DIR → node.nlink = 1 →
      (node.type = T_DIR → (node.entries[1]?).elim 0 (·.inum) = dp) → findEntry name (t.inode dp).entries = none →
      (tidy → ((entryLinks (made t ip node).inode dp ip dp : Nat) : Int) < (t.inode dp).nlink) → ¬t.Frees dp →
      ∃ u, (made t ip node).dirlink dp name ip = .ok (true, u) ∧ Sound tidy procs settled [ip] (u.iput dp) ∧
        ¬(u.iput dp).Frees ip ∧ (strict → Upward (u.iput dp).inode) := by
    intro t node sound upward dir one parent absent more kept
    have self : (made t ip node).inode ip = node := Function.update_self ..
    have other : (made t ip node).inode dp = t.inode dp := Function.update_of_ne (Ne.symm apart) ..
    have frees : ¬(made t ip node).Frees dp := by
      unfold Names.Frees
      rw [other]
      show ¬(Function.update t.valid ip true dp = true ∧ _ ∧ Function.update t.ref ip 1 dp = 1)
      rw [Function.update_of_ne (Ne.symm apart), Function.update_of_ne (Ne.symm apart)]
      exact kept
    have unnamed : findEntry name ((made t ip node).inode dp).entries = none := by
      rw [other]
      exact absent
    exact createEntry_leaves sound upward (by rw [other]; exact dir) apart
      (by rw [self]; exact one) (by unfold Inodes.up; rw [self]; exact parent) unnamed
      (fun tidily => sound.linked.home tidily (by rw [other]; exact dir) (by rw [other]; exact more tidily)) frees
  have nonzero := (sound.linked.inside (dir_used dir)).1
  unfold Names.createAs
  rw [ilock_made used]
  let node : Node := ⟨type, major, minor, 1, []⟩
  rw [except_bind_ok]
  dsimp only
  rw [made_renewed]
  by_cases listed : type = T_DIR
  · rw [if_pos listed, createDots_makes apart inside.1 listed rfl]
    have positive := sound.linked.nonneg (dir_used dir)
    have few := sound.linked.dirLinks dir (Nat.zero_le 1)
    have count : (NINODES : Int) = 200 := rfl
    have linked : Sound tidy procs (awaiting dp) [dp] (s.addLink dp 1) := by
      refine sound.addLink List.mem_cons_self good (by omega) (by omega) (fun j other => if_neg other) ?_
      unfold awaiting settled
      rw [if_pos rfl]
      decide
    have unallocated : ((s.addLink dp 1).inode ip).type = 0 := by
      rw [(addLink_shape ip).1]
      exact free
    have still : ((s.addLink dp 1).inode dp).type = T_DIR := by
      rw [(addLink_shape dp).1]
      exact dir
    let filled : Node := { node with entries := [⟨ip, dot⟩, ⟨dp, dotdot⟩] }
    have full : filled.type ≠ 0 := used
    have two : filled.type = T_DIR → ∃ q, q ≠ 0 ∧ filled.entries = [⟨ip, dot⟩, ⟨q, dotdot⟩] :=
      fun _ => ⟨dp, nonzero, rfl⟩
    have single : filled.nlink = 1 := rfl
    have dotted := linked.made unallocated inside full single two (if_neg apart)
    have links : (fun j => awaiting dp j + awaiting ip j) =
        entryLinks (made (s.addLink dp 1) ip { node with entries := [⟨ip, dot⟩, ⟨dp, dotdot⟩] }).inode dp ip := by
      funext j
      unfold entryLinks awaiting
      have self : (made (s.addLink dp 1) ip { node with entries := [⟨ip, dot⟩, ⟨dp, dotdot⟩] }).inode ip =
        { node with entries := [⟨ip, dot⟩, ⟨dp, dotdot⟩] } := Function.update_self ..
      rw [self]
      show _ = _ + if j = dp ∧ type = T_DIR then 1 else 0
      simp only [listed, and_true]
      exact Nat.add_comm ..
    rw [links] at dotted
    obtain ⟨u, written, leaves⟩ := finish dotted
      (fun strictly => made_upward ((upward strictly).congr addLink_shape) unallocated (dir_used still) fun _ => rfl)
      still rfl (fun _ => rfl)
      (by
        show findEntry name (Function.update s.inode dp _ dp).entries = none
        rw [Function.update_self]
        exact absent)
      (fun tidily => by
        have nonzero := named tidily
        rw [← links]
        show _ < (Function.update s.inode dp _ dp).nlink
        rw [Function.update_self]
        show _ < short ((s.inode dp).nlink + 1)
        rw [short_eq (by omega) (by omega)]
        unfold awaiting
        dsimp only
        rw [if_pos rfl, if_neg (Ne.symm apart)]
        omega)
      (by
        intro frees
        have zero := frees.2.1
        change (Function.update s.inode dp _ dp).nlink = 0 at zero
        rw [Function.update_self] at zero
        change short ((s.inode dp).nlink + 1) = 0 at zero
        rw [short_eq (by omega) (by omega)] at zero
        omega)
    rw [except_bind_ok]
    rw [written]
    exact Ends.pure ⟨u.iput dp, rfl, leaves⟩
  · rw [if_neg listed]
    have single : node.nlink = 1 := rfl
    have plain := sound.made free inside used single (fun dir => absurd dir listed) rfl
    have links : (fun j => settled j + awaiting ip j) = entryLinks (made s ip node).inode dp ip := by
      funext j
      unfold entryLinks awaiting settled
      have self : (made s ip node).inode ip = node := Function.update_self ..
      rw [self]
      show _ = _ + if j = dp ∧ type = T_DIR then 1 else 0
      simp only [listed, and_false, if_false, Nat.zero_add, Nat.add_zero]
    rw [links] at plain
    obtain ⟨u, written, leaves⟩ := finish plain
      (fun strictly => made_upward (upward strictly) free (dir_used dir) fun dir => absurd dir listed)
      dir rfl (fun dir => absurd dir listed) absent
      (fun tidily => by
        have nonneg := sound.linked.nonneg (dir_used dir)
        have nonzero := named tidily
        rw [← links]
        unfold awaiting settled
        dsimp only
        rw [if_neg (Ne.symm apart)]
        omega) kept
    rw [pure_bind]
    rw [written]
    exact Ends.pure ⟨u.iput dp, rfl, leaves⟩

/-- What `create` leaves. -/
def Making (tidy strict : Prop) (procs : List Nat) (s : Names) (r : Option Nat × Names) : Prop :=
  match r.1 with
  | none => Borrowed s [] r.2
  | some ip => Sound tidy procs settled [ip] r.2 ∧ ¬r.2.Frees ip ∧ (strict → Upward r.2.inode)

/-- `create`. -/
theorem create_leaves (sound : Sound tidy procs settled [] s) (upward : strict → Upward s.inode) (path : List UInt8) (used : type ≠ 0)
    (straight : tidy → ¬s.NamesIn p (fun dp => dp.nlink = 0) path) :
    Ends strict (s.create p path type major minor) (Making tidy strict procs s) := by
  unfold Names.create
  refine (sound.walks upward p path).bind fun r walked => ?_
  obtain ⟨result, t⟩ := r
  have borrowed := walked.borrowed
  cases result with
  | none => exact Ends.pure borrowed
  | some found =>
    obtain ⟨dp, name⟩ := found
    change Borrowed s [dp] t at borrowed
    have target := walked.result
    have dir : (s.inode dp).type = T_DIR := (walked.dir rfl _ rfl).1
    refine (borrowed.ilock List.mem_cons_self fun _ => dir_used dir).bind fun u known => ?_
    obtain ⟨locked, _, good⟩ := known
    have directory : ∀ i ∈ [dp], (s.inode i).type ≠ 0 := by
      intro i member
      rw [List.mem_singleton.mp member]
      exact dir_used dir
    have held : Sound tidy procs settled [dp] u := sound.borrow locked directory
    have listed : (u.inode dp).type = T_DIR := by
      rw [locked.inode]
      exact dir
    refine ((Borrowed.refl u).dirlookup held.held listed name).bind fun r known => ?_
    obtain ⟨entry, v⟩ := r
    obtain ⟨found, taking⟩ := known
    change entry = _ at found
    cases entry with
    | some entry =>
      obtain ⟨ip, off⟩ := entry
      change Borrowed u [ip] v at taking
      obtain ⟨e, place, named, nonzero, _⟩ := findEntry_some found.symm
      have target : strict → (s.inode ip).type ≠ 0 := by
        intro strictly
        rw [locked.inode] at place
        rw [← named] at nonzero ⊢
        exact sound.linked.noDangling (upward strictly) dp dir e (List.mem_of_getElem? place) nonzero
      have both : Borrowed s [ip] (v.iput dp) := (locked.trans taking directory).iput_second sound.held
      refine (both.ilock List.mem_cons_self target).bind fun w known => ?_
      obtain ⟨borrowed, used, _⟩ := known
      show Ends strict (if _ then _ else _) _
      by_cases same : type = T_FILE ∧ (w.inode ip).type = T_FILE
      · rw [if_pos same]
        refine Ends.pure ⟨sound.borrow borrowed fun i member => ?_, borrowed.kept sound.held List.mem_cons_self, ?_⟩
        · rw [List.mem_singleton.mp member]
          exact used
        · rw [borrowed.inode]
          exact upward
      · rw [if_neg same]
        exact Ends.pure (borrowed.iput_head sound.held)
    | none =>
      change Borrowed u [] v at taking
      have inode : v.inode = s.inode := taking.inode.trans locked.inode
      have again : Sound tidy procs settled [dp] v := held.returned taking
      have kept : ¬v.Frees dp := (locked.trans taking directory).kept sound.held List.mem_cons_self
      have goodv : v.valid dp = true := locked.locked taking List.mem_cons_self good
      refine (ialloc_makes again.held type).bind fun r known => ?_
      obtain ⟨ip, w⟩ := r
      obtain ⟨free, inside, same⟩ := known
      change w = _ at same
      show Ends strict (w.createAs dp name ip type major minor) _
      rw [same]
      have absent : findEntry name (v.inode dp).entries = none := by
        rw [taking.inode]
        exact found.symm
      refine (createAs_leaves again ?_ ?_ goodv kept absent free inside used fun tidily bare => ?_).mono fun r created => ?_
      · rw [inode]
        exact upward
      · rw [inode]
        exact dir
      · rw [inode] at bare absent
        exact straight tidily ⟨dp, name, target.symm, bare, absent⟩
      · obtain ⟨x, rfl, leaves⟩ := created
        exact leaves

/-- `sys_mkdir` and `sys_mknod`. -/
theorem sysMake_leaves (sound : Sound tidy procs settled [] s) (upward : strict → Upward s.inode) (path : List UInt8) (used : type ≠ 0)
    (straight : tidy → ¬s.NamesIn p (fun dp => dp.nlink = 0) path) :
    Ends strict (s.sysMake p path type major minor) fun r => Leaves tidy strict procs s p call r.2 := by
  unfold Names.sysMake
  refine (create_leaves sound upward path used straight).bind fun r created => ?_
  obtain ⟨result, t⟩ := r
  cases result with
  | none => exact Ends.pure (leaves_same sound upward created)
  | some ip =>
    obtain ⟨taken, kept, parents⟩ := created
    exact Ends.pure ⟨taken.iput, fun strictly _ => iput_upward (parents strictly) fun frees => absurd frees kept⟩

/-- `sys_open` with `O_CREATE`. -/
theorem openCreate_leaves (sound : Sound tidy procs settled [] s) (upward : strict → Upward s.inode) (path : List UInt8)
    (straight : tidy → ¬s.NamesIn p (fun dp => dp.nlink = 0) path) :
    Ends strict (s.openCreate p path) fun r => Leaves tidy strict procs s p call r.2 := by
  unfold Names.openCreate
  refine (create_leaves sound upward path (by decide) straight).bind fun r created => ?_
  obtain ⟨result, t⟩ := r
  cases result with
  | none => exact Ends.pure (leaves_same sound upward created)
  | some ip =>
    obtain ⟨taken, kept, parents⟩ := created
    have opened := openFile_leaves (p := p) taken kept parents
    exact Ends.pure ⟨opened.1, fun strictly _ => opened.2 strictly⟩

end Creating

/-! ## All calls -/

/-- Every call that does not make a count wrap around leaves the links counted; it arrives at no free
inode when the parents are not free. -/
theorem call_leaves (sound : Sound tidy procs settled [] s) (upward : strict → Upward s.inode) (p : Nat) (call : NameCall)
    (room : ¬s.Overflows p call) (straight : tidy → ¬s.Strays p call) : Ends strict (s.call p call) fun r => Leaves tidy strict procs s p call r.2 := by
  unfold Names.call
  cases call with
  | «open» path creates rdonly =>
    cases creates with
    | true => exact openCreate_leaves sound upward path fun tidily strays => straight tidily ⟨rfl, strays⟩
    | false => exact openExisting_leaves sound upward path rdonly
  | mkdir path => exact sysMake_leaves sound upward path (by decide) straight
  | mknod path major minor => exact sysMake_leaves sound upward path (by decide) straight
  | link old new => exact sysLink_leaves sound upward room straight
  | unlink path => exact sysUnlink_leaves sound upward path
  | close fd => exact sysClose_leaves sound upward fd
  | chdir path => exact sysChdir_leaves sound upward path

end Leaving

end Xv6
