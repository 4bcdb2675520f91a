import Xv6.Names

/-!
# Walks over names

`namex` takes and drops references while it looks up the elements of a path. When every inode
without links is held, it frees nothing: it leaves the inodes as they are, and one more reference to
the inode that it returns, which is the one that the path leads to. The names are resolved by a
function without references, and every panic except the one for an inode that is free is a case in
which the call does not return.
-/

namespace Xv6

/-- The panic of a lookup that arrives at a free inode. -/
def noType : String := "ilock: no type"

/-- The code returns a value with the postcondition, or panics; when it is `strict` then not because
an inode is free. -/
def Ends {α : Type} (strict : Prop) (x : Except String α) (post : α → Prop) : Prop :=
  match x with
  | .ok value => post value
  | .error message => strict → message ≠ noType

section Rules

variable {α β : Type} {strict : Prop} {x : Except String α} {next : α → Except String β} {post post' : α → Prop}
  {after : β → Prop}

/-- Code that returns at once. -/
theorem Ends.pure {value : α} (holds : post value) : Ends strict (Pure.pure value) post := holds

/-- Another panic. -/
theorem Ends.panic {message : String} (other : message ≠ noType) : Ends strict (.error message : Except String α) post :=
  fun _ => other

/-- One piece of code after the other. -/
theorem Ends.bind (first : Ends strict x post) (rest : ∀ value, post value → Ends strict (next value) after) :
    Ends strict (x >>= next) after := by
  cases x with
  | ok value => exact rest value first
  | error message => exact first

/-- A weaker postcondition. -/
theorem Ends.mono (ends : Ends strict x post) (weaker : ∀ value, post value → post' value) : Ends strict x post' := by
  cases x with
  | ok value => exact weaker value ends
  | error message => exact ends

/-- What code leaves that returns. -/
theorem Ends.ok {value : α} (ends : Ends strict x post) (returned : x = .ok value) : post value := by
  rw [returned] at ends
  exact ends

end Rules

namespace Names

/-- The walk of `namex` without references. -/
def walkFrom (s : Names) (nameiparent : Bool) : Nat → Nat → List UInt8 → Option (Nat × Name)
  | 0, _, _ => none
  | fuel + 1, ip, path =>
    match skipelem path with
    | none => if nameiparent then none else some (ip, [])
    | some (name, path) =>
      if (s.inode ip).type ≠ T_DIR then none
      else if nameiparent && path.isEmpty then some (ip, name)
      else
        match findEntry name (s.inode ip).entries with
        | none => none
        | some (next, _) => s.walkFrom nameiparent fuel next path

/-- The inode at which a path begins. -/
def origin (s : Names) (p : Nat) (path : List UInt8) : Option Nat :=
  if path.head? = some slash then some ROOTINO else s.cwd p

/-- The inode that a path leads to, and for the parent of a path its last name. -/
def resolve (s : Names) (p : Nat) (path : List UInt8) (nameiparent : Bool) : Option (Nat × Name) :=
  match s.origin p path with
  | none => none
  | some ip => s.walkFrom nameiparent (path.length + 1) ip path

end Names

/-- Every inode without links is held by a reference, and no free one is. -/
structure Held (s : Names) : Prop where
  /-- An inode without links that is not free. -/
  idle : ∀ i, (s.inode i).type ≠ 0 → (s.inode i).nlink = 0 → 0 < s.ref i ∧ s.valid i = true
  /-- A free inode. -/
  free : ∀ i, (s.inode i).type = 0 → s.ref i = 0

/-- The entries of a directory name inodes that are not free. -/
def NoDangling (s : Names) : Prop :=
  ∀ d, (s.inode d).type = T_DIR → ∀ e ∈ (s.inode d).entries, e.inum ≠ 0 → (s.inode e.inum).type ≠ 0

/-- The call has taken these references and changed nothing else. -/
structure Borrowed (s : Names) (taken : List Nat) (t : Names) : Prop where
  inode : t.inode = s.inode
  ref : ∀ i, t.ref i = s.ref i + taken.count i
  /-- What is in memory stays there. -/
  valid : ∀ i, 0 < s.ref i → s.valid i = true → t.valid i = true
  /-- A free inode is not in memory. -/
  fresh : ∀ i ∈ taken, (s.inode i).type = 0 → t.valid i = false
  cwd : t.cwd = s.cwd
  ofile : t.ofile = s.ofile
  fileRef : t.fileRef = s.fileRef
  fileIp : t.fileIp = s.fileIp

section References

variable {strict : Prop} {s t : Names} {taken : List Nat} {i p : Nat} {name : Name} {path : List UInt8}

/-- Nothing is taken. -/
theorem Borrowed.refl (s : Names) : Borrowed s [] s :=
  ⟨rfl, fun _ => rfl, fun _ _ => id, fun _ member => absurd member List.not_mem_nil, rfl, rfl, rfl, rfl⟩

/-- The order of the references does not matter. -/
theorem Borrowed.perm {taken' : List Nat} (borrowed : Borrowed s taken t) (same : taken.Perm taken') : Borrowed s taken' t :=
  { borrowed with
    ref := fun i => by rw [← same.count_eq i]; exact borrowed.ref i
    fresh := fun i member => borrowed.fresh i (same.mem_iff.mpr member) }

/-- `iget` takes a reference. -/
theorem Borrowed.iget (held : Held s) (borrowed : Borrowed s taken t) (i : Nat) :
    Ends strict (t.iget i) (Borrowed s (i :: taken)) := by
  have refs : ∀ n, n = t.ref i + 1 → ∀ j, (t.setRef i n).ref j = s.ref j + (i :: taken).count j := by
    intro n taking j
    show Function.update t.ref i n j = _
    by_cases here : j = i
    · rw [here, Function.update_self, List.count_cons_self, taking, borrowed.ref i]
      omega
    · rw [Function.update_of_ne here, List.count_cons_of_ne (Ne.symm here)]
      exact borrowed.ref j
  unfold Names.iget
  by_cases counted : 0 < t.ref i
  · rw [if_pos counted]
    refine ⟨borrowed.inode, refs _ rfl, borrowed.valid, fun j member free => ?_, borrowed.cwd, borrowed.ofile,
      borrowed.fileRef, borrowed.fileIp⟩
    rcases List.mem_cons.mp member with here | there
    · apply borrowed.fresh j _ free
      have none := held.free j free
      have known := borrowed.ref j
      rw [← here] at counted
      exact List.count_pos_iff.mp (by omega)
    · exact borrowed.fresh j there free
  · rw [if_neg counted]
    by_cases full : NINODE ≤ t.cached
    · rw [if_pos full]
      exact Ends.panic (by decide)
    · rw [if_neg full]
      have none : t.ref i = 0 := by omega
      have unheld : s.ref i = 0 := by
        have known := borrowed.ref i
        omega
      refine ⟨borrowed.inode, refs 1 (by omega), fun j kept good => ?_, fun j member free => ?_, borrowed.cwd, borrowed.ofile,
        borrowed.fileRef, borrowed.fileIp⟩
      · have other : j ≠ i := by
          rintro rfl
          omega
        show Function.update t.valid i false j = true
        rw [Function.update_of_ne other]
        exact borrowed.valid j kept good
      · show Function.update t.valid i false j = false
        by_cases here : j = i
        · rw [here, Function.update_self]
        · rw [Function.update_of_ne here]
          exact borrowed.fresh j ((List.mem_cons.mp member).resolve_left here) free

/-- `idup` takes a reference to an inode that is not free. -/
theorem Borrowed.idup (i : Nat) (used : (s.inode i).type ≠ 0) : Borrowed s [i] (s.idup i) := by
  refine ⟨rfl, fun j => ?_, fun _ _ => id, fun j member free => ?_, rfl, rfl, rfl, rfl⟩
  · show Function.update s.ref i (s.ref i + 1) j = _
    by_cases here : j = i
    · rw [here, Function.update_self, List.count_singleton_self]
    · rw [Function.update_of_ne here, List.count_cons_of_ne (Ne.symm here)]
      rfl
  · rw [List.mem_singleton.mp member] at free
    exact absurd free used

/-- `ilock` of an inode that has been taken finds that it is not free. -/
theorem Borrowed.ilock (borrowed : Borrowed s taken t) (member : i ∈ taken) (used : strict → (s.inode i).type ≠ 0) :
    Ends strict (t.ilock i) fun u => Borrowed s taken u ∧ (s.inode i).type ≠ 0 ∧ u.valid i = true := by
  have counted : t.ref i ≠ 0 := by
    have known := borrowed.ref i
    have positive := List.count_pos_iff.mpr member
    omega
  unfold Names.ilock
  rw [if_neg counted]
  by_cases good : t.valid i = true
  · rw [if_pos good]
    refine ⟨borrowed, fun free => ?_, good⟩
    rw [borrowed.fresh i member free] at good
    contradiction
  · rw [if_neg good, borrowed.inode]
    by_cases free : (s.inode i).type = 0
    · rw [if_pos free]
      exact fun strict => absurd free (used strict)
    · rw [if_neg free]
      refine ⟨⟨borrowed.inode, borrowed.ref, fun j kept good => ?_, fun j member free' => ?_, borrowed.cwd, borrowed.ofile,
        borrowed.fileRef, borrowed.fileIp⟩, free, Function.update_self ..⟩
      · show Function.update t.valid i true j = true
        by_cases here : j = i
        · rw [here, Function.update_self]
        · rw [Function.update_of_ne here]
          exact borrowed.valid j kept good
      · have other : j ≠ i := by
          rintro rfl
          exact free free'
        show Function.update t.valid i true j = false
        rw [Function.update_of_ne other]
        exact borrowed.fresh j member free'

/-- `iput` of an inode that another reference keeps or that has links only drops the reference. -/
theorem iput_keeps (kept : ¬(s.valid i = true ∧ (s.inode i).nlink = 0 ∧ s.ref i = 1)) : s.iput i = s.setRef i (s.ref i - 1) := by
  unfold Names.iput Names.reclaim
  rw [if_neg kept]

/-- `iput` of an inode that has been taken frees nothing. -/
theorem Borrowed.kept (held : Held s) (borrowed : Borrowed s taken t) (member : i ∈ taken) :
    ¬(t.valid i = true ∧ (t.inode i).nlink = 0 ∧ t.ref i = 1) := by
  have positive := List.count_pos_iff.mpr member
  have known := borrowed.ref i
  rintro ⟨good, unlinked, last⟩
  rw [borrowed.inode] at unlinked
  by_cases free : (s.inode i).type = 0
  · rw [borrowed.fresh i member free] at good
    contradiction
  · have busy := (held.idle i free unlinked).1
    omega

/-- `iput` gives a reference back and frees nothing. -/
theorem Borrowed.iput (held : Held s) (borrowed : Borrowed s taken t) (member : i ∈ taken) :
    Borrowed s (taken.erase i) (t.iput i) := by
  have positive := List.count_pos_iff.mpr member
  have known := borrowed.ref i
  have kept := borrowed.kept held member
  rw [iput_keeps kept]
  refine ⟨borrowed.inode, fun j => ?_, borrowed.valid, fun j there => borrowed.fresh j (List.mem_of_mem_erase there),
    borrowed.cwd, borrowed.ofile, borrowed.fileRef, borrowed.fileIp⟩
  show Function.update t.ref i (t.ref i - 1) j = _
  by_cases here : j = i
  · rw [here, Function.update_self, List.count_erase_self]
    omega
  · rw [Function.update_of_ne here, List.count_erase_of_ne here]
    exact borrowed.ref j

/-- The last reference taken is given back. -/
theorem Borrowed.iput_head (held : Held s) (borrowed : Borrowed s (i :: taken) t) : Borrowed s taken (t.iput i) := by
  have given := borrowed.iput held List.mem_cons_self
  rw [List.erase_cons_head] at given
  exact given

/-- The reference before the last one is given back. -/
theorem Borrowed.iput_second {j : Nat} (held : Held s) (borrowed : Borrowed s (i :: j :: taken) t) :
    Borrowed s (i :: taken) (t.iput j) := (borrowed.perm (List.Perm.swap j i taken)).iput_head held

/-- An inode that is in memory stays there. -/
theorem Borrowed.locked {taken' : List Nat} {u : Names} (borrowed : Borrowed s taken t) (later : Borrowed t taken' u)
    (member : i ∈ taken) (good : t.valid i = true) : u.valid i = true := by
  refine later.valid i ?_ good
  have known := borrowed.ref i
  have positive := List.count_pos_iff.mpr member
  omega

/-- References are taken to inodes that are not free, and then others. -/
theorem Borrowed.trans {taken' : List Nat} {u : Names} (first : Borrowed s taken t) (later : Borrowed t taken' u)
    (used : ∀ i ∈ taken, (s.inode i).type ≠ 0) : Borrowed s (taken' ++ taken) u := by
  refine ⟨later.inode.trans first.inode, fun j => ?_, fun j kept good => ?_, fun j member free => ?_, later.cwd.trans first.cwd,
    later.ofile.trans first.ofile, later.fileRef.trans first.fileRef, later.fileIp.trans first.fileIp⟩
  · rw [later.ref j, first.ref j, List.count_append]
    omega
  · have known := first.ref j
    exact later.valid j (by omega) (first.valid j kept good)
  · rcases List.mem_append.mp member with last | before
    · apply later.fresh j last
      rw [first.inode]
      exact free
    · exact absurd free (used j before)

/-- `dirlookup` takes a reference to the inode it finds. -/
theorem Borrowed.dirlookup (held : Held s) (borrowed : Borrowed s taken t) {dp : Nat} (dir : (s.inode dp).type = T_DIR) (name : Name) :
    Ends strict (t.dirlookup dp name) fun r => r.1 = findEntry name (s.inode dp).entries ∧
      Borrowed s (r.1.elim taken fun found => found.1 :: taken) r.2 := by
  unfold Names.dirlookup
  rw [borrowed.inode, if_neg (fun other => other dir)]
  cases findEntry name (s.inode dp).entries with
  | none => exact Ends.pure ⟨rfl, borrowed⟩
  | some found => exact (borrowed.iget held found.1).bind fun u taking => Ends.pure ⟨rfl, taking⟩

/-- `dirlink` writes an entry if there is none of the name. -/
theorem Borrowed.dirlink (held : Held s) (borrowed : Borrowed s taken t) {dp : Nat} (dir : (s.inode dp).type = T_DIR) (name : Name)
    (inum : Nat) :
    Ends strict (t.dirlink dp name inum) fun r => r.1 = false ∧ Borrowed s taken r.2 ∨
      r.1 = true ∧ findEntry name (s.inode dp).entries = none ∧ ∃ u, Borrowed s taken u ∧
        r.2 = u.setEntries dp (putEntry ⟨inum, name⟩ (s.inode dp).entries) := by
  unfold Names.dirlink
  refine (borrowed.dirlookup held dir name).bind fun r known => ?_
  obtain ⟨entry, u⟩ := r
  obtain ⟨found, taking⟩ := known
  cases entry with
  | none =>
    refine Ends.pure (.inr ⟨rfl, found.symm, u, taking, ?_⟩)
    rw [← taking.inode]
  | some entry => exact Ends.pure (.inl ⟨rfl, taking.iput_head held⟩)

/-- `dirlink` of a name that is not there. -/
theorem dirlink_absent {dp : Nat} (dir : (s.inode dp).type = T_DIR) (absent : findEntry name (s.inode dp).entries = none) (inum : Nat) :
    s.dirlink dp name inum = .ok (true, s.setEntries dp (putEntry ⟨inum, name⟩ (s.inode dp).entries)) := by
  have looked : s.dirlookup dp name = .ok (none, s) := by
    unfold Names.dirlookup
    rw [if_neg (fun other => other dir), absent]
  unfold Names.dirlink
  rw [looked]
  rfl

/-- `ilock` of an inode in memory. -/
theorem ilock_valid (counted : 0 < s.ref i) (good : s.valid i = true) : s.ilock i = .ok s := by
  unfold Names.ilock
  rw [if_neg (Nat.pos_iff_ne_zero.mp counted), if_pos good]

end References

/-! ## Walks -/

/-- Where a path leads depends on the types, the entries and the current directory. -/
theorem walkFrom_congr {s t : Names} {nameiparent : Bool} (type : ∀ d, (t.inode d).type = (s.inode d).type)
    (entries : ∀ d, (t.inode d).entries = (s.inode d).entries) (fuel : Nat) :
    ∀ ip path, t.walkFrom nameiparent fuel ip path = s.walkFrom nameiparent fuel ip path := by
  induction fuel with
  | zero => exact fun _ _ => rfl
  | succ fuel ih =>
    intro ip path
    unfold Names.walkFrom
    rw [type, entries]
    simp only [ih]

/-- The entry that `findEntry` finds. -/
theorem findEntry_some {name : Name} {entries : List Dirent} {inum off : Nat} (found : findEntry name entries = some (inum, off)) :
    ∃ e, entries[off]? = some e ∧ e.inum = inum ∧ inum ≠ 0 ∧ e.name = name := by
  induction entries generalizing off with
  | nil => exact nomatch found
  | cons e rest ih =>
    unfold findEntry at found
    by_cases here : e.inum ≠ 0 ∧ e.name = name
    · rw [if_pos here] at found
      cases found
      exact ⟨e, rfl, rfl, here.1, here.2⟩
    · rw [if_neg here] at found
      obtain ⟨⟨inum', off'⟩, later, same⟩ := Option.map_eq_some_iff.mp found
      cases same
      exact ih later

/-- What a walk leaves: the result, a reference to it, and for the parent of a path a directory that
has been locked. -/
structure Walked (strict : Prop) (s : Names) (nameiparent : Bool) (result : Option (Nat × Name))
    (r : Option (Nat × Name) × Names) : Prop where
  result : r.1 = result
  borrowed : Borrowed s (r.1.elim [] fun found => [found.1]) r.2
  /-- A strict walk finds an inode that is not free. -/
  used : ∀ found, r.1 = some found → strict → (s.inode found.1).type ≠ 0
  /-- The parent of a path is a directory that is in memory. -/
  dir : nameiparent = true → ∀ found, r.1 = some found → (s.inode found.1).type = T_DIR ∧ r.2.valid found.1 = true

section Walks

variable {strict : Prop} {s t : Names} {nameiparent : Bool}

/-- A walk that finds nothing. -/
theorem Walked.nothing (borrowed : Borrowed s [] t) : Walked strict s nameiparent none (none, t) :=
  ⟨rfl, borrowed, nofun, nofun⟩

/-- A walk that ends. -/
theorem Walked.found {ip : Nat} {name : Name} (borrowed : Borrowed s [ip] t) (used : strict → (s.inode ip).type ≠ 0)
    (dir : nameiparent = true → (s.inode ip).type = T_DIR ∧ t.valid ip = true) :
    Walked strict s nameiparent (some (ip, name)) (some (ip, name), t) := by
  refine ⟨rfl, borrowed, fun found same => ?_, fun parent found same => ?_⟩
  · cases same
    exact used
  · cases same
    exact dir parent

/-- The loop of `namex`. -/
theorem namexLoop_walks (held : Held s) (sound : strict → NoDangling s) (fuel : Nat) : ∀ {t : Names} {ip : Nat} {path : List UInt8},
    Borrowed s [ip] t → (strict → (s.inode ip).type ≠ 0) →
    Ends strict (Names.namexLoop nameiparent fuel t ip path) (Walked strict s nameiparent (s.walkFrom nameiparent fuel ip path)) := by
  induction fuel with
  | zero => exact fun borrowed _ => Ends.pure (.nothing (borrowed.iput_head held))
  | succ fuel ih =>
    intro t ip path borrowed used
    unfold Names.namexLoop Names.walkFrom
    cases skipelem path with
    | none =>
      cases nameiparent with
      | true => exact Ends.pure (.nothing (borrowed.iput_head held))
      | false => exact Ends.pure (.found borrowed used Bool.noConfusion)
    | some element =>
      obtain ⟨name, path⟩ := element
      refine (borrowed.ilock List.mem_cons_self used).bind fun u known => ?_
      obtain ⟨borrowed, allocated, good⟩ := known
      show Ends strict (if (u.inode ip).type ≠ T_DIR then _ else _) _
      rw [borrowed.inode]
      by_cases dir : (s.inode ip).type = T_DIR
      · have listed : ¬(s.inode ip).type ≠ T_DIR := fun other => other dir
        rw [if_neg listed]
        dsimp only
        rw [if_neg listed]
        by_cases last : (nameiparent && path.isEmpty) = true
        · rw [if_pos last, if_pos last]
          exact Ends.pure (.found borrowed (fun _ => allocated) fun _ => ⟨dir, good⟩)
        · rw [if_neg last, if_neg last]
          refine (borrowed.dirlookup held dir name).bind fun r known => ?_
          obtain ⟨r, v⟩ := r
          obtain ⟨entry, taking⟩ := known
          change r = _ at entry
          rw [← entry]
          cases r with
          | none => exact Ends.pure (.nothing (taking.iput_head held))
          | some found =>
            obtain ⟨e, place, named, nonzero, _⟩ := findEntry_some entry.symm
            have target : strict → (s.inode found.1).type ≠ 0 := by
              intro strictly
              have member := List.mem_of_getElem? place
              rw [← named] at nonzero ⊢
              exact sound strictly ip dir e member nonzero
            exact ih (taking.iput_second held) target
      · rw [if_pos dir]
        dsimp only
        rw [if_pos dir]
        exact Ends.pure (.nothing (borrowed.iput_head held))

/-- `namex` walks as the path says, takes a reference to the inode it returns and changes nothing
else. -/
theorem namex_walks (held : Held s) (sound : strict → NoDangling s) (root : (s.inode ROOTINO).type ≠ 0) (p : Nat)
    (cwd : ∀ d, s.cwd p = some d → (s.inode d).type ≠ 0) (path : List UInt8) :
    Ends strict (s.namex p path nameiparent) (Walked strict s nameiparent (s.resolve p path nameiparent)) := by
  unfold Names.namex Names.start Names.resolve Names.origin
  by_cases absolute : path.head? = some slash
  · rw [if_pos absolute, if_pos absolute]
    have started : Ends strict (do let u ← s.iget ROOTINO; pure (ROOTINO, u)) fun r => r.1 = ROOTINO ∧ Borrowed s [ROOTINO] r.2 :=
      ((Borrowed.refl s).iget held ROOTINO).bind fun u taking => Ends.pure ⟨rfl, taking⟩
    refine started.bind fun r known => ?_
    obtain ⟨ip, u⟩ := r
    obtain ⟨same, borrowed⟩ := known
    cases same
    exact namexLoop_walks held sound _ borrowed fun _ => root
  · rw [if_neg absolute, if_neg absolute]
    cases current : s.cwd p with
    | none => exact Ends.panic (by decide)
    | some d =>
      exact namexLoop_walks held sound _ (Borrowed.idup d (cwd d current)) fun _ => cwd d current

end Walks

end Xv6
