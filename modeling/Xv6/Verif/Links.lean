import Mathlib.Algebra.BigOperators.Group.Finset.Piecewise
import Mathlib.Algebra.Order.BigOperators.Group.Finset
import Xv6.Verif.Walking

/-!
# Counting links

The links of an inode are counted by the entries that name it, apart from `.`, and by the `..` of the
directories in it. While a call is under way some links are counted before their entries are written
or after they have been removed: these are pending. Every change of a call keeps the count as long as
it does not wrap around.
-/

namespace Xv6

open Finset

/-! ## Entries -/

section Entries

variable {q : Dirent → Bool} {de e : Dirent} {l : List Dirent} {k : Nat}

/-- A new entry is counted. -/
theorem countP_putEntry (unused : ∀ e : Dirent, e.inum = 0 → q e = false) :
    (putEntry de l).countP q = l.countP q + if q de then 1 else 0 := by
  induction l with
  | nil =>
    show List.countP q [de] = _
    rw [List.countP_singleton, List.countP_nil, Nat.zero_add]
  | cons e rest ih =>
    unfold putEntry
    by_cases free : e.inum = 0
    · rw [if_pos free, List.countP_cons, List.countP_cons, unused e free]
      simp
    · rw [if_neg free, List.countP_cons, List.countP_cons, ih]
      omega

/-- An entry that is removed is not counted any more. -/
theorem countP_removeEntry (here : l[k]? = some e) (unused : q ⟨0, []⟩ = false) :
    (l.set k ⟨0, []⟩).countP q + (if q e then 1 else 0) = l.countP q := by
  induction l generalizing k with
  | nil => exact nomatch here
  | cons first rest ih =>
    cases k with
    | zero =>
      cases here
      rw [List.set_cons_zero, List.countP_cons, List.countP_cons, unused]
      simp
    | succ k =>
      rw [List.set_cons_succ, List.countP_cons, List.countP_cons, ← ih here]
      omega

/-- An entry in use is passed over. -/
theorem putEntry_cons (used : e.inum ≠ 0) : putEntry de (e :: l) = e :: putEntry de l := if_neg used

/-- The entries after a new one has been written. -/
theorem mem_putEntry (member : e ∈ putEntry de l) : e = de ∨ e ∈ l := by
  induction l with
  | nil => exact .inl (List.mem_singleton.mp member)
  | cons first rest ih =>
    unfold putEntry at member
    by_cases free : first.inum = 0
    · rw [if_pos free] at member
      exact (List.mem_cons.mp member).imp id (List.mem_cons_of_mem first)
    · rw [if_neg free] at member
      rcases List.mem_cons.mp member with rfl | later
      · exact .inr List.mem_cons_self
      · exact (ih later).imp id (List.mem_cons_of_mem first)

end Entries

/-! ## The count -/

/-- The inodes by number. -/
abbrev Inodes : Type := Nat → Node

namespace Inodes

/-- The entries of a directory behind `.` and `..`. -/
def children (x : Inodes) (d : Nat) : List Dirent := (x d).entries.drop 2

/-- The entries of a directory that name an inode. -/
def namesIn (x : Inodes) (i d : Nat) : Nat :=
  if (x d).type = T_DIR then (x.children d).countP fun e => e.inum = i else 0

/-- The entries of all directories that name an inode. -/
def names (x : Inodes) (i : Nat) : Nat := ∑ d ∈ range NINODES, x.namesIn i d

/-- The entries of a directory that name directories. -/
def subdirs (x : Inodes) (d : Nat) : Nat :=
  if (x d).type = T_DIR then (x.children d).countP fun e => (x e.inum).type = T_DIR else 0

/-- The inode that `..` names. -/
def up (x : Inodes) (d : Nat) : Nat := ((x d).entries[1]?).elim 0 (·.inum)

end Inodes

/-- A directory in which nothing is named. -/
def Bare (x : Inodes) (d : Nat) : Prop := ∀ e ∈ x.children d, e.inum = 0

/-- The links are counted; `pending` counts the links of an inode that have no entry. When the calls
are `tidy` then no name is lost. -/
structure Linked (tidy : Prop) (pending : Nat → Nat) (x : Inodes) : Prop where
  root : (x ROOTINO).type = T_DIR
  top : x.up ROOTINO = ROOTINO
  /-- The inode numbers. -/
  outside : ∀ i, i = 0 ∨ NINODES ≤ i → (x i).type = 0
  /-- A directory begins with `.` and `..`. -/
  dots : ∀ d, (x d).type = T_DIR → ∃ p rest, (x d).entries = ⟨d, dot⟩ :: ⟨p, dotdot⟩ :: rest ∧ p ≠ 0
  /-- A directory that has a name has it in its parent. -/
  parent : ∀ d, (x d).type = T_DIR → ∀ e ∈ x.children d, (x e.inum).type = T_DIR → x.up e.inum = d
  /-- No directory names itself but by `.` and `..`. -/
  apart : ∀ d, (x d).type = T_DIR → ∀ e ∈ x.children d, e.inum ≠ d
  /-- A free inode has no name. -/
  unnamed : ∀ i, i ≠ 0 → (x i).type = 0 → x.names i = 0
  /-- The links that are counted. -/
  law : ∀ i, (x i).type ≠ 0 →
    ((x.names i + x.subdirs i + (if i = ROOTINO then 1 else 0) + pending i : Nat) : Int) ≤ (x i).nlink
  /-- A directory has no others. -/
  exact : ∀ d, (x d).type = T_DIR →
    (x d).nlink ≤ ((x.names d + x.subdirs d + (if d = ROOTINO then 1 else 0) + pending d : Nat) : Int)
  /-- A directory has one name. -/
  once : ∀ d, (x d).type = T_DIR → x.names d ≤ 1
  /-- The field is a `short`. -/
  small : ∀ i, (x i).nlink < 2 ^ 15
  /-- No inode has other links. -/
  full : tidy → ∀ i, (x i).type ≠ 0 →
    (x i).nlink ≤ ((x.names i + x.subdirs i + (if i = ROOTINO then 1 else 0) + pending i : Nat) : Int)
  /-- A directory without a name is empty. -/
  bare : tidy → ∀ d, (x d).type = T_DIR → d ≠ ROOTINO → x.names d = 0 → Bare x d
  /-- The directories with names are below their parents. -/
  depth : tidy → ∃ rank : Nat → Nat, ∀ d, (x d).type = T_DIR → 0 < x.names d → rank (x.up d) < rank d

section Counting

variable {tidy : Prop} {x y : Inodes} {pending pending' : Nat → Nat} {d i j k : Nat}

/-- The number of a directory is not 0. -/
theorem Linked.inside (linked : Linked tidy pending x) (used : (x i).type ≠ 0) : i ≠ 0 ∧ i < NINODES := by
  refine ⟨fun zero => used (linked.outside i (.inl zero)), ?_⟩
  by_contra high
  exact used (linked.outside i (.inr (Nat.le_of_not_lt high)))

/-- A directory is not free. -/
theorem dir_used (dir : (x d).type = T_DIR) : (x d).type ≠ 0 := by
  rw [dir]
  decide

/-- The counts depend on the types and the entries. -/
theorem names_congr (type : ∀ d, (y d).type = (x d).type) (entries : ∀ d, (y d).entries = (x d).entries) (i : Nat) :
    y.names i = x.names i ∧ y.subdirs i = x.subdirs i ∧ y.up i = x.up i ∧ y.children i = x.children i := by
  unfold Inodes.names Inodes.subdirs Inodes.namesIn Inodes.up Inodes.children
  simp only [type, entries]
  exact ⟨trivial, trivial, trivial, trivial⟩

/-- One directory is changed. -/
theorem names_update (same : ∀ e, e ≠ d → y.namesIn i e = x.namesIn i e) (low : d < NINODES) :
    y.names i + x.namesIn i d = x.names i + y.namesIn i d := by
  have member : d ∈ range NINODES := mem_range.mpr low
  unfold Inodes.names
  rw [← add_sum_erase _ _ member, ← add_sum_erase (range NINODES) (x.namesIn i) member]
  have rest : ∑ e ∈ (range NINODES).erase d, y.namesIn i e = ∑ e ∈ (range NINODES).erase d, x.namesIn i e :=
    sum_congr rfl fun e there => same e (ne_of_mem_erase there)
  rw [rest]
  omega

/-- An entry of a directory is counted. -/
theorem names_pos (linked : Linked tidy pending x) (dir : (x d).type = T_DIR) {e : Dirent} (member : e ∈ x.children d) :
    0 < x.names e.inum := by
  have low := (linked.inside (dir_used dir)).2
  have here : 0 < x.namesIn e.inum d := by
    unfold Inodes.namesIn
    rw [if_pos dir, List.countP_pos_iff]
    exact ⟨e, member, decide_eq_true rfl⟩
  exact Nat.lt_of_lt_of_le here (single_le_sum (fun _ _ => Nat.zero_le _) (mem_range.mpr low))

/-- A name is an entry of a directory. -/
theorem names_elim (named : 0 < x.names i) :
    ∃ e : Dirent, ∃ holder : { d : Nat // (x d).type = T_DIR }, e ∈ x.children holder.1 ∧ e.inum = i := by
  unfold Inodes.names at named
  obtain ⟨d, _, positive⟩ := exists_ne_zero_of_sum_ne_zero (Nat.pos_iff_ne_zero.mp named)
  unfold Inodes.namesIn at positive
  by_cases dir : (x d).type = T_DIR
  · rw [if_pos dir] at positive
    obtain ⟨e, member, same⟩ := List.countP_pos_iff.mp (Nat.pos_of_ne_zero positive)
    exact ⟨e, ⟨d, dir⟩, member, of_decide_eq_true same⟩
  · rw [if_neg dir] at positive
    exact absurd rfl positive

/-- The links are not negative. -/
theorem Linked.nonneg (linked : Linked tidy pending x) (used : (x i).type ≠ 0) : 0 ≤ (x i).nlink := by
  have law := linked.law i used
  omega

/-- The value of a `short` that does not overflow. -/
theorem short_eq {n : Int} (low : -2 ^ 15 ≤ n) (high : n < 2 ^ 15) : short n = n := by
  unfold short
  omega

/-! ## Changes -/

/-- The count of an inode is changed. -/
theorem Linked.relink (linked : Linked tidy pending x) {n : Int} (small : n < 2 ^ 15)
    (other : ∀ j, j ≠ i → pending' j = pending j) (counted : (pending' i : Int) - pending i = n - (x i).nlink) :
    Linked tidy pending' (Function.update x i { x i with nlink := n }) := by
  have type : ∀ d, (Function.update x i { x i with nlink := n } d).type = (x d).type := by
    intro d
    rw [Function.update_apply]
    split
    · rename_i here
      rw [here]
    · rfl
  have entries : ∀ d, (Function.update x i { x i with nlink := n } d).entries = (x d).entries := by
    intro d
    rw [Function.update_apply]
    split
    · rename_i here
      rw [here]
    · rfl
  have same := names_congr type entries
  have balance : ∀ j, (Function.update x i { x i with nlink := n } j).nlink - (x j).nlink = pending' j - pending j := by
    intro j
    rw [Function.update_apply]
    by_cases here : j = i
    · rw [if_pos here, here]
      exact counted.symm
    · rw [if_neg here, other j here]
      omega
  refine ⟨?_, ?_, fun j out => ?_, fun e dir => ?_, fun e dir f member listed => ?_, fun e dir f member => ?_,
    fun j nonzero free => ?_, fun j allocated => ?_, fun j dir => ?_, fun j dir => ?_, fun j => ?_,
    fun tidy j allocated => ?_, fun tidy e dir below none => ?_, fun tidy => ?_⟩
  · rw [type]
    exact linked.root
  · rw [(same ROOTINO).2.2.1]
    exact linked.top
  · rw [type]
    exact linked.outside j out
  · rw [type] at dir
    rw [entries]
    exact linked.dots e dir
  · rw [type] at dir listed
    rw [(same e).2.2.2] at member
    rw [(same f.inum).2.2.1]
    exact linked.parent e dir f member listed
  · rw [type] at dir
    rw [(same e).2.2.2] at member
    exact linked.apart e dir f member
  · rw [type] at free
    rw [(same j).1]
    exact linked.unnamed j nonzero free
  · rw [type] at allocated
    have law := linked.law j allocated
    have moved := balance j
    rw [(same j).1, (same j).2.1]
    omega
  · rw [type] at dir
    have law := linked.exact j dir
    have moved := balance j
    rw [(same j).1, (same j).2.1]
    omega
  · rw [type] at dir
    rw [(same j).1]
    exact linked.once j dir
  · rw [Function.update_apply]
    split
    · exact small
    · exact linked.small j
  · rw [type] at allocated
    have law := linked.full tidy j allocated
    have moved := balance j
    rw [(same j).1, (same j).2.1]
    omega
  · rw [type] at dir
    rw [(same e).1] at none
    unfold Bare
    rw [(same e).2.2.2]
    exact linked.bare tidy e dir below none
  · obtain ⟨rank, below⟩ := linked.depth tidy
    refine ⟨rank, fun e dir named => ?_⟩
    rw [type] at dir
    rw [(same e).1] at named
    rw [(same e).2.2.1]
    exact below e dir named

/-- The entry names an inode. -/
def namesInode (j : Nat) (e : Dirent) : Bool := e.inum = j

/-- The entry names a directory. -/
def namesDir (x : Inodes) (e : Dirent) : Bool := (x e.inum).type = T_DIR

/-- What an entry adds to the names of an inode. -/
theorem namesInode_count {e : Dirent} : (if namesInode j e then 1 else 0) = if j = e.inum then 1 else 0 := by
  unfold namesInode
  by_cases same : j = e.inum
  · rw [if_pos same, if_pos (decide_eq_true same.symm)]
  · rw [if_neg same, if_neg]
    exact fun other => same (of_decide_eq_true other).symm

/-- What an entry adds to the directories in a directory. -/
theorem namesDir_count {e : Dirent} : (if namesDir x e then 1 else 0) = if (x e.inum).type = T_DIR then 1 else 0 := by
  unfold namesDir
  by_cases dir : (x e.inum).type = T_DIR
  · rw [if_pos dir, if_pos (decide_eq_true dir)]
  · rw [if_neg dir, if_neg]
    exact fun other => dir (of_decide_eq_true other)

/-- A directory gets other entries behind `.` and `..`. -/
def Inodes.rewrite (x : Inodes) (d : Nat) (rest : List Dirent) : Inodes :=
  Function.update x d { x d with entries := (x d).entries.take 2 ++ rest }

/-- The entries of a directory are changed and the pending links with them. -/
theorem Linked.rewrite (linked : Linked tidy pending x) (dir : (x d).type = T_DIR) (rest : List Dirent)
    (allowed : ∀ e ∈ rest, e ∈ x.children d ∨ e.inum ≠ d ∧ ((x e.inum).type = T_DIR → x.up e.inum = d))
    (unnamed : ∀ j, j ≠ 0 → (x j).type = 0 → rest.countP (namesInode j) ≤ (x.children d).countP (namesInode j))
    (counted : ∀ j, (x j).type ≠ 0 → rest.countP (namesInode j) + (if j = d then rest.countP (namesDir x) else 0) + pending' j =
      (x.children d).countP (namesInode j) + (if j = d then (x.children d).countP (namesDir x) else 0) + pending j)
    (once : ∀ j, (x j).type = T_DIR → x.names j + rest.countP (namesInode j) ≤ (x.children d).countP (namesInode j) + 1)
    (home : tidy → (∀ e ∈ rest, e ∈ x.children d ∨ e.inum = 0) ∨ d = ROOTINO ∨ 0 < x.names d)
    (gone : tidy → ∀ j, (x j).type = T_DIR → 0 < x.names j → x.names j + rest.countP (namesInode j) = (x.children d).countP (namesInode j) →
      Bare x j)
    (below : tidy → ∃ rank : Nat → Nat, ∀ j, (x j).type = T_DIR →
      (x.children d).countP (namesInode j) < x.names j + rest.countP (namesInode j) → rank (x.up j) < rank j) :
    Linked tidy pending' (x.rewrite d rest) := by
  have low := (linked.inside (dir_used dir)).2
  obtain ⟨p, old, listed, nonzero⟩ := linked.dots d dir
  have self : x.rewrite d rest d = { x d with entries := ⟨d, dot⟩ :: ⟨p, dotdot⟩ :: rest } := by
    unfold Inodes.rewrite
    rw [Function.update_self, listed]
    rfl
  have other : ∀ e, e ≠ d → x.rewrite d rest e = x e := fun e apart => Function.update_of_ne apart ..
  have type : ∀ e, (x.rewrite d rest e).type = (x e).type := by
    intro e
    by_cases here : e = d
    · rw [here, self]
    · rw [other e here]
  have up : ∀ e, (x.rewrite d rest).up e = x.up e := by
    intro e
    unfold Inodes.up
    by_cases here : e = d
    · rw [here, self, listed]
      rfl
    · rw [other e here]
  have children : (x.rewrite d rest).children d = rest := by
    unfold Inodes.children
    rw [self]
    rfl
  have kept : ∀ e, e ≠ d → (x.rewrite d rest).children e = x.children e := by
    intro e apart
    unfold Inodes.children
    rw [other e apart]
  have names : ∀ j, (x.rewrite d rest).names j + (x.children d).countP (namesInode j) =
      x.names j + rest.countP (namesInode j) := by
    intro j
    have moved : (x.rewrite d rest).names j + x.namesIn j d = x.names j + (x.rewrite d rest).namesIn j d := by
      refine names_update (fun e apart => ?_) low
      unfold Inodes.namesIn
      rw [type, kept e apart]
    unfold Inodes.namesIn at moved
    rw [type, if_pos dir, if_pos dir, children] at moved
    exact moved
  have subdirs : ∀ j, (x.rewrite d rest).subdirs j + (if j = d then (x.children d).countP (namesDir x) else 0) =
      x.subdirs j + if j = d then rest.countP (namesDir x) else 0 := by
    intro j
    unfold Inodes.subdirs
    by_cases here : j = d
    · rw [here, if_pos rfl, if_pos rfl, type, if_pos dir, if_pos dir, children]
      simp only [type]
      exact Nat.add_comm ..
    · rw [if_neg here, if_neg here, type, kept j here]
      simp only [type]
  have link : ∀ j, (x.rewrite d rest j).nlink = (x j).nlink := by
    intro j
    by_cases here : j = d
    · rw [here, self]
    · rw [other j here]
  refine ⟨?_, ?_, fun j out => ?_, fun e listing => ?_, fun e listing f member named => ?_, fun e listing f member => ?_,
    fun j positive free => ?_, fun j used => ?_, fun j listing => ?_, fun j listing => ?_, fun j => ?_,
    fun tidy j used => ?_, fun tidy j listing apart none => ?_, fun tidy => ?_⟩
  · rw [type]
    exact linked.root
  · rw [up]
    exact linked.top
  · rw [type]
    exact linked.outside j out
  · rw [type] at listing
    by_cases here : e = d
    · rw [here, self]
      exact ⟨p, rest, rfl, nonzero⟩
    · rw [other e here]
      exact linked.dots e listing
  · rw [type] at listing named
    rw [up]
    by_cases here : e = d
    · rw [here, children] at member
      rw [here]
      rcases allowed f member with before | ⟨_, parent⟩
      · exact linked.parent d dir f before named
      · exact parent named
    · rw [kept e here] at member
      exact linked.parent e listing f member named
  · rw [type] at listing
    by_cases here : e = d
    · rw [here, children] at member
      rw [here]
      rcases allowed f member with before | ⟨apart, _⟩
      · exact linked.apart d dir f before
      · exact apart
    · rw [kept e here] at member
      exact linked.apart e listing f member
  · rw [type] at free
    have none := linked.unnamed j positive free
    have fewer := unnamed j positive free
    have moved := names j
    omega
  · rw [type] at used
    have law := linked.law j used
    have moved := names j
    have nested := subdirs j
    have balance := counted j used
    rw [link]
    omega
  · rw [type] at listing
    have law := linked.exact j listing
    have moved := names j
    have nested := subdirs j
    have balance := counted j (dir_used listing)
    rw [link]
    omega
  · rw [type] at listing
    have moved := names j
    have single := once j listing
    omega
  · rw [link]
    exact linked.small j
  · rw [type] at used
    have law := linked.full tidy j used
    have moved := names j
    have nested := subdirs j
    have balance := counted j used
    rw [link]
    omega
  · rw [type] at listing
    have moved := names j
    have emptied : Bare x j := by
      by_cases named : x.names j = 0
      · exact linked.bare tidy j listing apart named
      · exact gone tidy j listing (Nat.pos_of_ne_zero named) (by omega)
    unfold Bare
    by_cases here : j = d
    · rw [here] at apart listing emptied none moved ⊢
      rw [children]
      have self : (x.children d).countP (namesInode d) = 0 ∧ rest.countP (namesInode d) = 0 := by
        rw [List.countP_eq_zero, List.countP_eq_zero]
        refine ⟨fun e member same => linked.apart d dir e member (of_decide_eq_true same), fun e member same => ?_⟩
        rcases allowed e member with before | other
        · exact linked.apart d dir e before (of_decide_eq_true same)
        · exact other.1 (of_decide_eq_true same)
      rcases home tidy with kept | root | named
      · intro e member
        rcases kept e member with before | zero
        · exact emptied e before
        · exact zero
      · exact absurd root apart
      · omega
    · rw [kept j here]
      exact emptied
  · obtain ⟨rank, lower⟩ := below tidy
    refine ⟨rank, fun j listing named => ?_⟩
    rw [type] at listing
    have moved := names j
    rw [up]
    exact lower j listing (by omega)

/-- The pending links that an entry of `d` that names `i` stands for. -/
def entryLinks (x : Inodes) (d i j : Nat) : Nat := (if j = i then 1 else 0) + if j = d ∧ (x i).type = T_DIR then 1 else 0

/-- An entry is written for pending links. -/
theorem Linked.enter (linked : Linked tidy pending x) (dir : (x d).type = T_DIR) (used : (x i).type ≠ 0) (apart : i ≠ d) (name : Name)
    (parent : (x i).type = T_DIR → x.up i = d) (new : (x i).type = T_DIR → x.names i = 0)
    (home : tidy → d = ROOTINO ∨ 0 < x.names d) (counted : ∀ j, pending' j + entryLinks x d i j = pending j) :
    Linked tidy pending' (Function.update x d { x d with entries := putEntry ⟨i, name⟩ (x d).entries }) := by
  have put : Function.update x d { x d with entries := putEntry ⟨i, name⟩ (x d).entries } =
      x.rewrite d (putEntry ⟨i, name⟩ (x.children d)) := by
    obtain ⟨p, old, listed, nonzero⟩ := linked.dots d dir
    have self := (linked.inside (dir_used dir)).1
    unfold Inodes.rewrite Inodes.children
    rw [listed, putEntry_cons self, putEntry_cons nonzero]
    rfl
  have free : ∀ e : Dirent, e.inum = 0 → namesDir x e = false := by
    intro e zero
    unfold namesDir
    rw [zero, linked.outside 0 (.inl rfl)]
    decide
  have unnamed : ∀ j, j ≠ 0 → ∀ e : Dirent, e.inum = 0 → namesInode j e = false := fun j nonzero e zero =>
    decide_eq_false fun same => nonzero (same.symm.trans zero)
  rw [put]
  have count : ∀ j, (x j).type ≠ 0 → (putEntry ⟨i, name⟩ (x.children d)).countP (namesInode j) =
      (x.children d).countP (namesInode j) + if j = i then 1 else 0 := by
    intro j allocated
    rw [countP_putEntry (unnamed j (linked.inside allocated).1), namesInode_count]
  refine linked.rewrite dir _ (fun e member => ?_) (fun j nonzero unused => ?_) (fun j allocated => ?_) (fun j listed => ?_)
    (fun tidy => .inr (home tidy)) (fun _ j listed named removed => ?_) fun tidy => ?_
  · rcases mem_putEntry member with rfl | before
    · exact .inr ⟨apart, parent⟩
    · exact .inl before
  · rw [countP_putEntry (unnamed j nonzero)]
    have other : namesInode j ⟨i, name⟩ = false := by
      refine decide_eq_false fun same => used ?_
      show (x i).type = 0
      rw [show i = j from same]
      exact unused
    rw [other]
    exact Nat.le_refl _
  · rw [countP_putEntry (unnamed j (linked.inside allocated).1), countP_putEntry free]
    have balance := counted j
    rw [namesInode_count, namesDir_count]
    unfold entryLinks at balance
    grind
  · rw [countP_putEntry (unnamed j (linked.inside (dir_used listed)).1), namesInode_count]
    have single := linked.once j listed
    by_cases here : j = i
    · have none := new (here ▸ listed)
      rw [here, none, if_pos rfl]
      omega
    · rw [if_neg here]
      omega
  · rw [count j (dir_used listed)] at removed
    omega
  · obtain ⟨rank, lower⟩ := linked.depth tidy
    have atop : ∀ j, (x j).type = T_DIR → 0 < x.names j → (x i).type = T_DIR → x.up j ≠ i := by
      intro j listed named nested above
      obtain ⟨e, holder, member, same⟩ := names_elim named
      have up := linked.parent holder.1 holder.2 e member (same ▸ listed)
      rw [same, above] at up
      rw [← up] at member
      have root : i ≠ ROOTINO := by
        intro root
        have parent := parent nested
        rw [root, linked.top] at parent
        exact apart (root.trans parent)
      have zero := linked.bare tidy i nested root (new nested) e member
      exact (linked.inside (dir_used listed)).1 (same ▸ zero)
    by_cases nested : (x i).type = T_DIR
    · refine ⟨Function.update rank i (rank d + 1), fun j listed named => ?_⟩
      rw [count j (dir_used listed)] at named
      by_cases here : j = i
      · rw [here, Function.update_self, parent nested, Function.update_of_ne (Ne.symm apart)]
        exact Nat.lt_succ_self _
      · rw [if_neg here] at named
        have positive : 0 < x.names j := by omega
        rw [Function.update_of_ne here, Function.update_of_ne (atop j listed positive nested)]
        exact lower j listed positive
    · refine ⟨rank, fun j listed named => lower j listed ?_⟩
      rw [count j (dir_used listed), if_neg (fun here : j = i => nested (here ▸ listed))] at named
      omega

/-- An entry is removed and its links are pending. -/
theorem Linked.remove (linked : Linked tidy pending x) (dir : (x d).type = T_DIR) {e : Dirent} {off : Nat}
    (here : (x d).entries[off]? = some e) (behind : 2 ≤ off)
    (empty : tidy → (x e.inum).type = T_DIR → Bare x e.inum) (counted : ∀ j, pending' j = pending j + entryLinks x d e.inum j) :
    Linked tidy pending' (Function.update x d { x d with entries := (x d).entries.set off ⟨0, []⟩ }) := by
  obtain ⟨k, rfl⟩ : ∃ k, off = k + 2 := ⟨off - 2, by omega⟩
  have place : (x.children d)[k]? = some e := by
    unfold Inodes.children
    rw [List.getElem?_drop, Nat.add_comm]
    exact here
  have removed : Function.update x d { x d with entries := (x d).entries.set (k + 2) ⟨0, []⟩ } =
      x.rewrite d ((x.children d).set k ⟨0, []⟩) := by
    obtain ⟨p, old, listed, _⟩ := linked.dots d dir
    unfold Inodes.rewrite Inodes.children
    rw [listed]
    rfl
  have self := (linked.inside (dir_used dir)).1
  have free : namesDir x ⟨0, []⟩ = false := by
    unfold namesDir
    rw [linked.outside 0 (.inl rfl)]
    decide
  have unnamed : ∀ j, j ≠ 0 → namesInode j ⟨0, []⟩ = false := fun j nonzero => decide_eq_false (Ne.symm nonzero)
  rw [removed]
  refine linked.rewrite dir _ (fun f member => ?_) (fun j nonzero unused => ?_) (fun j allocated => ?_) (fun j listed => ?_)
    (fun _ => .inl fun f member => ?_) (fun tidy j listed named removed => ?_) fun tidy => ?_
  · rcases List.mem_or_eq_of_mem_set member with before | rfl
    · exact .inl before
    · refine .inr ⟨Ne.symm self, fun listed => ?_⟩
      exact absurd (linked.outside 0 (.inl rfl)) (dir_used listed)
  · have less := countP_removeEntry place (unnamed j nonzero)
    omega
  · have first := countP_removeEntry place (unnamed j (linked.inside allocated).1)
    have second := countP_removeEntry place free
    have balance := counted j
    rw [namesInode_count] at first
    rw [namesDir_count] at second
    unfold entryLinks at balance
    grind
  · have less := countP_removeEntry place (unnamed j (linked.inside (dir_used listed)).1)
    have single := linked.once j listed
    omega
  · rcases List.mem_or_eq_of_mem_set member with before | rfl
    · exact .inl before
    · exact .inr rfl
  · have less := countP_removeEntry place (unnamed j (linked.inside (dir_used listed)).1)
    rw [namesInode_count] at less
    by_cases same : j = e.inum
    · rw [same] at listed ⊢
      exact empty tidy listed
    · rw [if_neg same] at less
      omega
  · obtain ⟨rank, lower⟩ := linked.depth tidy
    refine ⟨rank, fun j listed named => lower j listed ?_⟩
    have less := countP_removeEntry place (unnamed j (linked.inside (dir_used listed)).1)
    omega

/-- An inode without links is freed. -/
theorem Linked.free (linked : Linked tidy pending x) (used : (x i).type ≠ 0) (unlinked : (x i).nlink = 0)
    (same : ∀ j, pending' j = pending j) :
    Linked tidy pending' (Function.update x i { x i with type := 0, entries := [] }) := by
  have law := linked.law i used
  have notRoot : i ≠ ROOTINO := by
    intro root
    rw [if_pos root] at law
    omega
  have zero : x.names i = 0 ∧ x.subdirs i = 0 := by omega
  let y : Inodes := Function.update x i { x i with type := 0, entries := [] }
  have self : (y i).type = 0 ∧ (y i).nlink = (x i).nlink := by
    show (Function.update x i _ i).type = 0 ∧ (Function.update x i _ i).nlink = _
    rw [Function.update_self]
    exact ⟨rfl, rfl⟩
  have other : ∀ j, j ≠ i → y j = x j := fun j apart => Function.update_of_ne apart ..
  have freed : ∀ j, (y j).type ≠ 0 → j ≠ i := by
    rintro j allocated rfl
    exact allocated self.1
  have children : ∀ j, j ≠ i → y.children j = x.children j ∧ y.up j = x.up j := by
    intro j apart
    unfold Inodes.children Inodes.up
    rw [other j apart]
    exact ⟨rfl, rfl⟩
  have freedIn : ∀ j, y.namesIn j i = 0 := by
    intro j
    unfold Inodes.namesIn
    exact if_neg fun dir => dir_used dir self.1
  have namesIn : ∀ j d, d ≠ i → y.namesIn j d = x.namesIn j d := by
    intro j d apart
    unfold Inodes.namesIn
    rw [other d apart, (children d apart).1]
  have names : ∀ j, y.names j + x.namesIn j i = x.names j := by
    intro j
    have moved := names_update (namesIn j) (linked.inside used).2
    rw [freedIn j] at moved
    omega
  have empty : ∀ j, (x j).type = T_DIR → x.namesIn j i = 0 := by
    intro j listed
    unfold Inodes.namesIn
    by_cases dir : (x i).type = T_DIR
    · have none := zero.2
      unfold Inodes.subdirs at none
      rw [if_pos dir, List.countP_eq_zero] at none
      rw [if_pos dir, List.countP_eq_zero]
      intro e member named
      apply none e member
      rw [show e.inum = j from of_decide_eq_true named]
      exact decide_eq_true listed
    · exact if_neg dir
  have nothing : tidy → ∀ j, j ≠ 0 → x.namesIn j i = 0 := by
    intro tidy j nonzero
    unfold Inodes.namesIn
    by_cases dir : (x i).type = T_DIR
    · rw [if_pos dir, List.countP_eq_zero]
      intro e member named
      apply nonzero
      rw [← show e.inum = j from of_decide_eq_true named]
      exact linked.bare tidy i dir notRoot zero.1 e member
    · exact if_neg dir
  have subdirs : ∀ j, j ≠ i → y.subdirs j = x.subdirs j := by
    intro j apart
    unfold Inodes.subdirs
    rw [other j apart, (children j apart).1]
    by_cases dir : (x j).type = T_DIR
    · rw [if_pos dir, if_pos dir]
      refine List.countP_congr fun e member => ?_
      have target : e.inum ≠ i := by
        intro same
        have positive := names_pos linked dir member
        rw [same] at positive
        omega
      rw [other e.inum target]
    · rw [if_neg dir, if_neg dir]
  show Linked tidy pending' y
  refine ⟨?_, ?_, fun j out => ?_, fun d dir => ?_, fun d dir e member listed => ?_, fun d dir e member => ?_,
    fun j nonzero free => ?_, fun j allocated => ?_, fun j dir => ?_, fun j dir => ?_, fun j => ?_,
    fun tidy j allocated => ?_, fun tidy j dir below none => ?_, fun tidy => ?_⟩
  · rw [other ROOTINO (Ne.symm notRoot)]
    exact linked.root
  · rw [(children ROOTINO (Ne.symm notRoot)).2]
    exact linked.top
  · by_cases here : j = i
    · rw [here]
      exact self.1
    · rw [other j here]
      exact linked.outside j out
  · have apart := freed d (dir_used dir)
    rw [other d apart] at dir ⊢
    exact linked.dots d dir
  · have apart := freed d (dir_used dir)
    have target := freed e.inum (dir_used listed)
    rw [other d apart] at dir
    rw [other e.inum target] at listed
    rw [(children d apart).1] at member
    rw [(children e.inum target).2]
    exact linked.parent d dir e member listed
  · have apart := freed d (dir_used dir)
    rw [other d apart] at dir
    rw [(children d apart).1] at member
    exact linked.apart d dir e member
  · have less := names j
    by_cases here : j = i
    · rw [here] at less ⊢
      omega
    · rw [other j here] at free
      have none := linked.unnamed j nonzero free
      omega
  · have apart := freed j allocated
    rw [other j apart] at allocated ⊢
    have before := linked.law j allocated
    have less := names j
    have nested := subdirs j apart
    have waiting := same j
    omega
  · have apart := freed j (dir_used dir)
    rw [other j apart] at dir ⊢
    have before := linked.exact j dir
    have less := names j
    have none := empty j dir
    have nested := subdirs j apart
    have waiting := same j
    omega
  · have apart := freed j (dir_used dir)
    rw [other j apart] at dir
    have less := names j
    have single := linked.once j dir
    omega
  · by_cases here : j = i
    · rw [here, self.2]
      exact linked.small i
    · rw [other j here]
      exact linked.small j
  · have apart := freed j allocated
    rw [other j apart] at allocated ⊢
    have before := linked.full tidy j allocated
    have less := names j
    have none := nothing tidy j (linked.inside allocated).1
    have nested := subdirs j apart
    have waiting := same j
    omega
  · have apart := freed j (dir_used dir)
    rw [other j apart] at dir
    have less := names j
    have lost := nothing tidy j (linked.inside (dir_used dir)).1
    unfold Bare
    rw [(children j apart).1]
    exact linked.bare tidy j dir below (by omega)
  · obtain ⟨rank, lower⟩ := linked.depth tidy
    refine ⟨rank, fun j dir named => ?_⟩
    have apart := freed j (dir_used dir)
    rw [other j apart] at dir
    have less := names j
    rw [(children j apart).2]
    exact lower j dir (by omega)

/-- A free inode is made a new one. -/
theorem Linked.alloc (linked : Linked tidy pending x) (free : (x i).type = 0) (inside : i ≠ 0 ∧ i < NINODES) {ip : Node}
    (small : ip.nlink < 2 ^ 15)
    (dots : ip.type = T_DIR → ∃ p, p ≠ 0 ∧ ip.entries = [⟨i, dot⟩, ⟨p, dotdot⟩])
    (other : ∀ j, j ≠ i → pending' j = pending j) (counted : (pending' i : Int) = ip.nlink) :
    Linked tidy pending' (Function.update x i ip) := by
  have notRoot : ROOTINO ≠ i := by
    rintro rfl
    exact dir_used linked.root free
  have zero := linked.unnamed i inside.1 free
  let y : Inodes := Function.update x i ip
  have self : y i = ip := Function.update_self ..
  have kept : ∀ j, j ≠ i → y j = x j := fun j apart => Function.update_of_ne apart ..
  have empty : ip.type = T_DIR → y.children i = [] := by
    intro dir
    obtain ⟨p, _, listed⟩ := dots dir
    unfold Inodes.children
    rw [self, listed]
    rfl
  have children : ∀ j, j ≠ i → y.children j = x.children j ∧ y.up j = x.up j := by
    intro j apart
    unfold Inodes.children Inodes.up
    rw [kept j apart]
    exact ⟨rfl, rfl⟩
  have unknown : ∀ d, (x d).type = T_DIR → ∀ e ∈ x.children d, e.inum ≠ i := by
    intro d dir e member same
    have positive := names_pos linked dir member
    rw [same] at positive
    omega
  have new : ∀ d, (y d).type = T_DIR → ∀ e ∈ y.children d, d ≠ i ∧ (x d).type = T_DIR ∧ e ∈ x.children d := by
    intro d dir e member
    by_cases here : d = i
    · rw [here, self] at dir
      rw [here, empty dir] at member
      exact absurd member List.not_mem_nil
    · rw [kept d here] at dir
      rw [(children d here).1] at member
      exact ⟨here, dir, member⟩
  have namesIn : ∀ j d, y.namesIn j d = x.namesIn j d := by
    intro j d
    unfold Inodes.namesIn
    by_cases here : d = i
    · rw [here, self, if_neg (fun dir : (x i).type = T_DIR => dir_used dir free)]
      by_cases dir : ip.type = T_DIR
      · rw [if_pos dir, empty dir]
        rfl
      · rw [if_neg dir]
    · rw [kept d here, (children d here).1]
  have names : ∀ j, y.names j = x.names j := fun j => sum_congr rfl fun d _ => namesIn j d
  have subdirs : ∀ j, y.subdirs j = x.subdirs j := by
    intro j
    unfold Inodes.subdirs
    by_cases here : j = i
    · rw [here, self, if_neg (fun dir : (x i).type = T_DIR => dir_used dir free)]
      by_cases dir : ip.type = T_DIR
      · rw [if_pos dir, empty dir]
        rfl
      · rw [if_neg dir]
    · rw [kept j here, (children j here).1]
      by_cases dir : (x j).type = T_DIR
      · rw [if_pos dir, if_pos dir]
        refine List.countP_congr fun e member => ?_
        rw [kept e.inum (unknown j dir e member)]
      · rw [if_neg dir, if_neg dir]
  have unused : x.subdirs i = 0 := by
    unfold Inodes.subdirs
    rw [if_neg (fun dir : (x i).type = T_DIR => dir_used dir free)]
  show Linked tidy pending' y
  refine ⟨?_, ?_, fun j out => ?_, fun d dir => ?_, fun d dir e member listed => ?_, fun d dir e member => ?_,
    fun j nonzero unallocated => ?_, fun j allocated => ?_, fun j dir => ?_, fun j dir => ?_, fun j => ?_,
    fun tidy j allocated => ?_, fun tidy j dir below none => ?_, fun tidy => ?_⟩
  · rw [kept ROOTINO notRoot]
    exact linked.root
  · rw [(children ROOTINO notRoot).2]
    exact linked.top
  · have apart : j ≠ i := by
      rintro rfl
      exact out.elim inside.1 (Nat.not_le_of_lt inside.2)
    rw [kept j apart]
    exact linked.outside j out
  · by_cases here : d = i
    · rw [here, self] at dir
      obtain ⟨p, nonzero, same⟩ := dots dir
      rw [here, self]
      exact ⟨p, [], same, nonzero⟩
    · rw [kept d here] at dir ⊢
      exact linked.dots d dir
  · obtain ⟨_, before, there⟩ := new d dir e member
    have apart := unknown d before e there
    rw [kept e.inum apart] at listed
    rw [(children e.inum apart).2]
    exact linked.parent d before e there listed
  · obtain ⟨_, before, there⟩ := new d dir e member
    exact linked.apart d before e there
  · rw [names]
    by_cases here : j = i
    · rw [here]
      exact zero
    · rw [kept j here] at unallocated
      exact linked.unnamed j nonzero unallocated
  · rw [names, subdirs]
    by_cases here : j = i
    · rw [here, self, zero, unused, if_neg (Ne.symm notRoot)]
      omega
    · rw [kept j here] at allocated ⊢
      have law := linked.law j allocated
      have waiting := other j here
      omega
  · rw [names, subdirs]
    by_cases here : j = i
    · rw [here, self, zero, unused, if_neg (Ne.symm notRoot)]
      omega
    · rw [kept j here] at dir ⊢
      have law := linked.exact j dir
      have waiting := other j here
      omega
  · rw [names]
    by_cases here : j = i
    · rw [here, zero]
      exact Nat.zero_le 1
    · rw [kept j here] at dir
      exact linked.once j dir
  · by_cases here : j = i
    · rw [here, self]
      exact small
    · rw [kept j here]
      exact linked.small j
  · rw [names, subdirs]
    by_cases here : j = i
    · rw [here, self, zero, unused, if_neg (Ne.symm notRoot)]
      omega
    · rw [kept j here] at allocated ⊢
      have law := linked.full tidy j allocated
      have waiting := other j here
      omega
  · unfold Bare
    by_cases here : j = i
    · rw [here, self] at dir
      rw [here, empty dir]
      exact fun e member => absurd member List.not_mem_nil
    · rw [kept j here] at dir
      rw [names] at none
      rw [(children j here).1]
      exact linked.bare tidy j dir below none
  · obtain ⟨rank, lower⟩ := linked.depth tidy
    refine ⟨rank, fun j dir named => ?_⟩
    rw [names] at named
    by_cases here : j = i
    · rw [here, zero] at named
      exact absurd named (Nat.lt_irrefl 0)
    · rw [kept j here] at dir
      rw [(children j here).2]
      exact lower j dir named

/-! ## Directories -/

/-- The directories in a directory are told apart by their names. -/
theorem countP_namesDir (l : List Dirent) (low : ∀ e ∈ l, (x e.inum).type = T_DIR → e.inum < NINODES) :
    l.countP (namesDir x) = ∑ j ∈ range NINODES, if (x j).type = T_DIR then l.countP (namesInode j) else 0 := by
  induction l with
  | nil =>
    simp
  | cons e rest ih =>
    have later := ih fun f member => low f (List.mem_cons_of_mem e member)
    rw [List.countP_cons, later, namesDir_count]
    have split : ∀ j, (if (x j).type = T_DIR then (e :: rest).countP (namesInode j) else 0) =
        (if (x j).type = T_DIR then rest.countP (namesInode j) else 0) +
          if j = e.inum then (if (x e.inum).type = T_DIR then 1 else 0) else 0 := by
      intro j
      rw [List.countP_cons, namesInode_count]
      grind
    rw [sum_congr rfl fun j _ => split j, sum_add_distrib, sum_ite_eq']
    by_cases dir : (x e.inum).type = T_DIR
    · rw [if_pos dir, if_pos (mem_range.mpr (low e List.mem_cons_self dir))]
    · rw [if_neg dir, ite_self]

/-- The links of a directory are few. -/
theorem Linked.dirLinks (linked : Linked tidy pending x) (dir : (x d).type = T_DIR) (few : pending d ≤ 1) :
    (x d).nlink ≤ NINODES + 3 := by
  have exact := linked.exact d dir
  have once := linked.once d dir
  have nested : x.subdirs d ≤ NINODES := by
    unfold Inodes.subdirs
    rw [if_pos dir]
    show (x.children d).countP (namesDir x) ≤ NINODES
    rw [countP_namesDir _ fun e _ listed => (linked.inside (dir_used listed)).2]
    calc ∑ j ∈ range NINODES, (if (x j).type = T_DIR then (x.children d).countP (namesInode j) else 0)
        ≤ ∑ _ ∈ range NINODES, 1 := by
          refine sum_le_sum fun j _ => ?_
          by_cases listed : (x j).type = T_DIR
          · rw [if_pos listed]
            have single := linked.once j listed
            have member : d ∈ range NINODES := mem_range.mpr (linked.inside (dir_used dir)).2
            have part : x.namesIn j d ≤ x.names j := single_le_sum (fun _ _ => Nat.zero_le _) member
            unfold Inodes.namesIn at part
            rw [if_pos dir] at part
            exact Nat.le_trans part single
          · rw [if_neg listed]
            exact Nat.zero_le 1
      _ = NINODES := by rw [sum_const_nat fun _ _ => rfl, card_range, Nat.mul_one]
  have root : (if d = ROOTINO then 1 else 0) ≤ 1 := by
    split <;> omega
  omega

/-- A directory that has a link besides those that are pending has a name, unless it is the root. -/
theorem Linked.home (linked : Linked tidy pending x) (tidily : tidy) (dir : (x d).type = T_DIR) (more : (pending d : Int) < (x d).nlink) :
    d = ROOTINO ∨ 0 < x.names d := by
  by_contra homeless
  have below : d ≠ ROOTINO := fun root => homeless (.inl root)
  have nameless : x.names d = 0 := by omega
  have bare := linked.bare tidily d dir below nameless
  have none : x.subdirs d = 0 := by
    unfold Inodes.subdirs
    rw [if_pos dir, List.countP_eq_zero]
    intro e member listed
    have zero := linked.outside e.inum (.inl (bare e member))
    exact dir_used (of_decide_eq_true listed) zero
  have full := linked.full tidily d (dir_used dir)
  rw [nameless, none, if_neg below] at full
  omega

end Counting

end Xv6
