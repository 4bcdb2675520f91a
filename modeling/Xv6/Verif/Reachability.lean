import Xv6.Lib.Runs
import Xv6.Verif.NameCalls

/-!
# What has a name

The directories that the names of the root lead to are told apart by the entries that name them, so
the entries that name an inode are at most its links, and an inode that has been freed has no name, as
long as no count wraps around.
-/

namespace Xv6

open Finset

/-! ## The first state -/

section First

variable {files : List Name} {tidy : Prop} {procs : List Nat} {i d : Nat}

/-- The entries that `mkfs` makes of files. -/
def fileEntries (files : List Name) : List Dirent := files.mapIdx fun i name => ⟨i + 2, name⟩

/-- The root of an image. -/
theorem mkfs_root (files : List Name) : ∃ n, mkfs files ROOTINO =
    ⟨T_DIR, 0, 0, 1, ⟨ROOTINO, dot⟩ :: ⟨ROOTINO, dotdot⟩ :: (fileEntries files ++ List.replicate n ⟨0, []⟩)⟩ :=
  ⟨_, rfl⟩

/-- The other inodes of an image. -/
theorem mkfs_other (below : i ≠ ROOTINO) :
    mkfs files i = if 2 ≤ i ∧ i < files.length + 2 then ⟨T_FILE, 0, 0, 1, []⟩ else ⟨0, 0, 0, 0, []⟩ := if_neg below

/-- The inodes that the entries name. -/
theorem fileEntries_inums : (fileEntries files).map Dirent.inum = List.range' 2 files.length := by
  refine List.ext_getElem (by simp [fileEntries]) fun n _ _ => ?_
  simp only [fileEntries, List.getElem_map, List.getElem_mapIdx, List.getElem_range']
  omega

/-- The only directory is the root. -/
theorem mkfs_dir (dir : (mkfs files d).type = T_DIR) : d = ROOTINO := by
  by_contra below
  rw [mkfs_other below] at dir
  split at dir
  · exact absurd dir (by decide)
  · exact absurd dir (by decide)

/-- The children of the root. -/
theorem mkfs_children (files : List Name) : ∃ n, Inodes.children (mkfs files) ROOTINO = fileEntries files ++ List.replicate n ⟨0, []⟩ := by
  obtain ⟨n, root⟩ := mkfs_root files
  refine ⟨n, ?_⟩
  unfold Inodes.children
  rw [root]
  rfl

/-- Every file has one name. -/
theorem mkfs_names (nonzero : i ≠ 0) : Inodes.names (mkfs files) i = if 2 ≤ i ∧ i < files.length + 2 then 1 else 0 := by
  obtain ⟨n, children⟩ := mkfs_children files
  have others : ∀ d ∈ range NINODES, d ≠ ROOTINO → Inodes.namesIn (mkfs files) i d = 0 := fun d _ below =>
    if_neg fun dir => below (mkfs_dir dir)
  have root : (mkfs files ROOTINO).type = T_DIR := rfl
  unfold Inodes.names
  rw [sum_eq_single_of_mem ROOTINO (mem_range.mpr (by decide)) others]
  unfold Inodes.namesIn
  rw [if_pos root, children, List.countP_append, List.countP_replicate]
  have free : decide ((⟨0, []⟩ : Dirent).inum = i) = false := decide_eq_false (Ne.symm nonzero)
  rw [free]
  have counted : (fileEntries files).countP (fun e => e.inum = i) = (List.range' 2 files.length).count i := by
    rw [← fileEntries_inums, List.count, List.countP_map]
    exact List.countP_congr fun e _ => by simp
  rw [counted]
  by_cases inside : 2 ≤ i ∧ i < files.length + 2
  · rw [if_pos inside, List.count_eq_one_of_mem List.nodup_range' (List.mem_range'_1.mpr (by omega))]
    rfl
  · rw [if_neg inside, List.count_eq_zero.mpr fun member => inside (by have := List.mem_range'_1.mp member; omega)]
    rfl

/-- In an image no directory is named. -/
theorem mkfs_subdirs : Inodes.subdirs (mkfs files) d = 0 := by
  unfold Inodes.subdirs
  by_cases dir : (mkfs files d).type = T_DIR
  · rw [if_pos dir, List.countP_eq_zero]
    intro e member listed
    have root := mkfs_dir dir
    have named := mkfs_dir (of_decide_eq_true listed)
    obtain ⟨n, children⟩ := mkfs_children files
    rw [root, children] at member
    rcases List.mem_append.mp member with file | free
    · have inum : e.inum ∈ List.range' 2 files.length := by
        rw [← fileEntries_inums]
        exact List.mem_map_of_mem file
      have low := (List.mem_range'_1.mp inum).1
      rw [named] at low
      exact absurd low (by decide)
    · rw [List.eq_of_mem_replicate free] at named
      exact absurd named (by decide)
  · exact if_neg dir

/-- The links of an image are counted. -/
theorem mkfs_linked (fits : files.length + 2 ≤ NINODES) : Linked tidy settled (mkfs files) := by
  obtain ⟨n, root⟩ := mkfs_root files
  have top : Inodes.up (mkfs files) ROOTINO = ROOTINO := by
    unfold Inodes.up
    rw [root]
    rfl
  have none : ∀ d, (mkfs files d).type = T_DIR → Inodes.names (mkfs files) d = 0 := by
    intro d dir
    rw [mkfs_dir dir, mkfs_names (by decide)]
    exact if_neg fun inside => absurd inside.1 (by decide)
  have links : ∀ i, (mkfs files i).type ≠ 0 → ((Inodes.names (mkfs files) i + Inodes.subdirs (mkfs files) i +
      (if i = ROOTINO then 1 else 0) + settled i : Nat) : Int) = (mkfs files i).nlink := by
    intro i used
    rw [mkfs_subdirs]
    by_cases here : i = ROOTINO
    · rw [here, none ROOTINO rfl]
      rfl
    · rw [mkfs_other here] at used ⊢
      by_cases inside : 2 ≤ i ∧ i < files.length + 2
      · rw [mkfs_names (by omega), if_pos inside, if_pos inside, if_neg here]
        rfl
      · rw [if_neg inside] at used
        exact absurd rfl used
  have entries : ∀ d, (mkfs files d).type = T_DIR → ∀ e ∈ Inodes.children (mkfs files) d, (mkfs files e.inum).type ≠ T_DIR ∧ e.inum ≠ d := by
    intro d dir e member
    have nested : (mkfs files e.inum).type ≠ T_DIR := by
      intro listed
      have zero : Inodes.subdirs (mkfs files) d = 0 := mkfs_subdirs
      unfold Inodes.subdirs at zero
      rw [if_pos dir, List.countP_eq_zero] at zero
      exact zero e member (decide_eq_true listed)
    refine ⟨nested, fun same => nested ?_⟩
    rw [same]
    exact dir
  refine ⟨rfl, top, fun i out => ?_, fun d dir => ?_, fun d dir e member listed => ?_, fun d dir e member => ?_,
    fun i nonzero free => ?_, fun i used => ?_, fun d dir => ?_, fun d dir => ?_, fun i => ?_, fun _ i used => ?_,
    fun _ d dir below _ => ?_, fun _ => ⟨fun _ => 0, fun d dir named => ?_⟩⟩
  · have below : i ≠ ROOTINO := by
      rintro rfl
      exact out.elim (by decide) (by decide)
    rw [mkfs_other below, if_neg (by omega)]
  · rw [mkfs_dir dir]
    exact ⟨ROOTINO, _, congrArg Node.entries root, by decide⟩
  · exact absurd listed (entries d dir e member).1
  · exact (entries d dir e member).2
  · rw [mkfs_names nonzero, if_neg]
    intro inside
    have below : i ≠ ROOTINO := fun here => absurd inside.1 (by rw [here]; decide)
    rw [mkfs_other below, if_pos inside] at free
    exact absurd free (by decide)
  · exact le_of_eq (links i used)
  · exact ge_of_eq (links d (dir_used dir))
  · rw [none d dir]
    exact Nat.zero_le 1
  · by_cases here : i = ROOTINO
    · rw [here]
      exact (by decide : (1 : Int) < 2 ^ 15)
    · rw [mkfs_other here]
      split <;> decide
  · exact ge_of_eq (links i used)
  · exact absurd (mkfs_dir dir) below
  · rw [none d dir] at named
    exact absurd named (Nat.lt_irrefl 0)

/-- A freshly made image is sound. -/
theorem booted_sound (fits : files.length + 2 ≤ NINODES) (distinct : procs.Nodup) : Sound tidy procs settled [] (booted files procs) := by
  have ref : ∀ i, (booted files procs).ref i = if i = ROOTINO then procs.length else 0 := fun _ => rfl
  refine ⟨mkfs_linked fits, ⟨fun i used unlinked => ?_, fun i free => ?_⟩, fun i => ?_, distinct, fun p i current => ?_,
    fun _ _ => rfl, fun f counted => absurd counted (Nat.lt_irrefl 0)⟩
  · change (mkfs files i).type ≠ 0 at used
    change (mkfs files i).nlink = 0 at unlinked
    by_cases here : i = ROOTINO
    · rw [here] at unlinked
      exact absurd (show (1 : Int) = 0 from unlinked) (by decide)
    · rw [mkfs_other here] at used unlinked
      split at used
      · rename_i inside
        rw [if_pos inside] at unlinked
        exact absurd unlinked (by decide)
      · exact absurd rfl used
  · rw [ref i, if_neg]
    rintro rfl
    exact absurd (show T_DIR = 0 from free) (by decide)
  · have none : ((List.range NFILE).countP fun f => 0 < (booted files procs).fileRef f ∧ (booted files procs).fileIp f = some i) = 0 := by
      rw [List.countP_eq_zero]
      intro f _ open_
      exact absurd (of_decide_eq_true open_).1 (Nat.lt_irrefl 0)
    have here : (procs.countP fun p => (booted files procs).cwd p = some i) = if i = ROOTINO then procs.length else 0 := by
      by_cases root : i = ROOTINO
      · rw [if_pos root, List.countP_eq_length]
        intro p member
        rw [root]
        exact decide_eq_true (if_pos member)
      · rw [if_neg root, List.countP_eq_zero]
        intro p member current
        have at_root : (booted files procs).cwd p = some ROOTINO := if_pos member
        rw [at_root] at current
        exact root (Option.some.inj (of_decide_eq_true current)).symm
    unfold Names.holders
    rw [none, here, ref i]
    rfl
  · change (if p ∈ procs then some ROOTINO else none) = some i at current
    by_contra absent
    rw [if_neg absent] at current
    exact nomatch current

/-- Its parents are not free. -/
theorem booted_upward (fits : files.length + 2 ≤ NINODES) : Upward (booted files procs).inode := by
  intro d dir
  have linked : Linked True settled (mkfs files) := mkfs_linked fits
  rw [mkfs_dir dir]
  show (mkfs files (Inodes.up (mkfs files) ROOTINO)).type ≠ 0
  rw [linked.top]
  exact dir_used linked.root

end First

/-! ## Reachable names -/

/-- The names of the root lead to an inode. -/
inductive Names.Reachable (s : Names) : Nat → Prop where
  | root : s.Reachable ROOTINO
  /-- An entry of a directory. -/
  | entry {d : Nat} {e : Dirent} : s.Reachable d → (s.inode d).type = T_DIR → e ∈ (s.inode d).entries → e.inum ≠ 0 → s.Reachable e.inum

open Classical in
/-- The number of entries that name an inode in directories that the root leads to, without `.`. -/
noncomputable def Names.linkCount (s : Names) (i : Nat) : Nat :=
  ∑ d ∈ (range NINODES).filter fun d => s.Reachable d ∧ (s.inode d).type = T_DIR,
    (s.inode d).entries.countP fun e => e.inum = i ∧ e.name ≠ dot

section Counts

variable {tidy : Prop} {pending : Nat → Nat} {s : Names} {i d : Nat}

/-- The names of the root lead to an inode without `.` and `..`. -/
inductive Names.Anchored (s : Names) : Nat → Prop where
  | root : s.Anchored ROOTINO
  /-- An entry behind `.` and `..`. -/
  | child {d : Nat} {e : Dirent} : s.Anchored d → (s.inode d).type = T_DIR → e ∈ Inodes.children s.inode d → s.Anchored e.inum

/-- The parent of an anchored directory is anchored. -/
theorem Linked.parent_anchored (linked : Linked tidy pending s.inode) (anchored : s.Anchored d) (dir : (s.inode d).type = T_DIR) :
    s.Anchored (Inodes.up s.inode d) ∧ (d = ROOTINO ∨ (s.inode (Inodes.up s.inode d)).type = T_DIR ∧
      ∃ e ∈ Inodes.children s.inode (Inodes.up s.inode d), e.inum = d) := by
  cases anchored with
  | root =>
    rw [linked.top]
    exact ⟨.root, .inl rfl⟩
  | child above listed member =>
    rename_i q e
    have up := linked.parent q listed e member dir
    rw [up]
    exact ⟨above, .inr ⟨listed, e, member, rfl⟩⟩

/-- The names `.` and `..` lead nowhere else. -/
theorem Linked.anchored (linked : Linked tidy pending s.inode) (reachable : s.Reachable i) : s.Anchored i := by
  induction reachable with
  | root => exact .root
  | entry _ dir member nonzero ih =>
    rename_i d e _
    obtain ⟨q, rest, listed, _⟩ := linked.dots d dir
    have up : Inodes.up s.inode d = q := by
      unfold Inodes.up
      rw [listed]
      rfl
    have children : Inodes.children s.inode d = rest := by
      unfold Inodes.children
      rw [listed]
      rfl
    rw [listed] at member
    rcases List.mem_cons.mp member with rfl | member
    · exact ih
    rcases List.mem_cons.mp member with rfl | member
    · have above := (linked.parent_anchored ih dir).1
      rw [up] at above
      exact above
    · rw [← children] at member
      exact .child ih dir member

/-- An anchored inode is reachable. -/
theorem Names.Anchored.reachable (anchored : s.Anchored i) (nonzero : i ≠ 0) (sound : Linked tidy pending s.inode) : s.Reachable i := by
  induction anchored with
  | root => exact .root
  | child _ dir member ih =>
    exact .entry (ih (sound.inside (dir_used dir)).1) dir (List.mem_of_mem_drop member) nonzero

/-- The directories below an inode are its subdirectories. -/
theorem Linked.below (linked : Linked tidy pending s.inode) {S : Finset Nat}
    (reachable : ∀ d ∈ S, s.Reachable d ∧ (s.inode d).type = T_DIR) :
    (S.filter fun d => Inodes.up s.inode d = i).card ≤ Inodes.subdirs s.inode i + if i = ROOTINO then 1 else 0 := by
  let kids := if (s.inode i).type = T_DIR then ((Inodes.children s.inode i).filter (namesDir s.inode)).map Dirent.inum else []
  have count : kids.length = Inodes.subdirs s.inode i := by
    show (if _ then _ else _ : List Nat).length = if _ then _ else _
    by_cases dir : (s.inode i).type = T_DIR
    · rw [if_pos dir, if_pos dir, List.length_map, ← List.countP_eq_length_filter]
      rfl
    · rw [if_neg dir, if_neg dir]
      rfl
  have inside : (S.filter fun d => Inodes.up s.inode d = i) ⊆ kids.toFinset ∪ if i = ROOTINO then {ROOTINO} else ∅ := by
    intro d member
    obtain ⟨there, up⟩ := mem_filter.mp member
    obtain ⟨reached, dir⟩ := reachable d there
    obtain ⟨_, root | ⟨listed, e, entry, same⟩⟩ := linked.parent_anchored (linked.anchored reached) dir
    · rw [root, linked.top] at up
      rw [if_pos up.symm, root]
      exact mem_union_right _ (mem_singleton_self _)
    · rw [up] at listed entry
      refine mem_union_left _ (List.mem_toFinset.mpr ?_)
      show d ∈ (if _ then _ else _ : List Nat)
      rw [if_pos listed, ← same]
      refine List.mem_map_of_mem (List.mem_filter.mpr ⟨entry, decide_eq_true ?_⟩)
      rw [same]
      exact dir
  calc (S.filter fun d => Inodes.up s.inode d = i).card
      ≤ (kids.toFinset ∪ if i = ROOTINO then {ROOTINO} else ∅).card := card_le_card inside
    _ ≤ kids.toFinset.card + (if i = ROOTINO then {ROOTINO} else ∅ : Finset Nat).card := card_union_le ..
    _ ≤ Inodes.subdirs s.inode i + if i = ROOTINO then 1 else 0 := by
        refine Nat.add_le_add ?_ ?_
        · rw [← count]
          exact List.toFinset_card_le kids
        · split
          · exact le_refl 1
          · exact le_refl 0

/-- The entries that name an inode are those that are counted. -/
theorem Linked.linkCount_le (linked : Linked tidy pending s.inode) (i : Nat) :
    s.linkCount i ≤ Inodes.names s.inode i + Inodes.subdirs s.inode i + if i = ROOTINO then 1 else 0 := by
  classical
  let S := (range NINODES).filter fun d => s.Reachable d ∧ (s.inode d).type = T_DIR
  have reachable : ∀ d ∈ S, s.Reachable d ∧ (s.inode d).type = T_DIR := fun d member => (mem_filter.mp member).2
  have each : ∀ d ∈ S, ((s.inode d).entries.countP fun e => e.inum = i ∧ e.name ≠ dot) ≤
      Inodes.namesIn s.inode i d + if Inodes.up s.inode d = i then 1 else 0 := by
    intro d member
    have dir := (reachable d member).2
    obtain ⟨q, rest, listed, _⟩ := linked.dots d dir
    have up : Inodes.up s.inode d = q := by
      unfold Inodes.up
      rw [listed]
      rfl
    have children : Inodes.children s.inode d = rest := by
      unfold Inodes.children
      rw [listed]
      rfl
    unfold Inodes.namesIn
    rw [if_pos dir, up, children, listed, List.countP_cons, List.countP_cons]
    dsimp only
    have fewer : (rest.countP fun e => e.inum = i ∧ e.name ≠ dot) ≤ rest.countP fun e => e.inum = i :=
      List.countP_mono_left fun e _ both => decide_eq_true (of_decide_eq_true both).1
    have self : (if decide (d = i ∧ dot ≠ dot) = true then 1 else 0) = 0 := if_neg fun both => (of_decide_eq_true both).2 rfl
    have parent : (if decide (q = i ∧ dotdot ≠ dot) = true then 1 else 0) ≤ if q = i then 1 else 0 := by
      by_cases here : q = i
      · rw [if_pos here]
        split <;> decide
      · rw [if_neg here, if_neg fun both => here (of_decide_eq_true both).1]
    omega
  have inside : ∑ d ∈ S, Inodes.namesIn s.inode i d ≤ Inodes.names s.inode i :=
    sum_le_sum_of_subset (filter_subset _ _)
  have above : ∑ d ∈ S, (if Inodes.up s.inode d = i then 1 else 0) = (S.filter fun d => Inodes.up s.inode d = i).card := by
    rw [card_filter]
  have below := linked.below (i := i) reachable
  calc s.linkCount i
      ≤ ∑ d ∈ S, (Inodes.namesIn s.inode i d + if Inodes.up s.inode d = i then 1 else 0) := sum_le_sum each
    _ = ∑ d ∈ S, Inodes.namesIn s.inode i d + ∑ d ∈ S, (if Inodes.up s.inode d = i then 1 else 0) := sum_add_distrib
    _ ≤ Inodes.names s.inode i + Inodes.subdirs s.inode i + if i = ROOTINO then 1 else 0 := by
        rw [above]
        omega

end Counts

/-! ## Runs -/

section Calls

variable {tidy strict : Prop} {files : List Name} {procs : List Nat} {events : List (Nat × NameCall)} {s : Names} {i : Nat}

/-- A call that makes no count wrap around. -/
def Counts (s : Names) (event : Nat × NameCall) (t : Names) : Prop := ¬s.Overflows event.1 event.2 ∧ s.step event = some t

/-- A call that returns. -/
theorem step_returns {event : Nat × NameCall} {t : Names} (taken : s.step event = some t) :
    ∃ n, s.call event.1 event.2 = .ok (n, t) := by
  unfold Names.step at taken
  by_cases process : (s.cwd event.1).isSome = true
  · rw [if_pos process] at taken
    cases called : s.call event.1 event.2 with
    | ok r =>
      rw [called] at taken
      exact ⟨r.1, congrArg (fun t => Except.ok (r.1, t)) (Option.some.inj taken)⟩
    | error message =>
      rw [called] at taken
      exact nomatch taken
  · rw [if_neg process] at taken
    exact nomatch taken

/-- What every run keeps. -/
theorem run_sound (fits : files.length + 2 ≤ NINODES) (distinct : procs.Nodup)
    (run : Run (fun s event t => Counts s event t ∧ (strict → s.Together event.1 event.2) ∧ (tidy → ¬s.Strays event.1 event.2))
      (booted files procs) events s) : Sound tidy procs settled [] s ∧ (strict → Upward s.inode) := by
  refine run.invariant (fun s => Sound tidy procs settled [] s ∧ (strict → Upward s.inode)) (fun s event t known taken => ?_)
    ⟨booted_sound fits distinct, fun _ => booted_upward fits⟩
  obtain ⟨⟨room, stepped⟩, together, straight⟩ := taken
  obtain ⟨n, returned⟩ := step_returns stepped
  have leaves := (call_leaves known.1 known.2 event.1 event.2 room straight).ok returned
  exact ⟨leaves.1, fun strictly => leaves.2 strictly (together strictly)⟩

/-! ## Links are counted -/

/-- In every run in which no count wraps around, the entries that name an inode are at most its links,
and an inode that is free, as after `iput` has freed it, has no name. -/
theorem links_counted (fits : files.length + 2 ≤ NINODES) (distinct : procs.Nodup) (run : Run Counts (booted files procs) events s) :
    (∀ i, (s.inode i).type ≠ 0 → (s.linkCount i : Int) ≤ (s.inode i).nlink) ∧
      ∀ i, i ≠ 0 → (s.inode i).type = 0 → s.linkCount i = 0 := by
  have sound : Sound False procs settled [] s := by
    have counts : Run (fun s event t => Counts s event t ∧ (False → s.Together event.1 event.2) ∧
        (False → ¬s.Strays event.1 event.2)) (booted files procs) events s :=
      run.mono fun s event t taken => ⟨taken, False.elim, False.elim⟩
    exact (run_sound fits distinct counts).1
  have linked := sound.linked
  refine ⟨fun i used => ?_, fun i nonzero free => ?_⟩
  · have law := linked.law i used
    have counted := linked.linkCount_le i
    omega
  · have counted := linked.linkCount_le i
    have below : i ≠ ROOTINO := by
      rintro rfl
      exact dir_used linked.root free
    have none : Inodes.subdirs s.inode i = 0 := if_neg fun dir => dir_used dir free
    rw [linked.unnamed i nonzero free, none, if_neg below] at counted
    omega

/-- A link to a file. -/
theorem links_counted_link : ∃ s, Run Counts (booted [[102]] [1]) [(1, .link [47, 102] [103])] s ∧
    (∀ i, (s.inode i).type ≠ 0 → (s.linkCount i : Int) ≤ (s.inode i).nlink) ∧ ∀ i, i ≠ 0 → (s.inode i).type = 0 → s.linkCount i = 0 := by
  have returned : ((booted [[102]] [1]).step (1, .link [47, 102] [103])).isSome = true := by decide +kernel
  obtain ⟨s, stepped⟩ := Option.isSome_iff_exists.mp returned
  have room : ¬(booted [[102]] [1]).Overflows 1 (.link [47, 102] [103]) := by
    rintro ⟨ip, last, dp, name, leads, _, full, _⟩
    have resolved : (booted [[102]] [1]).resolve 1 [47, 102] false = some (2, []) := rfl
    rw [resolved] at leads
    cases leads
    exact absurd full (by decide)
  have run : Run Counts (booted [[102]] [1]) [(1, .link [47, 102] [103])] s := .cons ⟨room, stepped⟩ (.nil s)
  exact ⟨s, run, links_counted (by decide) (by decide) run⟩

end Calls

/-! ## A count that wraps around -/

section Wrapping

variable {s t : Names} {ip next n : Nat} {path rest : List UInt8} {name : Name} {parent : Bool}

/-- `iget` of an inode that has a reference. -/
theorem iget_again (counted : 0 < s.ref ip) : s.iget ip = .ok (s.setRef ip (s.ref ip + 1)) := if_pos counted

/-- One element of a path, to an inode that nobody holds. -/
theorem namexLoop_next {fuel off : Nat} (element : skipelem path = some (name, rest)) (counted : 0 < s.ref ip)
    (good : s.valid ip = true) (dir : (s.inode ip).type = T_DIR) (links : (s.inode ip).nlink ≠ 0)
    (inner : (parent && rest.isEmpty) = false) (found : findEntry name (s.inode ip).entries = some (next, off))
    (free : s.ref next = 0) (few : s.cached < NINODE) :
    Names.namexLoop parent (fuel + 1) s ip path =
      Names.namexLoop parent fuel (((s.setRef next 1).setValid next false).setRef ip (s.ref ip - 1)) next rest := by
  have other : ip ≠ next := fun same => by rw [same, free] at counted; exact absurd counted (Nat.lt_irrefl 0)
  have looked : s.dirlookup ip name = .ok (some (next, off), (s.setRef next 1).setValid next false) := by
    unfold Names.dirlookup Names.iget
    rw [if_neg (not_not_intro dir), found]
    dsimp only
    rw [free, if_neg (Nat.lt_irrefl 0), if_neg (Nat.not_le.mpr few)]
    rfl
  have kept : (((s.setRef next 1).setValid next false).iput ip) =
      ((s.setRef next 1).setValid next false).setRef ip (s.ref ip - 1) := by
    rw [iput_keeps (fun frees => links frees.2.1 : ¬((s.setRef next 1).setValid next false).Frees ip)]
    show Names.setRef _ ip (Function.update s.ref next 1 ip - 1) = _
    rw [Function.update_of_ne other]
  rw [Names.namexLoop, element]
  dsimp only
  rw [ilock_valid counted good, except_bind_ok, if_neg (not_not_intro dir), inner, if_neg Bool.false_ne_true, looked,
    except_bind_ok]
  dsimp only
  rw [kept]

/-- The last element of a path. -/
theorem namexLoop_last {fuel : Nat} (element : skipelem path = some (name, [])) (locked : s.ilock ip = .ok t)
    (dir : (t.inode ip).type = T_DIR) : Names.namexLoop true (fuel + 1) s ip path = .ok (some (ip, name), t) := by
  rw [Names.namexLoop, element]
  dsimp only
  rw [locked, except_bind_ok, if_neg (not_not_intro dir)]
  rfl

/-- The name of a link in its directory. -/
def linkName (n : Nat) : Name := [UInt8.ofNat (100 + n / 100), UInt8.ofNat (100 + n % 100)]

/-- The entries of a directory with some of the links. -/
def linkEntries (d : Nat) : Nat → List Dirent
  | 0 => [⟨d, dot⟩, ⟨1, dotdot⟩]
  | n + 1 => putEntry ⟨2, linkName n⟩ (linkEntries d n)

/-- The entries of a root with one file and eight directories. -/
def spreadRoot : List Dirent :=
  ⟨1, dot⟩ :: ⟨1, dotdot⟩ :: ⟨2, [102]⟩ :: (List.range 8).map (fun k => ⟨3 + k, [UInt8.ofNat (48 + k)]⟩) ++ List.replicate 21 ⟨0, []⟩

/-- The calls that make the directories. -/
def mkdirs : List (Nat × NameCall) := (List.range 8).map fun k => (1, .mkdir [UInt8.ofNat (48 + k)])

/-- The file has this many more links, 4096 in each directory. -/
structure Spread (n : Nat) (s : Names) : Prop where
  root : s.inode 1 = ⟨T_DIR, 0, 0, 9, spreadRoot⟩
  file : s.inode 2 = ⟨T_FILE, 0, 0, short (1 + n), []⟩
  /-- The directories. -/
  dirs : ∀ k < 8, s.inode (3 + k) = ⟨T_DIR, 0, 0, 1, linkEntries (3 + k) (min (n - 4096 * k) 4096)⟩
  /-- There are no others. -/
  none : ∀ i < NINODES, i = 0 ∨ 11 ≤ i → (s.inode i).entries = []
  /-- The process holds the root and nothing else. -/
  ref : ∀ i < NINODES, s.ref i = if i = 1 then 1 else 0
  valid : s.valid 1 = true
  /-- The process is in the root. -/
  cwd : s.cwd 1 = some 1

/-- The bytes of a name. -/
theorem linkName_byte {k : Nat} (low : k < 100) : (UInt8.ofNat (100 + k)).toNat = 100 + k := by
  rw [UInt8.toNat_ofNat']
  omega

/-- Different numbers have different names. -/
theorem linkName_injective {m n : Nat} (small : m < 4096) (small' : n < 4096) (same : linkName m = linkName n) : m = n := by
  unfold linkName at same
  simp only [List.cons.injEq, and_true] at same
  obtain ⟨first, second⟩ := same
  have a := congrArg UInt8.toNat first
  have b := congrArg UInt8.toNat second
  rw [linkName_byte (by omega), linkName_byte (by omega)] at a b
  omega

/-- A byte of a name is no slash. -/
theorem linkName_plain {k : Nat} (low : k < 100) : UInt8.ofNat (100 + k) ≠ slash := by
  intro same
  have value := congrArg UInt8.toNat same
  rw [linkName_byte low] at value
  have code : slash.toNat = 47 := rfl
  omega

/-- A name is a path of one element. -/
theorem linkName_skipelem (small : n < 4096) : skipelem (linkName n) = some (linkName n, []) := by
  have first := linkName_plain (k := n / 100) (by omega)
  have second := linkName_plain (k := n % 100) (by omega)
  unfold linkName
  generalize UInt8.ofNat (100 + n / 100) = a at first
  generalize UInt8.ofNat (100 + n % 100) = b at second
  simp [skipelem, first, second, DIRSIZ]

/-- The path of a link. -/
def linkPath (n : Nat) : List UInt8 := UInt8.ofNat (48 + n / 4096) :: slash :: linkName (n % 4096)

/-- Its first element is the name of the directory. -/
theorem linkPath_skipelem (small : n < 32768) :
    skipelem (linkPath n) = some ([UInt8.ofNat (48 + n / 4096)], linkName (n % 4096)) ∧ (linkPath n).head? ≠ some slash := by
  have digit : UInt8.ofNat (48 + n / 4096) ≠ slash := by
    intro same
    have value := congrArg UInt8.toNat same
    rw [UInt8.toNat_ofNat'] at value
    have code : slash.toNat = 47 := rfl
    omega
  have first := linkName_plain (k := n % 4096 / 100) (by omega)
  unfold linkPath linkName
  generalize UInt8.ofNat (48 + n / 4096) = a at digit
  generalize UInt8.ofNat (100 + n % 4096 / 100) = b at first
  refine ⟨by simp [skipelem, digit, first, DIRSIZ], fun same => digit (Option.some.inj same)⟩

/-- The names of the links that have been made. -/
theorem linkEntries_names (d n : Nat) : ∀ e ∈ linkEntries d n, e.name = dot ∨ e.name = dotdot ∨ ∃ k < n, e.name = linkName k := by
  induction n with
  | zero =>
    intro e member
    rcases List.mem_cons.mp member with rfl | rest
    · exact .inl rfl
    · rw [List.mem_singleton.mp rest]
      exact .inr (.inl rfl)
  | succ n ih =>
    intro e member
    rcases mem_putEntry member with rfl | before
    · exact .inr (.inr ⟨n, Nat.lt_succ_self n, rfl⟩)
    · exact (ih e before).imp id (Or.imp id fun ⟨k, low, same⟩ => ⟨k, by omega, same⟩)

/-- There is no entry of a name. -/
theorem findEntry_none {l : List Dirent} (absent : ∀ e ∈ l, e.name ≠ name) : findEntry name l = none := by
  induction l with
  | nil => rfl
  | cons e rest ih =>
    unfold findEntry
    rw [if_neg fun both => absent e List.mem_cons_self both.2, ih fun f member => absent f (List.mem_cons_of_mem e member)]
    rfl

/-- The name of the next link is not there. -/
theorem linkName_absent (d : Nat) (small : n < 4096) : findEntry (linkName n) (linkEntries d n) = none := by
  refine findEntry_none fun e member same => ?_
  rcases linkEntries_names d n e member with here | up | ⟨k, low, other⟩
  · exact absurd (congrArg List.length (here.symm.trans same)) (by simp [linkName, dot])
  · have byte := (List.cons.inj (up.symm.trans same)).1
    have value := congrArg UInt8.toNat byte
    rw [linkName_byte (by omega)] at value
    have low : (46 : UInt8).toNat = 46 := rfl
    omega
  · have equal := linkName_injective (by omega) small (other.symm.trans same)
    omega

/-- The entries that name the file. -/
theorem linkEntries_count {d : Nat} (other : d ≠ 2) (n : Nat) :
    (linkEntries d n).countP (fun e => e.inum = 2 ∧ e.name ≠ dot) = n := by
  induction n with
  | zero => simp [linkEntries, other]
  | succ n ih =>
    unfold linkEntries
    rw [countP_putEntry fun e zero => decide_eq_false fun both => absurd (zero.symm.trans both.1) (by decide), ih]
    have named : linkName n ≠ dot := fun same => absurd (congrArg List.length same) (by simp [linkName, dot])
    rw [if_pos (decide_eq_true ⟨rfl, named⟩)]

/-- Few inodes are in memory. -/
theorem cached_few (held : ∀ i < NINODES, 0 < s.ref i → i = 1 ∨ i = 2) : s.cached < NINODE := by
  have bound : s.cached ≤ (List.range NINODES).countP fun i => i = 1 ∨ i = 2 := by
    refine List.countP_mono_left fun i member positive => ?_
    exact decide_eq_true (held i (List.mem_range.mp member) (of_decide_eq_true positive))
  have two : ((List.range NINODES).countP fun i => i = 1 ∨ i = 2) = 2 := by decide +kernel
  rw [two] at bound
  exact Nat.lt_of_le_of_lt bound (by decide)

/-- One element of a path, from the root to an inode that nobody holds. -/
theorem namexLoop_root {fuel off : Nat} (root : s.inode 1 = ⟨T_DIR, 0, 0, 9, spreadRoot⟩) (valid : s.valid 1 = true)
    (held : ∀ i < NINODES, i ≠ 1 → i ≠ 2 → s.ref i = 0) (element : skipelem path = some (name, rest))
    (inner : (parent && rest.isEmpty) = false) (found : findEntry name spreadRoot = some (next, off)) (other : next ≠ 1)
    (free : s.ref next = 0) : Names.namexLoop parent (fuel + 1) (s.setRef 1 2) 1 path =
      Names.namexLoop parent fuel ((((s.setRef 1 2).setRef next 1).setValid next false).setRef 1 1) next rest := by
  have few : (s.setRef 1 2).cached < NINODE := cached_few fun i inside positive => by
    by_contra outside
    rw [not_or] at outside
    change 0 < Function.update s.ref 1 2 i at positive
    rw [Function.update_of_ne outside.1, held i inside outside.1 outside.2] at positive
    exact absurd positive (Nat.lt_irrefl 0)
  have entry : findEntry name (s.inode 1).entries = some (next, off) := by rw [root]; exact found
  refine namexLoop_next (s := s.setRef 1 2) element (show 0 < (s.setRef 1 2).ref 1 from Nat.two_pos) valid
    (congrArg Node.type root) ?_ inner entry ((Function.update_of_ne other _ _).trans free) few
  show (s.inode 1).nlink ≠ 0
  rw [root]
  decide

/-- The first reader of an inode loads it. -/
theorem ilock_loads {i : Nat} (counted : s.ref i = 1) (invalid : s.valid i = false) (used : (s.inode i).type ≠ 0) :
    s.ilock i = .ok (s.setValid i true) := by
  unfold Names.ilock
  rw [counted, if_neg Nat.one_ne_zero, invalid, if_neg Bool.false_ne_true, if_neg used]

/-- One more link. -/
theorem Spread.link (spread : Spread n s) (small : n < 32767) :
    ∃ t, s.step (1, .link [47, 102] (linkPath n)) = some t ∧ Spread (n + 1) t := by
  obtain ⟨k, low, which⟩ : ∃ k < 8, n / 4096 = k := ⟨n / 4096, by omega, rfl⟩
  let d := 3 + k
  have one : d ≠ 1 := by omega
  have two : d ≠ 2 := by omega
  have below : d < NINODES := Nat.lt_trans (Nat.add_lt_add_left low 3) (by decide)
  have ref1 : s.ref 1 = 1 := spread.ref 1 (by decide)
  have ref2 : s.ref 2 = 0 := spread.ref 2 (by decide)
  have refd : s.ref d = 0 := (spread.ref d below).trans (if_neg one)
  have file : (s.inode 2).type = T_FILE := congrArg Node.type spread.file
  have full : min (n - 4096 * k) 4096 = n % 4096 := by omega
  have target : s.inode d = ⟨T_DIR, 0, 0, 1, linkEntries d (n % 4096)⟩ := by
    rw [← full]
    exact spread.dirs k low
  have free : ∀ i < NINODES, i ≠ 1 → s.ref i = 0 := fun i inside other => (spread.ref i inside).trans (if_neg other)
  -- the walk to the file
  let s1 := ((((s.setRef 1 2).setRef 2 1).setValid 2 false).setRef 1 1)
  have found : s.namex 1 [47, 102] false = .ok (some (2, []), s1) := by
    have again : s.iget ROOTINO = .ok (s.setRef 1 2) := by
      rw [iget_again (show 0 < s.ref ROOTINO from ref1.symm ▸ Nat.one_pos), show s.ref ROOTINO = 1 from ref1]
      rfl
    unfold Names.namex Names.start
    rw [if_pos (show [(47 : UInt8), 102].head? = some slash from rfl), again]
    exact (namexLoop_root spread.root spread.valid (fun i inside first _ => free i inside first)
      (show skipelem [47, 102] = some ([102], []) from rfl) rfl (show findEntry [102] spreadRoot = some (2, 2) from rfl)
      (by decide) ref2).trans rfl
  -- the link is counted
  let s2 := (s1.setValid 2 true).addLink 2 1
  have locked : s1.ilock 2 = .ok (s1.setValid 2 true) := by
    refine ilock_loads rfl rfl ?_
    rw [show (s1.inode 2).type = T_FILE from file]
    decide
  have plain : ¬((s1.setValid 2 true).inode 2).type = T_DIR := by
    rw [show ((s1.setValid 2 true).inode 2).type = T_FILE from file]
    decide
  have others : ∀ {i}, i ≠ 2 → s2.inode i = s.inode i := fun other => Function.update_of_ne other _ _
  have rooted : s2.inode 1 = ⟨T_DIR, 0, 0, 9, spreadRoot⟩ := (others (by decide)).trans spread.root
  have refs2 : ∀ i, i ≠ 1 → i ≠ 2 → s2.ref i = s.ref i := by
    intro i first second
    show Function.update (Function.update (Function.update s.ref 1 2) 2 1) 1 1 i = _
    rw [Function.update_of_ne first, Function.update_of_ne second, Function.update_of_ne first]
  -- the walk to the directory
  let name := linkName (n % 4096)
  let s3 := (((s2.setRef 1 2).setRef d 1).setValid d false).setRef 1 1
  let s4 := s3.setValid d true
  have target4 : s4.inode d = ⟨T_DIR, 0, 0, 1, linkEntries d (n % 4096)⟩ := (others two).trans target
  have counted : s4.ref d = 1 := (Function.update_of_ne one _ _).trans (Function.update_self ..)
  have entered : s3.ilock d = .ok s4 := by
    refine ilock_loads counted (Function.update_self ..) ?_
    rw [show s3.inode d = _ from target4]
    exact (by decide : T_DIR ≠ 0)
  have parent : s2.namex 1 (linkPath n) true = .ok (some (d, name), s4) := by
    obtain ⟨element, relative⟩ := linkPath_skipelem (show n < 32768 by omega)
    have entry : findEntry [UInt8.ofNat (48 + n / 4096)] spreadRoot = some (d, d) := by
      rw [which]
      exact (by decide : ∀ k < 8, findEntry [UInt8.ofNat (48 + k)] spreadRoot = some (3 + k, 3 + k)) k low
    unfold Names.namex Names.start
    rw [if_neg relative, show s2.cwd 1 = some 1 from spread.cwd]
    exact (namexLoop_root rooted spread.valid (fun i inside first second => (refs2 i first second).trans (free i inside first))
      element rfl entry one ((refs2 d one two).trans refd)).trans
        (namexLoop_last (linkName_skipelem (Nat.mod_lt n (by decide))) entered (congrArg Node.type target4))
  -- the entry
  have written : s4.dirlink d name 2 = .ok (true, s4.setEntries d (putEntry ⟨2, name⟩ (s4.inode d).entries)) := by
    refine dirlink_absent (congrArg Node.type target4) ?_ 2
    rw [target4]
    exact linkName_absent d (Nat.mod_lt n (by decide))
  let t := ((s4.setEntries d (putEntry ⟨2, name⟩ (s4.inode d).entries)).setRef d 0).setRef 2 0
  have links : ∀ i, t.inode i = if i = d then ⟨T_DIR, 0, 0, 1, linkEntries d (n % 4096 + 1)⟩
      else if i = 2 then ⟨T_FILE, 0, 0, short (1 + (n + 1 : Nat)), []⟩ else s.inode i := by
    intro i
    by_cases here : i = d
    · rw [if_pos here, here]
      show Function.update s4.inode d { s4.inode d with entries := putEntry ⟨2, name⟩ (s4.inode d).entries } d = _
      rw [Function.update_self, target4]
      rfl
    · rw [if_neg here]
      refine (show t.inode i = s2.inode i from Function.update_of_ne here _ _).trans ?_
      by_cases second : i = 2
      · rw [if_pos second, second]
        show Function.update s.inode 2 { s.inode 2 with nlink := short ((s.inode 2).nlink + 1) } 2 = _
        rw [Function.update_self, spread.file]
        have more : short (short (1 + (n : Int)) + 1) = short (1 + ((n + 1 : Nat) : Int)) := by
          unfold short
          omega
        dsimp only
        rw [more]
      · rw [if_neg second]
        exact others second
  have final : ((s4.setEntries d (putEntry ⟨2, name⟩ (s4.inode d).entries)).iput d).iput 2 = t := by
    have keptd : ¬(s4.setEntries d (putEntry ⟨2, name⟩ (s4.inode d).entries)).Frees d := by
      intro frees
      have zero : (t.inode d).nlink = 0 := frees.2.1
      rw [links, if_pos rfl] at zero
      exact absurd (show (1 : Int) = 0 from zero) (by decide)
    have kept2 : ¬((s4.setEntries d (putEntry ⟨2, name⟩ (s4.inode d).entries)).setRef d 0).Frees 2 := by
      intro frees
      have zero : (t.inode 2).nlink = 0 := frees.2.1
      rw [links, if_neg two.symm, if_pos rfl] at zero
      change short (1 + ((n + 1 : Nat) : Int)) = 0 at zero
      unfold short at zero
      omega
    have refd4 : (s4.setEntries d (putEntry ⟨2, name⟩ (s4.inode d).entries)).ref d - 1 = 0 := by
      rw [show (s4.setEntries d (putEntry ⟨2, name⟩ (s4.inode d).entries)).ref d = 1 from counted]
    have ref24 : ((s4.setEntries d (putEntry ⟨2, name⟩ (s4.inode d).entries)).setRef d 0).ref 2 - 1 = 0 := by
      show Function.update (Function.update (Function.update (Function.update s2.ref 1 2) d 1) 1 1) d 0 2 - 1 = 0
      rw [Function.update_of_ne two.symm, Function.update_of_ne (by decide), Function.update_of_ne two.symm]
      rfl
    rw [iput_keeps keptd, refd4, iput_keeps kept2, ref24]
  refine ⟨t, ?_, ?_⟩
  · have called : s.sysLink 1 [47, 102] (linkPath n) = .ok (0, t) := by
      unfold Names.sysLink
      rw [found, except_bind_ok]
      dsimp only
      rw [locked, except_bind_ok, if_neg plain]
      unfold Names.linkTo
      rw [parent, except_bind_ok]
      dsimp only
      rw [ilock_valid (counted.symm ▸ Nat.one_pos) (Function.update_self ..), except_bind_ok, written, ← final]
      rfl
    unfold Names.step
    rw [show s.cwd 1 = some 1 from spread.cwd, show s.call 1 (.link [47, 102] (linkPath n)) = .ok (0, t) from called]
    rfl
  · refine ⟨?_, ?_, fun j inside => ?_, fun i inside high => ?_, fun i inside => ?_, ?_, spread.cwd⟩
    · rw [links, if_neg one.symm, if_neg (by decide), spread.root]
    · rw [links, if_neg two.symm, if_pos rfl]
    · rw [links]
      by_cases here : j = k
      · rw [here, if_pos rfl, show min (n + 1 - 4096 * k) 4096 = n % 4096 + 1 by omega]
      · rw [if_neg (by omega), if_neg (by omega), spread.dirs j inside]
        have same : min (n + 1 - 4096 * j) 4096 = min (n - 4096 * j) 4096 := by omega
        rw [same]
    · rw [links, if_neg (by omega), if_neg (by omega), spread.none i inside high]
    · show Function.update (Function.update (Function.update (Function.update (Function.update s2.ref 1 2) d 1) 1 1) d 0) 2 0 i = _
      by_cases second : i = 2
      · rw [second]
        rfl
      · rw [Function.update_of_ne second]
        by_cases here : i = d
        · rw [here, Function.update_self, if_neg one]
        · rw [Function.update_of_ne here]
          by_cases first : i = 1
          · rw [first]
            rfl
          · rw [Function.update_of_ne first, Function.update_of_ne here, Function.update_of_ne first, refs2 i first second,
              spread.ref i inside]
    · show Function.update (Function.update (Function.update (Function.update s.valid 2 false) 2 true) d false) d true 1 = true
      rw [Function.update_of_ne one.symm, Function.update_of_ne one.symm, Function.update_of_ne (by decide),
        Function.update_of_ne (by decide)]
      exact spread.valid

/-- The directories are made. -/
theorem spread_first : ∃ s, Run (fun s event t => Names.step s event = some t) (booted [[102]] [1]) mkdirs s ∧ Spread 0 s := by
  have executed : ((Run.exec Names.step mkdirs (booted [[102]] [1])).any fun s => decide (
      (s.inode 1 = ⟨T_DIR, 0, 0, 9, spreadRoot⟩ ∧ s.inode 2 = ⟨T_FILE, 0, 0, 1, []⟩) ∧
      (∀ k < 8, s.inode (3 + k) = Node.mk T_DIR 0 0 1 (linkEntries (3 + k) 0)) ∧
      (∀ i < NINODES, (i = 0 ∨ 11 ≤ i → (s.inode i).entries = []) ∧ s.ref i = if i = 1 then 1 else 0) ∧
      s.valid 1 = true ∧ s.cwd 1 = some 1)) = true := by
    decide +kernel
  obtain ⟨s, last, holds⟩ := (Option.any_eq_true ..).mp executed
  obtain ⟨⟨root, file⟩, dirs, rest, valid, cwd⟩ := of_decide_eq_true holds
  refine ⟨s, Run.of_exec last, root, file, fun k low => ?_, fun i inside => (rest i inside).1, fun i inside => (rest i inside).2,
    valid, cwd⟩
  rw [dirs k low, Nat.zero_sub, Nat.zero_min]

/-- The links are made one by one. -/
theorem spread_run (small : n ≤ 32767) :
    ∃ events s, Run (fun s event t => Names.step s event = some t) (booted [[102]] [1]) events s ∧ Spread n s := by
  induction n with
  | zero =>
    obtain ⟨s, run, spread⟩ := spread_first
    exact ⟨mkdirs, s, run, spread⟩
  | succ n ih =>
    obtain ⟨events, s, run, spread⟩ := ih (by omega)
    obtain ⟨t, taken, next⟩ := spread.link (by omega)
    exact ⟨_, t, run.snoc taken, next⟩

/-- An entry more at most. -/
theorem putEntry_length (de : Dirent) (l : List Dirent) : (putEntry de l).length ≤ l.length + 1 := by
  induction l with
  | nil => exact Nat.le_refl 1
  | cons e rest ih =>
    unfold putEntry
    split
    · exact Nat.le_succ _
    · exact Nat.succ_le_succ ih

/-- The directories are not long. -/
theorem Spread.short (spread : Spread n s) {i : Nat} (inside : i < NINODES) : (s.inode i).entries.length ≤ 4098 := by
  have each : ∀ d n, (linkEntries d n).length ≤ n + 2 := by
    intro d n
    induction n with
    | zero => exact Nat.le_refl _
    | succ n ih => exact Nat.le_trans (putEntry_length _ _) (Nat.succ_le_succ ih)
  by_cases high : i = 0 ∨ 11 ≤ i
  · rw [spread.none i inside high]
    exact Nat.zero_le _
  · by_cases dir : 3 ≤ i
    · obtain ⟨k, rfl⟩ := Nat.exists_eq_add_of_le dir
      rw [spread.dirs k (by omega)]
      exact Nat.le_trans (each _ _) (Nat.add_le_add_right (Nat.min_le_right _ _) 2)
    · by_cases root : i = 1
      · rw [root, spread.root]
        decide
      · rw [show i = 2 by omega, spread.file]
        exact Nat.zero_le _

/-- The entries that name the file. -/
theorem Spread.count (spread : Spread n s) (small : n ≤ 32767) : n + 1 ≤ s.linkCount 2 := by
  classical
  have dirs : ∀ k < 8, s.Reachable (3 + k) := by
    intro k low
    have member : (⟨3 + k, [UInt8.ofNat (48 + k)]⟩ : Dirent) ∈ (s.inode ROOTINO).entries := by
      rw [show s.inode ROOTINO = _ from spread.root]
      exact (by decide : ∀ k < 8, (⟨3 + k, [UInt8.ofNat (48 + k)]⟩ : Dirent) ∈ spreadRoot) k low
    have nonzero : 3 + k ≠ 0 := by omega
    exact .entry .root (congrArg Node.type spread.root) member nonzero
  let named := fun d => (s.inode d).entries.countP fun e => e.inum = 2 ∧ e.name ≠ dot
  have sub : insert 1 ((range 8).image (3 + ·)) ⊆
      (range NINODES).filter fun d => s.Reachable d ∧ (s.inode d).type = T_DIR := by
    intro d member
    rcases mem_insert.mp member with rfl | inside
    · exact mem_filter.mpr ⟨mem_range.mpr (by decide), .root, congrArg Node.type spread.root⟩
    · obtain ⟨k, low, rfl⟩ := mem_image.mp inside
      have low := mem_range.mp low
      have below : 3 + k < NINODES := Nat.lt_trans (Nat.add_lt_add_left low 3) (by decide)
      exact mem_filter.mpr ⟨mem_range.mpr below, dirs k low, congrArg Node.type (spread.dirs k low)⟩
  have root : named 1 = 1 := by
    show (s.inode 1).entries.countP _ = 1
    rw [spread.root]
    decide
  have each : ∀ k ∈ range 8, named (3 + k) = min (n - 4096 * k) 4096 := by
    intro k low
    show (s.inode (3 + k)).entries.countP _ = _
    rw [spread.dirs k (mem_range.mp low), linkEntries_count (by omega)]
  calc n + 1 = named 1 + ∑ k ∈ range 8, named (3 + k) := by
        rw [root, sum_congr rfl each]
        simp only [sum_range_succ, sum_range_zero]
        omega
    _ = ∑ d ∈ insert 1 ((range 8).image (3 + ·)), named d := by
        rw [sum_insert (by decide), sum_image fun _ _ _ _ same => Nat.add_left_cancel same]
    _ ≤ s.linkCount 2 := sum_le_sum_of_subset sub

/-- A file with more names than its count says, in directories that are not long. -/
theorem links_wrap : ∃ events s, Run (fun s event t => Names.step s event = some t) (booted [[102]] [1]) events s ∧
    (∀ d < NINODES, (s.inode d).entries.length ≤ 4098) ∧
    (s.inode 2).type ≠ 0 ∧ (s.inode 2).nlink = -32768 ∧ 32768 ≤ s.linkCount 2 := by
  obtain ⟨events, s, run, spread⟩ := spread_run (n := 32767) (Nat.le_refl _)
  refine ⟨events, s, run, fun d => spread.short, ?_, ?_, spread.count (Nat.le_refl _)⟩
  · rw [spread.file]
    decide
  · rw [spread.file]
    rfl

end Wrapping

end Xv6
