import Xv6.Verif.Dirents
import Xv6.Verif.Survival

/-!
# Directories over the buffer cache

Runs of `dirlink` and of removals on one directory of the machine, with commits and the cache
traffic of other processes between them and before every request. While the directory ends within
the direct and single indirect ranges nothing is lost, and it is a finite map. Past them `bmap`
does not pass the index block it fills to `log_write`, so a new entry can be lost.
-/

namespace Xv6

open Program

variable {ι π : Type}

namespace DirectoryCall

/-- The code of a call on a directory. -/
def code (sb : Superblock) (devsw : Devsw) (dp : Inode) : DirectoryCall → Kernel (Inode × Int)
  | link name inum _ => dirlink sb devsw dp name inum
  | remove name _ => unlinkDirent sb devsw dp name

/-- Its result. -/
def result : DirectoryCall → Int
  | link _ _ result => result
  | remove _ result => result

/-- An inode number that is linked is a positive `ushort`. -/
def Valid : DirectoryCall → Prop
  | link _ inum _ => 1 ≤ inum ∧ inum ≤ 65535
  | remove _ _ => True

end DirectoryCall

/-- What happens to a mounted file system with a directory. -/
inductive DirectoryEvent (ι : Type) where
  /-- A call on the directory that returned. -/
  | call (call : DirectoryCall)
  /-- Transactions, commits and the cache traffic of others. -/
  | mount (event : MountEvent ι)

/-- What an event does to a finite map. -/
def mapEvent (m : Name → Option Nat) (event : DirectoryEvent ι) (m' : Name → Option Nat) : Prop :=
  match event with
  | .call taken => mapStep m taken m'
  | .mount _ => m' = m

/-- The bytes of a file. -/
def Mounted.content (s : Mounted ι π) (k : ι) : List UInt8 :=
  bytesAt (s.inodes k) s.machine.contents 0 (s.inodes k).size

section Steps

variable [DecidableEq ι] [DecidableEq π]

/-- One event, with calls on the directory `k`. Others use the cache between events and before every
request of a call. -/
inductive directoryStep (sb : Superblock) (devsw : Devsw) (p : π) (k : ι) :
    Mounted ι π → DirectoryEvent ι → Mounted ι π → Prop where
  /-- A call on the directory. -/
  | call {s : Mounted ι π} {call : DirectoryCall} {ip : Inode} {m : Machine π} :
      call.Valid →
        RunsAmid (Machine.handler p) OthersAct (call.code sb devsw (s.inodes k)) s.machine
          (ip, call.result) m →
          directoryStep sb devsw p k s (.call call) ⟨Function.update s.inodes k ip, m⟩
  /-- Any other event. -/
  | mount {s t : Mounted ι π} {event : MountEvent ι} :
      mountStep sb p s event t → (∀ call, event ≠ .bmap call) → directoryStep sb devsw p k s (.mount event) t

/-- A new name is linked only where the directory has room for its entry in the direct and single
indirect ranges. -/
def Fits (s : Mounted ι π) (k : ι) : DirectoryEvent ι → Prop
  | .call (.link name _ _) =>
    findEntry (cut name DIRSIZ) (dirents (s.content k)) ≠ none ∨ HasRoom (s.content k)
  | _ => True

/-- A step that keeps to these ranges. -/
def fittingStep (sb : Superblock) (devsw : Devsw) (p : π) (k : ι) (s : Mounted ι π) (event : DirectoryEvent ι)
    (t : Mounted ι π) : Prop :=
  directoryStep sb devsw p k s event t ∧ Fits s k event

end Steps

/-! ## The invariant -/

section Invariant

variable {sb : Superblock} {nmeta : Nat} {devsw : Devsw} {p : π} {k : ι} {s t : Mounted ι π}
  {content : List UInt8} {m : Name → Option Nat}

/-- A directory in a coherent file system, with the map it stands for. -/
structure DirectoryStands (sb : Superblock) (nmeta : Nat) (k : ι) (s : Mounted ι π) (m : Name → Option Nat) :
    Prop where
  standing : Standing sb nmeta s
  /-- The directory is the map. -/
  directory : IsDirectory sb nmeta s.view k (s.content k) m

/-- A stored file is its content. -/
theorem Stores.content_eq (stores : Stores s.view k content) : s.content k = content := by
  have size : (s.inodes k).size = content.length := stores.size
  unfold Mounted.content
  rw [size]
  have slice : bytesAt (s.inodes k) s.view.store.blocks 0 content.length = _ := stores.slice (by omega)
  rw [List.drop_zero, List.take_length] at slice
  exact slice

/-- A directory stands with the content it has. -/
theorem DirectoryStands.of_content (standing : Standing sb nmeta s)
    (directory : IsDirectory sb nmeta s.view k content m) : DirectoryStands sb nmeta k s m := by
  refine ⟨standing, ?_⟩
  rw [directory.stores.content_eq]
  exact directory

/-- A file is stored in the same blocks while these are not disturbed. -/
theorem Stores.undisturbed (layout : Layout sb nmeta) (owned : Owned sb nmeta s.inodes s.machine.contents)
    (same : Undisturbed sb s t) (stores : Stores s.view k content) : Stores t.view k content := by
  have place : ∀ bn, bn < MAXFILE → t.view.mapped k bn = s.view.mapped k bn := fun bn inside =>
    (same.owned layout owned).2 _ _ (position_inTree k inside).1
  refine ⟨?_, stores.short, ?_⟩
  · show (t.inodes k).size = _
    rw [same.inodes]
    exact stores.size
  · intro i inside
    have block := stores.block_lt inside
    obtain ⟨occupied, byte⟩ := stores.bytes i inside
    have high := (owned.data_area _ _ (position_inTree k block).1 occupied).1
    have kept : t.view.store.blocks (s.view.mapped k (i / BSIZE)) =
        s.view.store.blocks (s.view.mapped k (i / BSIZE)) := same.contents _ (layout.inodes_low.2.trans high)
    rw [fileByte_eq, place _ block, kept, ← fileByte_eq]
    exact ⟨occupied, byte⟩

/-- Events other than calls keep the directory. -/
theorem DirectoryStands.undisturbed (layout : Layout sb nmeta) (before : DirectoryStands sb nmeta k s m)
    (standing : Standing sb nmeta t) (same : Undisturbed sb s t) : DirectoryStands sb nmeta k t m := by
  have directory := before.directory
  have inode : t.view.inodes k = s.view.inodes k := congrFun same.inodes k
  suffices after : IsDirectory sb nmeta t.view k (s.content k) m from .of_content standing after
  refine ⟨standing.owned, ?_, ?_, directory.stores.undisturbed layout before.standing.owned same, directory.whole,
    directory.distinct, directory.binds, directory.shallow⟩
  · rw [inode]
    exact directory.numbered
  · rw [inode]
    exact directory.dir

/-- The binding of a name decides what is found among the entries. -/
theorem DirectoryStands.bound_iff (before : DirectoryStands sb nmeta k s m) (name : Name) :
    findEntry name (dirents (s.content k)) = none ↔ m name = none := by
  have found := before.directory.findEntry name
  cases bound : m name with
  | none =>
    rw [bound] at found
    exact ⟨fun _ => rfl, fun _ => found⟩
  | some inum =>
    rw [bound] at found
    obtain ⟨i, here, _⟩ := found
    rw [here]
    exact ⟨nofun, nofun⟩

variable [DecidableEq ι] [DecidableEq π]

/-- What a call leaves is what it leaves on the machine's own store. -/
theorem DirectoryStands.amid (layout : Layout sb nmeta) (before : DirectoryStands sb nmeta k s m)
    {code : Kernel (Inode × Int)} {r : Int} {m' : Name → Option Nat} {halt : Stop → Prop}
    (spec : wp (Store.handler (recording true)) code
      (fun result store => (result.2 = r ∧ ∃ content', IsDirectory sb nmeta
        ⟨Function.update s.inodes k result.1, store⟩ k content' m') ∧ Recorded sb true s.view.store store)
      halt s.view.store) (recorded : ∀ b, ¬halt (.unrecorded b)) {ip : Inode} {result : Int} {machine : Machine π}
    (amid : RunsAmid (Machine.handler p) OthersAct code s.machine (ip, result) machine) :
    result = r ∧ DirectoryStands sb nmeta k ⟨Function.update s.inodes k ip, machine⟩ m' := by
  obtain ⟨store, implements, ⟨value, content', directory⟩, kept⟩ := before.standing.amid spec recorded amid
  obtain ⟨standing, contents⟩ := before.standing.recorded layout amid implements kept directory.owned
  have owned := standing.owned
  have stores : Stores (Mounted.view ⟨Function.update s.inodes k ip, machine⟩) k content' :=
    directory.stores.congr rfl rfl contents
  have after : IsDirectory sb nmeta (Mounted.view ⟨Function.update s.inodes k ip, machine⟩) k content' m' :=
    ⟨owned, directory.numbered, directory.dir, stores, directory.whole, directory.distinct, directory.binds,
      directory.shallow⟩
  exact ⟨value, .of_content standing after⟩

/-- A call that changes nothing does so on the machine. -/
theorem DirectoryStands.unchanged (layout : Layout sb nmeta) (before : DirectoryStands sb nmeta k s m)
    {code : Kernel (Inode × Int)} {r : Int}
    (spec : wp (Store.handler (recording true)) code
      (fun result store => result = (s.inodes k, r) ∧ store = s.view.store) (fun _ => False) s.view.store)
    {ip : Inode} {result : Int} {machine : Machine π}
    (amid : RunsAmid (Machine.handler p) OthersAct code s.machine (ip, result) machine) :
    result = r ∧ DirectoryStands sb nmeta k ⟨Function.update s.inodes k ip, machine⟩ m := by
  refine before.amid layout (wp_mono spec ?_ fun _ impossible => impossible) (fun _ (impossible : False) => impossible) amid
  rintro _ store ⟨rfl, rfl⟩
  refine ⟨⟨rfl, s.content k, ?_⟩, .refl sb true _⟩
  have same : Function.update s.inodes k (s.inodes k) = s.inodes := Function.update_eq_self _ _
  simp only [same]
  exact before.directory

/-- Every event that keeps to the direct and single indirect ranges does to the directory what it
does to the map. -/
theorem fittingStep_refines (layout : Layout sb nmeta) (before : DirectoryStands sb nmeta k s m)
    {event : DirectoryEvent ι} (step : fittingStep sb devsw p k s event t) :
    ∃ m', mapEvent m event m' ∧ DirectoryStands sb nmeta k t m' := by
  obtain ⟨taken, fits⟩ := step
  have settled : Settled true s.view.store := fun _ _ => rfl
  cases taken with
  | mount taken quiet =>
    obtain ⟨standing, same⟩ := quiet_standing layout before.standing taken quiet
    exact ⟨m, rfl, before.undisturbed layout standing same⟩
  | @call call ip machine valid amid =>
    cases call with
    | link name inum result =>
      simp only [mapEvent, mapStep]
      by_cases bound : m (cut name DIRSIZ) = none
      · have room := fits.resolve_left fun here => here ((before.bound_iff _).mpr bound)
        have spec := dirlink_unbound devsw layout before.directory settled bound valid.1 valid.2 room
        obtain ⟨value, after⟩ := before.amid layout spec recorded_outOfBlocks amid
        simp only [if_pos bound]
        exact ⟨_, ⟨value, rfl⟩, after⟩
      · have spec := dirlink_bound devsw name inum before.directory settled bound
        obtain ⟨value, after⟩ := before.unchanged layout spec amid
        simp only [if_neg bound]
        exact ⟨m, ⟨value, rfl⟩, after⟩
    | remove name result =>
      simp only [mapEvent, mapStep]
      by_cases bound : m (cut name DIRSIZ) = none
      · have spec := unlinkDirent_unbound devsw before.directory settled bound
        obtain ⟨value, after⟩ := before.unchanged layout spec amid
        simp only [if_pos bound]
        exact ⟨m, ⟨value, rfl⟩, after⟩
      · have spec := unlinkDirent_bound devsw layout before.directory settled bound
        obtain ⟨value, after⟩ := before.amid layout spec recorded_outOfBlocks amid
        simp only [if_neg bound]
        exact ⟨_, ⟨value, rfl⟩, after⟩

/-! ## Runs -/

/-- What `dirlookup` finds for a name where the map binds it so. -/
def Finds (entries : List Dirent) (name : Name) : Option Nat → Option (Nat × Nat) → Prop
  | none, found => found = none
  | some inum, found => ∃ i, found = some (inum, direntSize * i) ∧ entries[i]? = some ⟨inum, name⟩ ∧ inum ≠ 0

omit [DecidableEq ι] in
/-- `dirlookup` of a directory that stands returns what the map binds and changes nothing. -/
theorem DirectoryStands.finds (layout : Layout sb nmeta) (after : DirectoryStands sb nmeta k s m) (devsw : Devsw)
    (p : π) (name : Chars) :
    ∃ found, Finds (dirents (s.content k)) (cut name DIRSIZ) (m (cut name DIRSIZ)) found ∧
      Store.exec (recording true) (dirlookup sb devsw (s.inodes k) name) s.view.store =
        .ok ((s.inodes k, found), s.view.store) ∧
      ∀ result machine, RunsAmid (Machine.handler p) OthersAct (dirlookup sb devsw (s.inodes k) name) s.machine
        result machine → result = (s.inodes k, found) ∧ machine.contents = s.machine.contents := by
  have spec := after.directory.dirlookup (fun _ _ => rfl) devsw name
  refine ⟨(findEntry (cut name DIRSIZ) (dirents (s.content k))).map fun found => (found.1, direntSize * found.2),
    ?_, ?_, ?_⟩
  · have entry := after.directory.findEntry (cut name DIRSIZ)
    cases bound : m (cut name DIRSIZ) with
    | none =>
      rw [bound] at entry
      rw [show findEntry (cut name DIRSIZ) (dirents (s.content k)) = none from entry]
      rfl
    | some inum =>
      rw [bound] at entry
      obtain ⟨i, found, here, used⟩ := entry
      rw [found]
      exact ⟨i, rfl, here, used⟩
  · obtain ⟨_, _, returned, rfl, rfl⟩ := wp_returns spec
    exact returned
  · intro result machine amid
    obtain ⟨store, implements, rfl, rfl⟩ := after.standing.amid spec (fun _ impossible => impossible) amid
    exact ⟨rfl, (after.standing.recorded layout amid implements (.refl sb true _) after.standing.owned).2⟩

end Invariant

/-! ## Replaying events -/

/-- Commands that can be replayed: calls on the directory, and others with their events. -/
inductive DirectoryCommand (ι : Type) where
  /-- Call with the result. -/
  | call (call : DirectoryCall)
  /-- Any other command but `bmap`. -/
  | mount (command : MountCommand ι) (event : MountEvent ι)

/-- The event of a command. -/
def DirectoryCommand.event : DirectoryCommand ι → DirectoryEvent ι
  | call taken => .call taken
  | mount _ event => .mount event

section Replay

variable [DecidableEq ι] [DecidableEq π] {sb : Superblock} {devsw : Devsw} {p : π} {k : ι}

/-- Replay one command on a directory whose last block is not needed, with nobody else using the
cache. -/
def replayDirectory (sb : Superblock) (devsw : Devsw) (p : π) (k : ι) (s : Mounted ι π) :
    DirectoryCommand ι → Option (Mounted ι π)
  | .call taken =>
    match s.machine.exec p (taken.code sb devsw (s.inodes k)) with
    | .ok ((ip, r), m) =>
      if r = taken.result ∧ (s.inodes k).size < (NDIRECT + NINDIRECT) * BSIZE then
        some ⟨Function.update s.inodes k ip, m⟩
      else none
    | .error _ => none
  | .mount command event =>
    match replay sb p s command with
    | some (event', t) => if event' = event then some t else none
    | none => none

/-- A replayed command is a step. -/
theorem replayDirectory_step {s t : Mounted ι π} {command : DirectoryCommand ι}
    (replayed : replayDirectory sb devsw p k s command = some t)
    (valid : ∀ call, command = .call call → call.Valid) (quiet : ∀ call, command.event ≠ .mount (.bmap call)) :
    fittingStep sb devsw p k s command.event t := by
  cases command with
  | call taken =>
    simp only [replayDirectory] at replayed
    split at replayed
    · rename_i ip r m returned
      split at replayed
      · rename_i both
        obtain ⟨value, small⟩ := both
        cases replayed
        refine ⟨.call (valid taken rfl) (.of_run _ (by rw [← value]; exact returned)), ?_⟩
        cases taken with
        | link name inum result =>
          refine .inr (.inl ?_)
          rw [Mounted.content, bytesAt, List.length_map, List.length_range]
          exact small
        | remove name result => trivial
      · contradiction
    · contradiction
  | mount command event =>
    simp only [replayDirectory] at replayed
    split at replayed
    · rename_i event' u passed
      split at replayed
      · rename_i same
        cases replayed
        rw [same] at passed
        exact ⟨.mount (replay_step passed) fun call here => quiet call (congrArg DirectoryEvent.mount here), trivial⟩
      · contradiction
    · contradiction

/-- Replayed commands are a run. -/
theorem replayDirectory_run {s t : Mounted ι π} {commands : List (DirectoryCommand ι)}
    (replayed : commands.foldlM (replayDirectory sb devsw p k) s = some t)
    (valid : ∀ call, .call call ∈ commands → call.Valid)
    (quiet : ∀ command call, .mount command (.bmap call) ∉ commands) :
    Run (fittingStep sb devsw p k) s (commands.map DirectoryCommand.event) t := by
  induction commands generalizing s with
  | nil =>
    cases replayed
    exact .nil _
  | cons command rest ih =>
    rw [List.foldlM_cons] at replayed
    obtain ⟨u, first, later⟩ := Option.bind_eq_some_iff.mp replayed
    refine .cons (replayDirectory_step first ?_ ?_) (ih later ?_ ?_)
    · rintro taken rfl
      exact valid taken List.mem_cons_self
    · intro taken here
      cases command with
      | call _ => cases here
      | mount command event =>
        cases here
        exact quiet command taken List.mem_cons_self
    · exact fun taken member => valid taken (List.mem_cons_of_mem _ member)
    · exact fun command taken member => quiet command taken (List.mem_cons_of_mem _ member)

end Replay

/-- An empty directory on a disk of `mkfs`. -/
def freshDirectory : Mounted Unit Unit := { freshMounted with inodes := fun _ => { emptyInode 2 with type := T_DIR } }

/-- It has the invariant. -/
theorem freshDirectory_standing :
    Standing mkfsSuperblock (2 + LOGSIZE + (200 / IPB + 1) + (40000 / BPB + 1)) freshDirectory where
  coherent := fresh_standing.coherent
  owned := fresh_standing.owned.frame (fun _ => rfl) (fun _ _ => rfl) fun _ _ _ _ _ => rfl
  start := rfl
  size := rfl
  placed := fresh_standing.placed

end Xv6
