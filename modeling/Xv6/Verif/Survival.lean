import Xv6.Verif.Coherence
import Xv6.Verif.Ownership
import Xv6.Verif.Reading

/-!
# Block mappings and the cache

Runs of `bmap`, commits and the cache traffic of other processes on the machine, where `bget`
recycles any buffer that nobody refers to and that is not dirty. `bmap` does not pass an
existing index block of its doubly and triply indirect ranges to `log_write`, so an address it
stores there survives only while the buffer is dirty for another reason. Where this holds at
every call that fills such an entry, what `bmap` returned once it returns ever after.
-/

namespace Xv6

open Program Writes

variable {ι π : Type}

/-- In-memory inodes over the machine. -/
structure Mounted (ι π : Type) where
  /-- In-memory inodes. -/
  inodes : ι → Inode
  /-- Cache, disk and log. -/
  machine : Machine π

/-- The file system as the store shows it. -/
def Mounted.view (s : Mounted ι π) : FsState ι := ⟨s.inodes, s.machine.store⟩

/-- What happens to a mounted file system. -/
inductive MountEvent (ι : Type) where
  /-- A call of `bmap` that returned. -/
  | bmap (call : BmapCall ι)
  | beginOp
  /-- `end_op` without a commit. -/
  | endOp
  /-- `commit`, called by `end_op` or by `sync`. -/
  | commit
  /-- Other processes use the cache. -/
  | others
  deriving DecidableEq

/-- The log with which `end_op` or `sync` calls `commit`. -/
def Machine.commits (m : Machine π) (log : Log) : Prop :=
  m.log.endOp m.cache.isBufFull = .ok (log, true) ∨ log = { m.log with committing := true }

section Steps

variable [DecidableEq ι] [DecidableEq π]

/-- One event, with the file system calls made by the process `p`. Other processes use the
cache between events and before every request of `bmap` and `commit`. -/
inductive mountStep (sb : Superblock) (p : π) :
    Mounted ι π → MountEvent ι → Mounted ι π → Prop where
  | bmap {s : Mounted ι π} {call : BmapCall ι} {ip : Inode} {m : Machine π} :
      call.bn < MAXFILE →
        RunsAmid (Machine.handler p) OthersAct (bmap sb (s.inodes call.owner) call.bn) s.machine
          (ip, call.addr) m →
          mountStep sb p s (.bmap call) ⟨Function.update s.inodes call.owner ip, m⟩
  | beginOp {s : Mounted ι π} {m : Machine π} :
      s.machine.beginOp = some m → mountStep sb p s .beginOp ⟨s.inodes, m⟩
  | endOp {s : Mounted ι π} {log : Log} :
      s.machine.log.endOp s.machine.cache.isBufFull = .ok (log, false) →
        mountStep sb p s .endOp ⟨s.inodes, { s.machine with log }⟩
  | commit {s : Mounted ι π} {log cleared : Log} {m : Machine π} :
      s.machine.commits log →
        RunsAmid (Machine.handler p) OthersAct (commit log) { s.machine with log } cleared m →
          mountStep sb p s .commit ⟨s.inodes, { m with log := { cleared with committing := false } }⟩
  | others {s : Mounted ι π} {m : Machine π} :
      OthersAct s.machine m → mountStep sb p s .others ⟨s.inodes, m⟩

/-- A step in which a call of `bmap` finds the existing index blocks it fills dirty. -/
def pinnedStep (sb : Superblock) (p : π) (s : Mounted ι π) (event : MountEvent ι)
    (t : Mounted ι π) : Prop :=
  mountStep sb p s event t ∧ ∀ call, event = .bmap call → Pinned s.view call.owner call.bn

/-- The invariant between events. -/
structure Standing (sb : Superblock) (nmeta : Nat) (s : Mounted ι π) : Prop where
  coherent : s.machine.Coherent
  owned : Owned sb nmeta s.inodes s.machine.contents
  /-- The log starts where the super block says. -/
  start : s.machine.log.start = sb.logstart
  /-- The log has the size of the super block. -/
  size : s.machine.log.size = sb.nlog
  /-- The logged blocks have room and lie outside the log area. -/
  placed : s.machine.log.Placed

/-- Addresses once there stay. -/
def Kept (s t : Mounted ι π) : Prop :=
  ∀ r p, InTree r p → s.view.forest.address r p ≠ 0 →
    t.view.forest.address r p = s.view.forest.address r p

end Steps

variable {sb : Superblock} {nmeta : Nat}

/-- The log area ends before the inode blocks. -/
theorem outside_log (layout : Layout sb nmeta) {log : Log} (start : log.start = sb.logstart)
    (size : log.size = sb.nlog) {b : Nat} (high : sb.inodestart ≤ b) : ¬log.Area b := by
  have inodes := layout.inodes_after_log
  unfold Log.Area
  rw [start, size]
  omega

/-- The inodes and the blocks behind the log are the same. -/
structure Undisturbed (sb : Superblock) (s t : Mounted ι π) : Prop where
  inodes : t.inodes = s.inodes
  /-- The blocks. -/
  contents : ∀ b, sb.inodestart ≤ b → t.machine.contents b = s.machine.contents b

/-- Such states have the same forest, and block ownership is kept. -/
theorem Undisturbed.owned {s t : Mounted ι π} (layout : Layout sb nmeta)
    (owned : Owned sb nmeta s.inodes s.machine.contents) (same : Undisturbed sb s t) :
    Owned sb nmeta t.inodes t.machine.contents ∧
      ∀ r p, InTree r p → t.view.forest.address r p = s.view.forest.address r p := by
  have roots : ∀ k, (t.inodes k).addrs = (s.inodes k).addrs := fun k => by rw [same.inodes]
  have index : ∀ (r : ι × Slot) j up, InTree r (j :: up) → s.view.forest.address r up ≠ 0 →
      t.machine.contents (s.view.forest.address r up) = s.machine.contents (s.view.forest.address r up) := by
    intro r j up below occupied
    exact same.contents _ (layout.inodes_low.2.trans (owned.data_area r up (inTree_up below) occupied).1)
  refine ⟨owned.frame roots ?_ index, fun r p place => Owned.address_frame roots index r p place⟩
  exact fun b _ => same.contents _ (layout.inodes_low.1.trans (Nat.le_add_left _ _))

/-- The log that `commit` is called with differs in its counters. -/
theorem Machine.commits_eq {m : Machine π} {log : Log} (begun : m.commits log) :
    log.start = m.log.start ∧ log.size = m.log.size ∧ log.lh = m.log.lh := by
  rcases begun with ended | synced
  · obtain ⟨_, rfl, _⟩ := Log.endOp_ok ended
    exact ⟨rfl, rfl, rfl⟩
  · rw [synced]
    exact ⟨rfl, rfl, rfl⟩

section Quiet

variable {s : Mounted ι π}

/-- What other processes do keeps the invariant. -/
theorem others_standing (standing : Standing sb nmeta s) {m : Machine π}
    (other : OthersAct s.machine m) (p : π) :
    Standing sb nmeta ⟨s.inodes, m⟩ ∧ Undisturbed sb s ⟨s.inodes, m⟩ := by
  have after := (standing.coherent.implements p).othersAct other
  have contents : m.contents = s.machine.contents := after.contents fun _ => rfl
  refine ⟨⟨after.coherent fun _ => rfl, ?_, ?_, ?_, ?_⟩, rfl, fun b _ => congrFun contents b⟩
  · rw [contents]
    exact standing.owned
  · rw [other.log]
    exact standing.start
  · rw [other.log]
    exact standing.size
  · rw [other.log]
    exact standing.placed

/-- Changing the counters of the log keeps the invariant. -/
theorem counters_standing (standing : Standing sb nmeta s) {log : Log} (start : log.start = s.machine.log.start)
    (size : log.size = s.machine.log.size) (lh : log.lh = s.machine.log.lh) :
    Standing sb nmeta ⟨s.inodes, { s.machine with log }⟩ ∧
      Undisturbed sb s ⟨s.inodes, { s.machine with log }⟩ := by
  have placed := standing.placed.congr start size lh
  exact ⟨⟨⟨standing.coherent.wf, standing.coherent.clean⟩, standing.owned, start.trans standing.start,
    size.trans standing.size, placed⟩, rfl, fun _ _ => rfl⟩

end Quiet

section Steps

variable [DecidableEq π] {p : π}

/-- The log keeps its place and its room while requests are made. -/
theorem log_room {α : Type} {code : Kernel α} {m m' : Machine π} {value : α}
    (amid : RunsAmid (Machine.handler p) OthersAct code m value m')
    (room : m.log.lh.length < m.log.size) :
    m'.log.start = m.log.start ∧ m'.log.size = m.log.size ∧ m'.log.lh.length < m'.log.size := by
  have keeps := amid.invariant
    (fun u => u.log.start = m.log.start ∧ u.log.size = m.log.size ∧ u.log.lh.length < u.log.size)
    ?_ ?_ ⟨rfl, rfl, room⟩
  · exact keeps
  · intro op u answer v before returned
    rcases Machine.handler_log returned with same | ⟨blockno, _, accepted⟩
    · rw [same]
      exact before
    · obtain ⟨_, below, _, recorded⟩ := Log.write_ok accepted
      have longer := u.log.record_length blockno
      rw [recorded]
      refine ⟨before.1, before.2.1, ?_⟩
      change (u.log.record blockno).lh.length < u.log.size
      omega
  · intro u v before other
    rw [other.log]
    exact before

variable {s t : Mounted ι π}

/-- A commit keeps the invariant. -/
theorem commit_standing (layout : Layout sb nmeta) (standing : Standing sb nmeta s)
    {log cleared : Log} {m : Machine π} (begun : s.machine.commits log)
    (amid : RunsAmid (Machine.handler p) OthersAct (commit log) { s.machine with log } cleared m) :
    Standing sb nmeta ⟨s.inodes, { m with log := { cleared with committing := false } }⟩ ∧
      Undisturbed sb s ⟨s.inodes, { m with log := { cleared with committing := false } }⟩ := by
  obtain ⟨start, size, lh⟩ := Machine.commits_eq begun
  have placed := standing.placed.congr start size lh
  obtain ⟨coherent, rfl, contents⟩ := standing.coherent.commit placed amid
  have same : Undisturbed sb s ⟨s.inodes, { m with log := { log.clear with committing := false } }⟩ :=
    ⟨rfl, fun b high => contents b (outside_log layout (start.trans standing.start) (size.trans standing.size) high)⟩
  refine ⟨⟨⟨coherent.wf, coherent.clean⟩, (same.owned layout standing.owned).1, ?_, ?_, ?_, ?_⟩, same⟩
  · exact start.trans standing.start
  · exact size.trans standing.size
  · have room := placed.room
    exact Nat.lt_of_le_of_lt (Nat.zero_le _) room
  · exact fun b member => absurd member List.not_mem_nil

/-- Every event but a call of `bmap` keeps the invariant, the inodes and the blocks behind the log. -/
theorem quiet_standing [DecidableEq ι] (layout : Layout sb nmeta) (standing : Standing sb nmeta s)
    {event : MountEvent ι} (taken : mountStep sb p s event t) (quiet : ∀ call, event ≠ .bmap call) :
    Standing sb nmeta t ∧ Undisturbed sb s t := by
  cases taken with
  | bmap _ _ => exact absurd rfl (quiet _)
  | beginOp admitted =>
    unfold Machine.beginOp at admitted
    cases passed : s.machine.log.beginOp s.machine.cache.isBufFull with
    | none => rw [passed] at admitted; contradiction
    | some log =>
      rw [passed] at admitted
      cases admitted
      obtain ⟨_, _, _, rfl⟩ := Log.beginOp_some passed
      exact counters_standing standing rfl rfl rfl
  | endOp ended =>
    obtain ⟨_, rfl, _⟩ := Log.endOp_ok ended
    exact counters_standing standing rfl rfl rfl
  | commit begun amid => exact commit_standing layout standing begun amid
  | others other => exact others_standing standing other p

/-- Code that leaves nothing unrecorded on the machine's own store does on the machine what it
does there, whatever others do. -/
theorem Standing.amid {α : Type} (standing : Standing sb nmeta s) {code : Kernel α} {post : α → Store → Prop}
    {halt : Stop → Prop} (spec : wp (Store.handler (recording true)) code post halt s.view.store)
    (recorded : ∀ b, ¬halt (.unrecorded b)) {value : α} {m : Machine π}
    (amid : RunsAmid (Machine.handler p) OthersAct code s.machine value m) :
    ∃ store, Implements p m store ∧ post value store := by
  rcases (standing.coherent.implements p).runsAmid amid with ⟨store, returned, after⟩ | ⟨b, stopped⟩
  · exact ⟨store, after, wp_ok spec returned⟩
  · exact absurd (wp_error spec stopped) (recorded b)

/-- Want of a free block is no unrecorded release. -/
theorem recorded_outOfBlocks (b : Nat) : ¬outOfBlocks (.unrecorded b) := by
  simp [outOfBlocks]

/-- What such code leaves has the invariant, and its contents are those of the store. -/
theorem Standing.recorded {α : Type} (layout : Layout sb nmeta) (standing : Standing sb nmeta s) {code : Kernel α}
    {value : α} {m : Machine π} (amid : RunsAmid (Machine.handler p) OthersAct code s.machine value m)
    {store : Store} (implements : Implements p m store) (recorded : Recorded sb true s.view.store store)
    {inodes : ι → Inode} (owned : Owned sb nmeta inodes store.blocks) :
    Standing sb nmeta ⟨inodes, m⟩ ∧ m.contents = store.blocks := by
  have settled : ∀ b, store.unlogged b = false := recorded.settled (fun _ _ => rfl) rfl
  have contents := implements.contents settled
  obtain ⟨start, size, room⟩ := log_room amid standing.placed.room
  refine ⟨⟨implements.coherent settled, ?_, start.trans standing.start, size.trans standing.size, room, ?_⟩, contents⟩
  · rw [contents]
    exact owned
  · intro b member
    have logged := member
    rw [implements.log] at logged
    rcases recorded.logged b logged with before | high
    · have outside := standing.placed.outside b before
      unfold Log.Area at outside ⊢
      rw [start, size]
      exact outside
    · exact outside_log layout (start.trans standing.start) (size.trans standing.size) high

variable [DecidableEq ι]

/-- A call of `bmap` that finds the index blocks it fills dirty keeps the invariant and all
addresses, and returns the address that is then mapped. -/
theorem bmap_standing (layout : Layout sb nmeta) (standing : Standing sb nmeta s) {call : BmapCall ι}
    (inside : call.bn < MAXFILE) (pinned : Pinned s.view call.owner call.bn) {ip : Inode}
    {m : Machine π}
    (amid : RunsAmid (Machine.handler p) OthersAct (bmap sb (s.inodes call.owner) call.bn) s.machine
      (ip, call.addr) m) :
    Standing sb nmeta (⟨Function.update s.inodes call.owner ip, m⟩ : Mounted ι π) ∧
      Kept s ⟨Function.update s.inodes call.owner ip, m⟩ ∧
      (Mounted.view ⟨Function.update s.inodes call.owner ip, m⟩).mapped call.owner call.bn = call.addr ∧
      call.addr ≠ 0 := by
  have settled : Settled true s.view.store := fun _ _ => rfl
  have spec := bmap_spec layout standing.owned settled call.owner inside fun _ => pinned
  obtain ⟨store, implements, reached⟩ := standing.amid spec recorded_outOfBlocks amid
  obtain ⟨next, contents⟩ :=
    standing.recorded layout amid implements (.grows layout reached.grows) reached.grows.owned
  have forest : (Mounted.view ⟨Function.update s.inodes call.owner ip, m⟩).forest =
      blockForest (Function.update s.inodes call.owner ip) store.blocks := by
    change blockForest (Function.update s.inodes call.owner ip) m.contents = _
    rw [contents]
  refine ⟨next, ?_, ?_, reached.occupied⟩
  · intro r path place occupied
    rw [forest]
    exact reached.grows.kept r path place occupied
  · have address := reached.address
    change (Mounted.view ⟨Function.update s.inodes call.owner ip, m⟩).forest.address _ _ = _
    rw [forest]
    exact address.symm

/-- A step whose call of `bmap` finds the index blocks it fills dirty keeps the invariant and
all addresses. -/
theorem step_standing (layout : Layout sb nmeta) (standing : Standing sb nmeta s)
    {event : MountEvent ι} (step : pinnedStep sb p s event t) : Standing sb nmeta t ∧ Kept s t := by
  obtain ⟨taken, pinned⟩ := step
  by_cases call : ∃ c, event = .bmap c
  · obtain ⟨c, rfl⟩ := call
    cases taken with
    | bmap inside amid =>
      obtain ⟨next, kept, _⟩ := bmap_standing layout standing inside (pinned _ rfl) amid
      exact ⟨next, kept⟩
  · obtain ⟨next, same⟩ := quiet_standing layout standing taken fun c here => call ⟨c, here⟩
    exact ⟨next, fun r path place _ => (same.owned layout standing.owned).2 r path place⟩

/-- A run keeps the invariant and all addresses. -/
theorem run_standing (layout : Layout sb nmeta) (standing : Standing sb nmeta s)
    {events : List (MountEvent ι)} (run : Run (pinnedStep sb p) s events t) :
    Standing sb nmeta t ∧ Kept s t := by
  apply run.preserves (Standing sb nmeta) Kept
  · exact fun _ _ _ _ _ => rfl
  · intro u v w first second r path inside occupied
    have once := first r path inside occupied
    rw [second r path inside (by rw [once]; exact occupied), once]
  · exact fun u event v before step => step_standing layout before step
  · exact standing

/-- What a call of `bmap` in a run returned is mapped at the end of the run. -/
theorem run_mapped (layout : Layout sb nmeta) (standing : Standing sb nmeta s)
    {events : List (MountEvent ι)} (run : Run (pinnedStep sb p) s events t) {call : BmapCall ι}
    (member : .bmap call ∈ events) : t.view.mapped call.owner call.bn = call.addr := by
  obtain ⟨_, _, v, w, _, before, step, after⟩ := run.step_of_mem member
  have standing' := (run_standing layout standing before).1
  obtain ⟨taken, pinned⟩ := step
  cases taken with
  | bmap inside amid =>
    obtain ⟨next, _, mapped, occupied⟩ := bmap_standing layout standing' inside (pinned _ rfl) amid
    have kept := (run_standing layout next after).2
    rw [← mapped]
    apply kept _ _ (position_inTree call.owner inside).1
    change (Mounted.view _).mapped call.owner call.bn ≠ 0
    rw [mapped]
    exact occupied

/-- Block mappings survive the cache in every run in which `bmap` fills an entry of an existing
index block of the doubly or triply indirect range only while that block is dirty: two calls for
the same block number return the same block, and no change is left unrecorded. -/
theorem bmap_survives (layout : Layout sb nmeta) (standing : Standing sb nmeta s)
    {events : List (MountEvent ι)} (run : Run (pinnedStep sb p) s events t) :
    t.machine.Coherent ∧ ∀ c c', .bmap c ∈ events → .bmap c' ∈ events → c.owner = c'.owner →
      c.bn = c'.bn → c.addr = c'.addr := by
  refine ⟨(run_standing layout standing run).1.coherent, ?_⟩
  intro c c' member member' owner bn
  have first := run_mapped layout standing run member
  have second := run_mapped layout standing run member'
  rw [← first, ← second, owner, bn]

/-- Runs that stay in these two ranges meet the condition. -/
theorem run_shallow {events : List (MountEvent ι)} (run : Run (mountStep sb p) s events t)
    (shallow : ∀ call, .bmap call ∈ events → call.bn < NDIRECT + NINDIRECT) :
    Run (pinnedStep sb p) s events t := by
  induction run with
  | nil s => exact .nil s
  | cons taken _ ih =>
    have rest := ih fun call member => shallow call (List.mem_cons_of_mem _ member)
    refine .cons ⟨taken, ?_⟩ rest
    rintro call rfl
    exact pinned_shallow _ _ (shallow call List.mem_cons_self)

/-! ## Replaying events -/

/-- Commands that can be replayed: calls, and the recycling of one buffer. -/
inductive MountCommand (ι : Type) where
  | bmap (owner : ι) (bn : Nat)
  | beginOp
  | endOp
  | sync
  | recycle (i : Fin NBUF) (blockno : Nat)

/-- The block is given to the buffer by `bget`. -/
def Machine.recycled (m : Machine π) (i : Fin NBUF) (blockno : Nat) : Machine π :=
  m.setBuf i { m.cache.buf i with dev := ROOTDEV, blockno, valid := false, dirty := false, refcnt := 1 }

/-- Replay one command, with nobody else using the cache. -/
def replay (sb : Superblock) (p : π) (s : Mounted ι π) :
    MountCommand ι → Option (MountEvent ι × Mounted ι π)
  | .bmap owner bn =>
    match s.machine.exec p (Xv6.bmap sb (s.inodes owner) bn) with
    | .ok ((ip, addr), m) =>
      if bn < MAXFILE then some (.bmap ⟨owner, bn, addr⟩, ⟨Function.update s.inodes owner ip, m⟩)
      else none
    | .error _ => none
  | .beginOp => s.machine.beginOp.map fun m => (.beginOp, ⟨s.inodes, m⟩)
  | .endOp =>
    match s.machine.log.endOp s.machine.cache.isBufFull with
    | .ok (log, false) => some (.endOp, ⟨s.inodes, { s.machine with log }⟩)
    | _ => none
  | .sync =>
    match s.machine.sync p with
    | .ok m => some (.commit, ⟨s.inodes, m⟩)
    | .error _ => none
  | .recycle i blockno =>
    if (s.machine.cache.buf i).unused = true ∧
        ∀ j, ¬((s.machine.cache.buf j).dev = ROOTDEV ∧ (s.machine.cache.buf j).blockno = blockno) then
      some (.others, ⟨s.inodes, s.machine.recycled i blockno⟩)
    else none

/-- Replay commands in order. -/
def replayAll (sb : Superblock) (p : π) (s : Mounted ι π) :
    List (MountCommand ι) → Option (List (MountEvent ι) × Mounted ι π)
  | [] => some ([], s)
  | command :: rest =>
    match replay sb p s command with
    | none => none
    | some (event, t) => (replayAll sb p t rest).map fun result => (event :: result.1, result.2)

/-- A replayed command is a step. -/
theorem replay_step {command : MountCommand ι} {event : MountEvent ι}
    (replayed : replay sb p s command = some (event, t)) : mountStep sb p s event t := by
  cases command with
  | bmap owner bn =>
    simp only [replay] at replayed
    split at replayed
    · rename_i ip addr m returned
      split at replayed
      · rename_i inside
        cases replayed
        exact .bmap inside (.of_run _ returned)
      · contradiction
    · contradiction
  | beginOp =>
    obtain ⟨m, admitted, same⟩ := Option.map_eq_some_iff.mp replayed
    cases same
    exact .beginOp admitted
  | endOp =>
    simp only [replay] at replayed
    split at replayed
    · rename_i ended
      cases replayed
      exact .endOp ended
    · contradiction
  | sync =>
    simp only [replay] at replayed
    split at replayed
    · rename_i m synced
      cases replayed
      unfold Machine.sync Machine.commitAndClear at synced
      split at synced
      · contradiction
      · rename_i returned
        cases synced
        exact .commit (.inr rfl) (.of_run _ returned)
    · contradiction
  | recycle i blockno =>
    simp only [replay] at replayed
    split at replayed
    · rename_i free
      cases replayed
      exact .others (.bget i ROOTDEV blockno 1 free.1 free.2)
    · contradiction

/-- Replayed commands are a run. -/
theorem replayAll_run {commands : List (MountCommand ι)} {events : List (MountEvent ι)}
    (replayed : replayAll sb p s commands = some (events, t)) : Run (mountStep sb p) s events t := by
  induction commands generalizing s events with
  | nil =>
    cases replayed
    exact .nil _
  | cons command rest ih =>
    simp only [replayAll] at replayed
    split at replayed
    · contradiction
    · rename_i event u first
      obtain ⟨result, later, same⟩ := Option.map_eq_some_iff.mp replayed
      cases same
      exact .cons (replay_step first) (ih later)

/-- Commands whose replay has the given events lead to some state. -/
theorem replay_events (commands : List (MountCommand ι)) {events : List (MountEvent ι)}
    (replayed : (replayAll sb p s commands).map (fun result => result.1) = some events) :
    ∃ t, Run (mountStep sb p) s events t := by
  obtain ⟨result, passed, rfl⟩ := Option.map_eq_some_iff.mp replayed
  exact ⟨result.2, replayAll_run passed⟩

end Steps

/-! ## A file with a doubly indirect block -/

/-- The file of 139 blocks on the disk of `mkfs`, with an empty cache and an empty log. -/
def deepMounted : Mounted Unit Unit where
  inodes _ := deepInode
  machine := ⟨binit, deepBlocks, ⟨2, LOGSIZE, 0, false, []⟩⟩

/-- Block 139 is allocated twice when the buffer of its index block, block 208, is recycled in
between: the first address was not passed to `log_write` with it. -/
theorem bmap_forgets_deep :
    deepMounted.machine.Coherent ∧ MappedBelow deepInode deepMounted.machine.contents deepInode.size ∧
      ∃ t, Run (mountStep mkfsSuperblock ()) deepMounted
        [.beginOp, .bmap ⟨(), 139, 210⟩, .endOp, .commit, .others, .beginOp, .bmap ⟨(), 139, 211⟩]
        t := by
  refine ⟨Machine.coherent_empty _ _, ?_, ?_⟩
  · change MappedBelow deepInode (⟨binit, deepBlocks, _⟩ : Machine Unit).contents _
    rw [Machine.contents_empty]
    exact deep_mapped
  · apply replay_events [.beginOp, .bmap () 139, .endOp, .sync,
      .recycle ⟨1, by decide⟩ 0, .beginOp, .bmap () 139]
    decide +kernel

/-- An empty file on a disk of `mkfs` whose free map has the metadata bits set. -/
def freshMounted : Mounted Unit Unit where
  inodes _ := emptyInode 2
  machine := ⟨binit, fun b i => if b = mkfsSuperblock.bmapstart then
    if i.val < 8 then 255 else if i.val = 8 then 15 else 0 else 0, ⟨2, LOGSIZE, 0, false, []⟩⟩

/-- The empty file has the invariant. -/
theorem fresh_standing :
    Standing mkfsSuperblock (2 + LOGSIZE + (200 / IPB + 1) + (40000 / BPB + 1)) freshMounted where
  coherent := Machine.coherent_empty _ _
  owned := by
    have contents : freshMounted.machine.contents = _ := Machine.contents_empty _ _
    rw [contents]
    apply Owned.empty
    · exact fun _ _ => rfl
    · unfold Used
      decide +kernel
  start := rfl
  size := rfl
  placed := ⟨by decide, fun _ member => absurd member List.not_mem_nil⟩

/-- In the single indirect range the same block is returned after a commit and the recycling of
the index block's buffer. -/
theorem bmap_survives_fresh :
    ∃ t, Run (pinnedStep mkfsSuperblock ()) freshMounted
        [.beginOp, .bmap ⟨(), 10, 69⟩, .endOp, .commit, .others, .beginOp, .bmap ⟨(), 10, 69⟩] t ∧
      t.machine.Coherent := by
  have run : ∃ t, Run (mountStep mkfsSuperblock ()) freshMounted
      [.beginOp, .bmap ⟨(), 10, 69⟩, .endOp, .commit, .others, .beginOp, .bmap ⟨(), 10, 69⟩] t := by
    apply replay_events [.beginOp, .bmap () 10, .endOp, .sync,
      .recycle ⟨1, by decide⟩ 0, .beginOp, .bmap () 10]
    decide +kernel
  obtain ⟨t, run⟩ := run
  have pinned := run_shallow run (by simp [NDIRECT, NINDIRECT, BSIZE])
  exact ⟨t, pinned, (bmap_survives mkfs_layout fresh_standing pinned).1⟩

end Xv6
