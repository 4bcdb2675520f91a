import Xv6.Verif.Reachability

/-!
# What a directory leaves

When no call takes away the parent of a directory that stays, no entry of any directory names a free
inode. When no entry is written into a directory without links, every inode that nobody holds has a
name. A process can do both.
-/

namespace Xv6

section Kept

variable {tidy : Prop} {files : List Name} {procs : List Nat} {events : List (Nat × NameCall)} {s : Names} {i : Nat}

/-! ## Entries do not dangle -/

/-- In every run in which no count wraps around and no call vacates the parent of a directory that
stays, every entry of every directory names an inode that is not free, and no call that makes no count
wrap around arrives at a free inode. -/
theorem entries_allocated (fits : files.length + 2 ≤ NINODES) (distinct : procs.Nodup)
    (run : Run (fun s event t => Counts s event t ∧ s.Together event.1 event.2) (booted files procs) events s) :
    (∀ d, (s.inode d).type = T_DIR → ∀ e ∈ (s.inode d).entries, e.inum ≠ 0 → (s.inode e.inum).type ≠ 0) ∧
      ∀ p call, ¬s.Overflows p call → s.call p call ≠ .error noType := by
  have known : Sound False procs settled [] s ∧ (True → Upward s.inode) :=
    run_sound fits distinct (run.mono fun s event t taken => ⟨taken.1, fun _ => taken.2, False.elim⟩)
  refine ⟨known.1.linked.noDangling (known.2 trivial), fun p call room panics => ?_⟩
  have ends := call_leaves known.1 known.2 p call room False.elim
  rw [panics] at ends
  exact ends trivial rfl

/-- The state after a call of the first process. -/
def Names.afterCall (s : Names) (call : NameCall) : Names := (s.step (1, call)).getD s

/-- The call returns and makes no count wrap around. -/
theorem afterCall_counts {call : NameCall} (returned : (s.step (1, call)).isSome = true) (room : ¬s.Overflows 1 call) :
    Counts s (1, call) (s.afterCall call) := by
  obtain ⟨t, taken⟩ := Option.isSome_iff_exists.mp returned
  refine ⟨room, ?_⟩
  show s.step (1, call) = some ((s.step (1, call)).getD s)
  rw [taken]
  rfl

/-- Leaving a directory that has links vacates nothing. -/
theorem together_chdir {d : Nat} {path : List UInt8} (current : s.cwd 1 = some d) (linked : (s.inode d).nlink ≠ 0) :
    s.Together 1 (.chdir path) := by
  rintro _ _ ⟨same, none, _⟩
  cases current.symm.trans same
  exact absurd none linked

/-- A directory is made in the root, entered, left and removed. -/
theorem entries_allocated_unlink : ∃ s, Run (fun s event t => Counts s event t ∧ s.Together event.1 event.2) (booted [] [1])
      [(1, .mkdir [47, 97]), (1, .chdir [47, 97]), (1, .chdir [47]), (1, .unlink [47, 97])] s ∧
      (∀ d, (s.inode d).type = T_DIR → ∀ e ∈ (s.inode d).entries, e.inum ≠ 0 → (s.inode e.inum).type ≠ 0) ∧
        ∀ p call, ¬s.Overflows p call → s.call p call ≠ .error noType := by
  let s1 := (booted [] [1]).afterCall (.mkdir [47, 97])
  let s2 := s1.afterCall (.chdir [47, 97])
  let s3 := s2.afterCall (.chdir [47])
  have current1 : s1.cwd 1 = some 1 ∧ (s1.inode 1).nlink ≠ 0 := by decide +kernel
  have current2 : s2.cwd 1 = some 2 ∧ (s2.inode 2).nlink ≠ 0 := by decide +kernel
  have made : Counts (booted [] [1]) (1, .mkdir [47, 97]) s1 := afterCall_counts (by decide +kernel) id
  have entered : Counts s1 (1, .chdir [47, 97]) s2 := afterCall_counts (by decide +kernel) id
  have left : Counts s2 (1, .chdir [47]) s3 := afterCall_counts (by decide +kernel) id
  have first : Run (fun s event t => Counts s event t ∧ s.Together event.1 event.2) (booted [] [1])
      [(1, .mkdir [47, 97]), (1, .chdir [47, 97]), (1, .chdir [47])] s3 :=
    .cons ⟨made, fun _ _ => False.elim⟩ (.cons ⟨entered, together_chdir current1.1 current1.2⟩
      (.cons ⟨left, together_chdir current2.1 current2.2⟩ (.nil s3)))
  -- the parent of the directories that are left is the root, which has other links
  have together : s3.Together 1 (.unlink [47, 97]) := by
    rintro d dir ⟨dp, name, ip, off, leads, _, _, found, _, which⟩
    have resolved : s3.resolve 1 [47, 97] true = some (1, [97]) := by decide +kernel
    cases resolved.symm.trans leads
    have entry : findEntry [97] (s3.inode 1).entries = some (2, 2) := by decide +kernel
    cases entry.symm.trans found
    have links : (s3.inode 1).nlink = 2 := by decide +kernel
    have known : Sound False [1] settled [] s3 ∧ (True → Upward s3.inode) := run_sound (by decide) (by decide)
      (first.mono fun s event t taken => ⟨taken.1, fun _ => taken.2, False.elim⟩)
    have above : ∀ d < NINODES, (s3.inode d).type = T_DIR → Inodes.up s3.inode d = 1 := by decide +kernel
    rw [above d (known.1.linked.inside (dir_used dir)).2 dir, links] at which
    rcases which with ⟨same, _⟩ | ⟨_, _, same, _⟩
    · exact absurd same (by decide)
    · exact absurd same (by decide)
  have run := first.snoc ⟨afterCall_counts (show (s3.step (1, .unlink [47, 97])).isSome = true by decide +kernel) id, together⟩
  exact ⟨_, run, entries_allocated (by decide) (by decide) run⟩

/-! ## Names are not lost -/

/-- An inode with a name has it in a directory that has a name. -/
theorem Linked.holder (linked : Linked True settled s.inode) (nonzero : i ≠ 0) (named : 0 < Inodes.names s.inode i) :
    ∃ d, (s.inode d).type = T_DIR ∧ (d = ROOTINO ∨ 0 < Inodes.names s.inode d) ∧ ∃ e ∈ Inodes.children s.inode d, e.inum = i := by
  obtain ⟨e, ⟨d, dir⟩, member, same⟩ := names_elim named
  refine ⟨d, dir, ?_, e, member, same⟩
  by_contra homeless
  have below : d ≠ ROOTINO := fun root => homeless (.inl root)
  have bare := linked.bare trivial d dir below (by omega)
  exact nonzero (same.symm.trans (bare e member))

/-- The names of the root lead to every directory that has a name. -/
theorem Linked.climb (linked : Linked True settled s.inode) {d : Nat} (dir : (s.inode d).type = T_DIR)
    (home : d = ROOTINO ∨ 0 < Inodes.names s.inode d) : s.Anchored d := by
  obtain ⟨rank, lower⟩ := linked.depth trivial
  have each : ∀ n d, rank d < n → (s.inode d).type = T_DIR → d = ROOTINO ∨ 0 < Inodes.names s.inode d → s.Anchored d := by
    intro n
    induction n with
    | zero => exact fun _ low => absurd low (Nat.not_lt_zero _)
    | succ n ih =>
      intro d low dir home
      rcases home with root | named
      · rw [root]
        exact .root
      · obtain ⟨q, listed, above, e, member, same⟩ := linked.holder (linked.inside (dir_used dir)).1 named
        have up := linked.parent q listed e member (by rw [same]; exact dir)
        have less := lower d dir named
        rw [same] at up
        rw [up] at less
        have anchored := Names.Anchored.child (ih q (by omega) listed above) listed member
        rw [same] at anchored
        exact anchored
  exact each (rank d + 1) d (Nat.lt_succ_self _) dir home

/-- An inode that is neither open nor a current directory has links. -/
theorem Sound.idle_linked (sound : Sound tidy procs settled [] s) (closed : ∀ p fd, s.ofile p fd = none)
    (home : ∀ p d, s.cwd p = some d → d = ROOTINO) (used : (s.inode i).type ≠ 0) (below : i ≠ ROOTINO) : 0 < (s.inode i).nlink := by
  have files : ((List.range NFILE).countP fun f => 0 < s.fileRef f ∧ s.fileIp f = some i) = 0 := by
    rw [List.countP_eq_zero]
    intro f _ held
    obtain ⟨_, p, fd, slot⟩ := sound.slots f (of_decide_eq_true held).1
    rw [closed p fd] at slot
    exact nomatch slot
  have people : (procs.countP fun p => s.cwd p = some i) = 0 := by
    rw [List.countP_eq_zero]
    intro p _ current
    exact below (home p i (of_decide_eq_true current))
  have refs := sound.refs i
  unfold Names.holders at refs
  rw [files, people] at refs
  have nonneg := sound.linked.nonneg used
  by_contra none
  have held := (sound.held.idle i used (by omega)).1
  rw [← refs] at held
  exact absurd held (Nat.lt_irrefl 0)

/-- A directory whose first 138 blocks, those that `bmap` finds without the doubly indirect one, have
no entry left. The blocks behind them are lost when the log is installed and their buffers are used
again, and the entries in them with them; a directory has no blocks here. -/
def Deep (dp : Node) : Prop := 138 * 32 ≤ (dp.entries.takeWhile fun e => e.inum != 0).length

/-- In every run in which no count wraps around and no entry is written into a directory without
links or behind the first 138 blocks of one: when no file is open and every current directory is the
root, the names of the root lead to every inode that is not free. -/
theorem names_reach (fits : files.length + 2 ≤ NINODES) (distinct : procs.Nodup)
    (run : Run (fun s event t => Counts s event t ∧ ¬s.Strays event.1 event.2 ∧ ¬s.Enters event.1 Deep event.2)
      (booted files procs) events s) (closed : ∀ p fd, s.ofile p fd = none) (home : ∀ p d, s.cwd p = some d → d = ROOTINO) :
    ∀ i, (s.inode i).type ≠ 0 → s.Reachable i := by
  intro i used
  have counts : Run (fun s event t => Counts s event t ∧ (False → s.Together event.1 event.2) ∧
      (True → ¬s.Strays event.1 event.2)) (booted files procs) events s :=
    run.mono fun s event t taken => ⟨taken.1, False.elim, fun _ => taken.2.1⟩
  have sound : Sound True procs settled [] s := (run_sound fits distinct counts).1
  have linked := sound.linked
  have inside := linked.inside used
  by_cases root : i = ROOTINO
  · rw [root]
    exact .root
  have positive := sound.idle_linked closed home used root
  have named : 0 < Inodes.names s.inode i := by
    by_cases dir : (s.inode i).type = T_DIR
    · exact (linked.home trivial dir positive).resolve_left root
    · have none : Inodes.subdirs s.inode i = 0 := if_neg dir
      have full := linked.full trivial i used
      rw [none, if_neg root] at full
      unfold settled at full
      omega
  obtain ⟨d, dir, above, e, member, same⟩ := linked.holder inside.1 named
  have anchored := Names.Anchored.child (linked.climb dir above) dir member
  rw [same] at anchored
  exact anchored.reachable inside.1 linked

/-- The names of the root lead to a directory that has been made there. -/
theorem names_reach_mkdir : ∃ s,
    Run (fun s event t => Counts s event t ∧ ¬s.Strays event.1 event.2 ∧ ¬s.Enters event.1 Deep event.2) (booted [] [1])
        [(1, .mkdir [47, 97])] s ∧
      ∀ i, (s.inode i).type ≠ 0 → s.Reachable i := by
  have root : ∀ {kind : Node → Prop}, ¬kind ((booted [] [1]).inode 1) → ¬(booted [] [1]).Enters 1 kind (.mkdir [47, 97]) := by
    rintro kind other ⟨dp, name, leads, same, _⟩
    have resolved : (booted [] [1]).resolve 1 [47, 97] true = some (1, [97]) := rfl
    cases resolved.symm.trans leads
    exact other same
  have shallow : ¬Deep ((booted [] [1]).inode 1) := by
    unfold Deep
    decide +kernel
  let s := (booted [] [1]).afterCall (.mkdir [47, 97])
  have run : Run (fun s event t => Counts s event t ∧ ¬s.Strays event.1 event.2 ∧ ¬s.Enters event.1 Deep event.2) (booted [] [1])
      [(1, .mkdir [47, 97])] s :=
    .cons ⟨afterCall_counts (by decide +kernel) id, root (by decide), root shallow⟩ (.nil s)
  refine ⟨s, run, names_reach (by decide) (by decide) run (fun p fd => ?_) fun p d current => ?_⟩
  · have closed : s.ofile = fun _ _ => none := rfl
    rw [closed]
  · have home : s.cwd = (booted [] [1]).cwd := rfl
    rw [home] at current
    change (if p ∈ [1] then some ROOTINO else none) = some d at current
    split at current
    · exact (Option.some.inj current).symm
    · exact nomatch current

end Kept

/-! ## What goes wrong -/

/-- A call other than `link` that leaves few links. -/
def Names.quietStep (s : Names) (event : Nat × NameCall) : Option Names :=
  match event.2 with
  | .link _ _ => none
  | _ => (s.step event).filter fun t => (List.range NINODES).all fun i => (t.inode i).nlink < 32767

/-- Such a call makes no count wrap around. -/
theorem quietStep_counts {s t : Names} {event : Nat × NameCall} (taken : s.quietStep event = some t) :
    Counts s event t ∧ ∀ i < NINODES, (t.inode i).nlink < 32767 := by
  obtain ⟨p, call⟩ := event
  have quiet : (s.step (p, call)).filter (fun t => (List.range NINODES).all fun i => (t.inode i).nlink < 32767) = some t ∧
      ¬s.Overflows p call := by
    cases call with
    | link old new => exact nomatch taken
    | «open» | mkdir | mknod | unlink | close | chdir => exact ⟨taken, id⟩
  obtain ⟨stepped, few⟩ := Option.filter_eq_some_iff.mp quiet.1
  exact ⟨⟨quiet.2, stepped⟩, fun i low => of_decide_eq_true (List.all_eq_true.mp few i (List.mem_range.mpr low))⟩

/-- The code panics because an inode is free. -/
def panicsNoType {α : Type} : Except String α → Bool
  | .error message => message == noType
  | .ok _ => false

/-- Such a panic. -/
theorem panicsNoType_eq {α : Type} {x : Except String α} (panics : panicsNoType x = true) : x = .error noType := by
  cases x with
  | ok value => exact nomatch panics
  | error message => exact congrArg Except.error (eq_of_beq panics)

/-- A process removes its current directory and then the parent of it. -/
theorem parent_dangles : ∃ events s,
    Run (fun s event t => Counts s event t ∧ ∀ i < NINODES, (t.inode i).nlink < 32767) (booted [] [1]) events s ∧
      s.cwd 1 = some 3 ∧ (s.inode 3).type = T_DIR ∧ (s.inode 3).entries[1]? = some ⟨2, dotdot⟩ ∧ (s.inode 2).type = 0 ∧
      s.call 1 (.open dotdot false true) = .error noType := by
  let events : List (Nat × NameCall) :=
    [(1, .mkdir [47, 97]), (1, .mkdir [47, 97, 47, 98]), (1, .chdir [47, 97, 47, 98]), (1, .unlink [47, 97, 47, 98]),
      (1, .unlink [47, 97])]
  have executed : ((Run.exec Names.quietStep events (booted [] [1])).any fun s =>
      decide (s.cwd 1 = some 3 ∧ (s.inode 3).type = T_DIR ∧ (s.inode 3).entries[1]? = some ⟨2, dotdot⟩ ∧ (s.inode 2).type = 0) &&
        panicsNoType (s.call 1 (.open dotdot false true))) = true := by
    decide +kernel
  obtain ⟨s, last, holds⟩ := (Option.any_eq_true ..).mp executed
  obtain ⟨left, panics⟩ := Bool.and_eq_true_iff.mp holds
  obtain ⟨cwd, dir, up, free⟩ := of_decide_eq_true left
  exact ⟨events, s, (Run.of_exec last).mono fun _ _ _ => quietStep_counts, cwd, dir, up, free, panicsNoType_eq panics⟩

/-- A process makes a directory in a directory that it has removed, and leaves it. -/
def leavingEvents : List (Nat × NameCall) :=
  [(1, .mkdir [47, 97]), (1, .chdir [47, 97]), (1, .unlink [47, 97]), (1, .mkdir [98]), (1, .chdir [47])]

/-- The state after it has left. -/
def leavingState : Names := (Run.exec Names.quietStep leavingEvents (booted [] [1])).getD (booted [] [1])

set_option maxRecDepth 20000 in
/-- Then it is in the root and has no open file. -/
theorem leavingState_process : leavingState.ofile = (fun _ _ => none) ∧
    leavingState.cwd = Function.update (Function.update (booted [] [1]).cwd 1 (some 2)) 1 (some 1) := ⟨rfl, rfl⟩

/-- An inode that is not free and that the names of the root do not lead to. -/
theorem child_lost : ∃ events s,
    Run (fun s event t => Counts s event t ∧ ∀ i < NINODES, (t.inode i).nlink < 32767) (booted [] [1]) events s ∧
      (∀ p fd, s.ofile p fd = none) ∧ (∀ p d, s.cwd p = some d → d = ROOTINO) ∧ (s.inode 3).type ≠ 0 ∧ ¬s.Reachable 3 := by
  have returned : (Run.exec Names.quietStep leavingEvents (booted [] [1])).isSome = true := by decide +kernel
  have last : Run.exec Names.quietStep leavingEvents (booted [] [1]) = some leavingState := by
    obtain ⟨s, last⟩ := Option.isSome_iff_exists.mp returned
    unfold leavingState
    rw [last]
    rfl
  have root : ((leavingState.inode ROOTINO).entries.all fun e => e.inum = 0 ∨ e.inum = ROOTINO) = true := by decide +kernel
  refine ⟨leavingEvents, leavingState, (Run.of_exec last).mono fun _ _ _ => quietStep_counts, fun p fd => ?_,
    fun p d current => ?_, by decide +kernel, fun reachable => ?_⟩
  · rw [leavingState_process.1]
  · rw [leavingState_process.2, Function.update_idem, Function.update_apply] at current
    split at current
    · exact (Option.some.inj current).symm
    · change (if p ∈ [1] then some ROOTINO else none) = some d at current
      split at current
      · exact (Option.some.inj current).symm
      · exact nomatch current
  · have only : ∀ i, leavingState.Reachable i → i = ROOTINO := by
      intro i reachable
      induction reachable with
      | root => rfl
      | entry _ _ member nonzero ih =>
        rw [ih] at member
        exact (of_decide_eq_true (List.all_eq_true.mp root _ member)).resolve_left nonzero
    exact absurd (only 3 reachable) (by decide)

end Xv6
