import Xv6.Verif.Classes

/-!
# Places in the queues

As long as an empty node is left whenever a group takes one, every group that is not in the
stride class has a used node of its pid, and its master points to it.
-/

namespace Xv6

open Occupancy

/-- A group has a used node and its master points to it. -/
def HasNode (s : System) (m : Lwp) : Prop :=
  (s.proc m).schedstate = .mlfq ∧ ∃ n, (s.proc m).pmlfqNode = some n ∧ (s.node n).state = .used ∧
    (s.node n).pid = (s.proc m).pid

/-- What holds of the queues while nodes are left. -/
structure Placed (s : System) : Prop where
  /-- A group that is not in the stride class has a node. -/
  placed : ∀ m, Leads s m → (s.proc m).schedstate ≠ .stride → HasNode s m
  /-- There are no more used nodes than slots. -/
  room : s.usedNodes ≤ NPROC

/-- The step takes a node of the first queue: `fork` and `thread_create` when `allocproc` finds a
slot, and `exec` of an LWP that is no master. -/
def TakesNode (s : System) (event : Event) : Prop :=
  (∃ q, event = .fork q true) ∧ (∃ q, (s.proc q).state = .unused) ∨
    (∃ q outcome, event = .threadCreate q outcome) ∨ ∃ q, event = .exec q ∧ (s.proc q).tid ≠ 1

section Placing

variable {s t u : System} {p q np : Lwp} {pid : Nat} {n n' : NodeRef}

/-- The node of a group is as before. -/
theorem HasNode.congr {m : Lwp} (has : HasNode s m) (same : (s.proc m).SameMember (t.proc m))
    (node : ∀ n, (s.node n).state = .used → (s.node n).pid = (s.proc m).pid →
      (t.node n).state = .used ∧ (t.node n).pid = (s.node n).pid) : HasNode t m := by
  obtain ⟨queued, n, points, used, owner⟩ := has
  obtain ⟨still, pid⟩ := node n used owner
  refine ⟨same.schedstate.trans queued, n, same.pmlfqNode.trans points, still, ?_⟩
  rw [pid, same.pid]
  exact owner

/-- Slots were given up, and the nodes of the groups that are left are used as before. -/
theorem Placed.fewer (placed : Placed s) (slots : ∀ q, (t.proc q).state ≠ .unused → (s.proc q).SameMember (t.proc q))
    (nodes : ∀ m, Leads t m → ∀ n, (s.node n).state = .used → (s.node n).pid = (s.proc m).pid →
      (t.node n).state = .used ∧ (t.node n).pid = (s.node n).pid)
    (room : t.usedNodes ≤ s.usedNodes) : Placed t := by
  refine ⟨fun m leader out => ?_, Nat.le_trans room placed.room⟩
  have same := slots m leader.2
  rw [same.schedstate] at out
  exact (placed.placed m ⟨same.tid.symm.trans leader.1, same.taken⟩ out).congr same (nodes m leader)

/-- Slots were given up at most, and the nodes are the same. -/
theorem Placed.congr (placed : Placed s) (slots : ∀ q, (t.proc q).state ≠ .unused → (s.proc q).SameMember (t.proc q))
    (nodes : SameNodes s t) : Placed t := by
  refine placed.fewer slots (fun m _ n used _ => ?_) (Nat.le_of_eq nodes.usedNodes)
  rw [(nodes n).2.1, (nodes n).2.2]
  exact ⟨used, rfl⟩

/-- Slots were given up at most. -/
theorem Placed.retains (placed : Placed s) (retains : Retains s t) : Placed t :=
  placed.congr retains.slots (.of_eq retains.node)

/-- A pid moves from one node to another. -/
theorem Placed.move (placed : Placed s) (queues : Queues s) (positive : 0 < pid) (empties : Empties s pid n u)
    (fills : Fills u pid n' t) : Placed t := by
  obtain ⟨_, used, _⟩ := queues.empties empties positive
  refine ⟨fun m leader out => ?_, ?_⟩
  · have before := empties.proc m
    have after := fills.proc m
    by_cases mine : (s.proc m).pid = pid
    · rw [if_pos mine] at before
      have still : (u.proc m).pid = pid := by
        rw [before]
        exact mine
      rw [if_pos still] at after
      refine ⟨?_, n', ?_, ?_, ?_⟩
      · rw [after]
      · rw [after]
      · rw [fills.node]
      · rw [fills.node, after]
        exact still.symm
    · rw [if_neg mine] at before
      rw [if_neg (by rw [before]; exact mine), before] at after
      have leads : Leads s m := by
        unfold Leads at leader ⊢
        rw [after] at leader
        exact leader
      rw [after] at out
      refine (placed.placed m leads out).congr (.of_eq after (by rw [after]; exact leads.2)) ?_
      intro k busy owner
      have other : k ≠ n := by
        rintro rfl
        exact mine (owner.symm.trans empties.found)
      have kept := empties.others k other
      have away : k ≠ n' := by
        rintro rfl
        have free := fills.free
        rw [kept, busy] at free
        contradiction
      rw [fills.others k away, kept]
      exact ⟨busy, rfl⟩
  · rw [fills.usedNodes, ← empties.usedNodes used]
    exact placed.room

/-- Moves between queues. -/
theorem Placed.requeues (requeues : Requeues s t) (placed : Placed s) (queues : Queues s) (classed : Classed s)
    (positive : ∀ q, (s.proc q).state ≠ .unused → 0 < (s.proc q).pid) : Placed t := by
  induction requeues with
  | nil => exact placed
  | @tick s t u ticked _ ih =>
    obtain ⟨queues', classed'⟩ := Queues.requeues ticked.requeues queues classed positive
    refine ih (placed.congr (fun q taken => .of_eq (congrFun ticked.proc q) taken) ticked.nodes) queues' classed' ?_
    rw [ticked.proc]
    exact positive
  | @move s t u pid prior known popped rest ih =>
    have moved : Requeues s (t.pushMlfq pid prior) := .move pid prior known popped (.nil _)
    obtain ⟨queues', classed'⟩ := Queues.requeues moved queues classed positive
    have above := queues.positive_of_known known
    obtain ⟨n, empties⟩ := popMlfq_empties popped
    obtain ⟨cleared, used, _⟩ := queues.empties empties above
    have room : t.usedNodes < NPROC := by
      have before := placed.room
      rw [empties.usedNodes used] at before
      omega
    refine ih ?_ queues' classed' fun q taken => ?_
    · rcases pushMlfq_fills t pid prior with ⟨i, fills⟩ | ⟨full, _⟩
      · exact placed.move queues above empties fills
      · obtain ⟨i, free⟩ := cleared.room room prior
        exact absurd free (full i)
    · obtain ⟨_, _, slot⟩ := moved.slot q
      rw [slot] at taken ⊢
      exact positive q taken

/-- A group is founded while a node is left. -/
theorem Placed.founds (placed : Placed s) (queues : Queues s) (founds : Founds s p t) (room : s.usedNodes < NPROC) :
    Placed t := by
  rcases founds.node with ⟨i, fills, queued, points⟩ | ⟨full, _, _⟩
  · refine ⟨fun m leader out => ?_, ?_⟩
    · by_cases here : m = p
      · rw [here]
        refine ⟨queued, (0, i), points, ?_, ?_⟩
        · rw [fills.node]
        · rw [fills.node]
          exact founds.pid.symm
      · have same := founds.others m here
        have leads : Leads s m := by
          unfold Leads at leader ⊢
          rw [same] at leader
          exact leader
        rw [same] at out
        refine (placed.placed m leads out).congr (.of_eq same (by rw [same]; exact leads.2)) ?_
        intro k busy _
        have away : k ≠ (0, i) := by
          rintro rfl
          have free := fills.free
          rw [busy] at free
          contradiction
        rw [fills.others k away]
        exact ⟨busy, rfl⟩
    · rw [fills.usedNodes]
      exact room
  · obtain ⟨i, free⟩ := queues.room room 0
    exact absurd free (full i)

/-- `thread_create` gives back the node it took. -/
theorem Creates.nodes (creates : Creates s p np t) (queues : Queues s) (room : s.usedNodes < NPROC) : SameNodes s t := by
  obtain ⟨n, prior, state, pid, others, free⟩ := creates.node
  have empty : (s.node n).state = .empty := by
    rcases free with free | full
    · exact free
    · obtain ⟨i, left⟩ := queues.room room 0
      exact absurd left (full i)
  have zero : (s.node n).pid = 0 := by
    refine (queues.idle n ?_).2
    rw [empty]
    exact StrideState.noConfusion
  intro n'
  by_cases here : n' = n
  · rw [here]
    exact ⟨prior, state.trans empty.symm, pid.trans zero.symm⟩
  · rw [others n' here]
    exact ⟨rfl, rfl, rfl⟩

/-- `thread_create` while a node is left. -/
theorem Placed.creates (placed : Placed s) (queues : Queues s) (creates : Creates s p np t) (room : s.usedNodes < NPROC) :
    Placed t := by
  have nodes := creates.nodes queues room
  refine ⟨fun m leader out => ?_, Nat.le_trans (Nat.le_of_eq nodes.usedNodes) placed.room⟩
  have other : m ≠ np := by
    rintro rfl
    rcases creates.slot with unused | ⟨_, _, thread, _⟩
    · exact leader.2 unused
    · have whole := leader.1
      omega
  obtain ⟨sz, stack, slot⟩ := creates.others m other
  have same : (s.proc m).SameMember (t.proc m) := by
    have taken := leader.2
    rw [slot] at taken ⊢
    exact ⟨⟨rfl, rfl, rfl⟩, rfl, rfl, taken⟩
  rw [same.schedstate] at out
  refine (placed.placed m ⟨same.tid.symm.trans leader.1, same.taken⟩ out).congr same fun n used _ => ?_
  rw [(nodes n).2.1, (nodes n).2.2]
  exact ⟨used, rfl⟩

/-- Deleting a zombie keeps the nodes of the groups that are left. -/
theorem Placed.deleteThread_node (placed : Placed s) (ranked : Ranked s) (zombie : (s.proc p).state = .zombie)
    (deleted : s.deleteThread p = some t) {m : Lwp} (leader : Leads t m) (mine : (s.node n).pid = (s.proc m).pid) :
    t.node n = s.node n := by
  cases deleteThread_drops deleted with
  | none _ nodes _ => exact System.node_congr nodes n
  | entry _ _ _ _ nodes _ => exact System.node_congr nodes n
  | node n' whole queued point _ others _ _ =>
    have leads : Leads s p := ⟨whole, by rw [zombie]; exact RunState.noConfusion⟩
    have out : (s.proc p).schedstate ≠ .stride := by
      rw [queued]
      exact StrideState.noConfusion
    obtain ⟨_, k, points, _, owner⟩ := placed.placed p leads out
    rw [point] at points
    cases points
    refine others n ?_
    rintro rfl
    have same := deleteThread_members deleted leader.2
    have here := ranked.masters p m leads ⟨same.tid.symm.trans leader.1, same.taken⟩ (owner.symm.trans mine)
    rw [← here] at leader
    exact leader.2 (System.deleteThread_self deleted).1

/-- A zombie is deleted. -/
theorem Placed.deleteThread (placed : Placed s) (ranked : Ranked s) (zombie : (s.proc p).state = .zombie)
    (deleted : s.deleteThread p = some t) : Placed t := by
  refine placed.fewer (fun q => deleteThread_members deleted) (fun m leader k busy mine => ?_) ?_
  · rw [placed.deleteThread_node ranked zombie deleted leader mine]
    exact ⟨busy, rfl⟩
  · refine count_mono fun k busy => ?_
    cases deleteThread_drops deleted with
    | none _ nodes _ => rwa [System.node_congr nodes k] at busy
    | entry _ _ _ _ nodes _ => rwa [System.node_congr nodes k] at busy
    | node n _ _ _ node others _ _ =>
      have away : k ≠ n := by
        rintro rfl
        rw [node] at busy
        contradiction
      rwa [others k away] at busy

/-- Zombies are deleted. -/
theorem Placed.reaps (reaps : Reaps s t) (placed : Placed s) (ranked : Ranked s) : Placed t := by
  induction reaps with
  | calm calm => exact placed.retains (.of_calm calm)
  | reap q before zombie deleted _ ih =>
    have between := ranked.congr before.groups
    exact ih ((placed.retains (.of_calm before)).deleteThread between zombie deleted)
      (between.deleteThread zombie deleted)

/-- `set_cpu_share` keeps the slots and the nodes of other groups. -/
theorem shareUpdate_away {m master : Lwp} {inquire minPass : Int}
    (updated : s.shareUpdate master inquire minPass = some t) (apart : (s.proc m).pid ≠ (s.proc master).pid) :
    t.proc m = s.proc m ∧ ∀ n, (s.node n).pid = (s.proc m).pid → t.node n = s.node n := by
  obtain ⟨v, e, popped, shares⟩ := shareUpdate_shares updated
  have before : v.proc m = s.proc m ∧ ∀ n, (s.node n).pid = (s.proc m).pid → v.node n = s.node n := by
    rcases popped with ⟨n, empties⟩ | ⟨rfl, _⟩
    · refine ⟨(empties.proc m).trans (if_neg apart), fun k owner => empties.others k ?_⟩
      rintro rfl
      exact apart (owner.symm.trans empties.found)
    · exact ⟨rfl, fun _ _ => rfl⟩
  have slot := shares.proc m
  rw [before.1, if_neg apart] at slot
  refine ⟨slot, fun n owner => ?_⟩
  rw [System.node_congr shares.mTable, before.2 n owner]

/-- A group moves to the stride class. -/
theorem Placed.shareUpdate (placed : Placed s) (queues : Queues s) {master : Lwp} {inquire minPass : Int}
    (positive : 0 < (s.proc master).pid) (updated : s.shareUpdate master inquire minPass = some t) : Placed t := by
  obtain ⟨v, e, popped, shares⟩ := shareUpdate_shares updated
  have nodes := System.node_congr shares.mTable
  have fewer : v.usedNodes ≤ s.usedNodes := by
    rcases popped with ⟨n, empties⟩ | ⟨rfl, _⟩
    · rw [empties.usedNodes (queues.empties empties positive).2.1]
      exact Nat.le_succ _
    · exact Nat.le_refl _
  have pids : ∀ q, (v.proc q).pid = (s.proc q).pid := by
    intro q
    rcases popped with ⟨n, empties⟩ | ⟨rfl, _⟩
    · rw [empties.proc q]
      split
      · rfl
      · rfl
    · rfl
  refine ⟨fun m leader out => ?_, ?_⟩
  · by_cases mine : (s.proc m).pid = (s.proc master).pid
    · have after := shares.proc m
      rw [if_pos ((pids m).trans mine)] at after
      rw [after] at out
      exact absurd rfl out
    · obtain ⟨after, kept⟩ := shareUpdate_away updated mine
      have leads : Leads s m := by
        unfold Leads at leader ⊢
        rw [after] at leader
        exact leader
      rw [after] at out
      refine (placed.placed m leads out).congr (.of_eq after (by rw [after]; exact leads.2)) ?_
      intro k busy owner
      rw [kept k owner]
      exact ⟨busy, rfl⟩
  · rw [show t.usedNodes = v.usedNodes from (SameNodes.of_eq nodes).usedNodes]
    exact Nat.le_trans fewer placed.room

/-- Every step that takes a node only while one is left keeps the places. -/
theorem Placed.step {event : Event} (placed : Placed s) (queues : Queues s) (classed : Classed s) (ranked : Ranked s)
    (moves : MovesGroup s event) (room : TakesNode s event → s.usedNodes < NPROC) (tables : TableStep s event t) :
    Placed t := by
  cases tables with
  | kept _ retains => exact placed.retains retains
  | reaps u _ _ reaps retains => exact (placed.reaps reaps ranked).retains retains
  | founds p u v _ calm founds _ retains which =>
    have before := Retains.of_calm calm
    refine ((placed.retains before).founds (queues.retains before) founds ?_).retains retains
    rw [show u.usedNodes = s.usedNodes from (SameNodes.of_eq calm.classes.node).usedNodes]
    refine room ?_
    rcases which with ⟨forks, _, unused⟩ | ⟨execs, _, thread⟩
    · exact .inl ⟨forks, p, unused⟩
    · exact .inr (.inr ⟨p, execs, thread⟩)
  | creates p np outcome _ creates => exact placed.creates queues creates (room (.inr (.inl ⟨p, outcome, rfl⟩)))
  | shares p master inquire minPass u started call updated retains =>
    exact (placed.shareUpdate queues (moves p master inquire minPass rfl started call) updated).retains retains
  | ticks p u _ charges requeues =>
    have nodes : SameNodes s u := .of_eq (System.node_congr charges.mTable)
    refine Placed.requeues requeues ?_ ?_ ?_ ?_
    · exact placed.congr (fun q taken => .of_eq (congrFun charges.proc q) taken) nodes
    · exact queues.congr nodes (Nat.le_of_eq charges.nextpid.symm)
    · exact classed.congr ranked.positive (fun q taken => .of_eq (congrFun charges.proc q) taken) nodes charges.entry
    · rw [charges.proc]
      exact ranked.positive

/-- The first process has a node. -/
theorem Placed.userinit (d : Nat) : Placed (System.userinit d) := by
  have empty : Placed System.emptyTables := by
    refine ⟨fun m leader => absurd rfl leader.2, ?_⟩
    have none : System.emptyTables.usedNodes = 0 := count_zero.mpr fun n used => StrideState.noConfusion used
    rw [none]
    exact Nat.zero_le _
  obtain ⟨founds, _⟩ := allocproc_founds Grouped.emptyTables.fresh 0
  obtain ⟨others, slot, mTable, _⟩ := userinit_slots d
  have room : System.emptyTables.usedNodes < NPROC := by
    have none : System.emptyTables.usedNodes = 0 := count_zero.mpr fun n used => StrideState.noConfusion used
    rw [none]
    decide
  refine (empty.founds .emptyTables founds room).congr (fun q taken => ?_) (.of_eq (System.node_congr mTable))
  have here : q = 0 := by
    by_contra other
    exact taken (others q other)
  rw [here, slot]
  exact ⟨⟨rfl, rfl, rfl⟩, rfl, rfl, founds.taken⟩

end Placing

end Xv6
