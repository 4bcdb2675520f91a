import Mathlib.Data.Set.Function
import Xv6.Lib.Runs
import Xv6.Verif.Placing

/-!
# One node for each group

In runs in which no `fork` fails after it has taken a slot, and in which a master calls
`thread_exit` only as the last of its group, the used nodes belong to the groups in the queues,
one to each. A node is then left whenever one is taken.
-/

namespace Xv6

open Occupancy

/-- A step in which no `fork` fails in `copyuvm` and a master calls `thread_exit` only as the last
slot of its group. -/
def wholeStep (s : System) (event : Event) (t : System) : Prop :=
  s.step event = some t ∧ (∀ p begun, event ≠ .forkCopy p (.failed begun)) ∧
    ∀ p retval, event = .threadExit p retval → (s.proc p).tid = 1 →
      ∀ q, q ≠ p → (s.proc q).state ≠ .unused → (s.proc q).pid ≠ (s.proc p).pid

instance (s : System) (m : Lwp) : Decidable (Leads s m) := inferInstanceAs (Decidable (_ ∧ _))

/-- Every group has its master, until the master is the last one. -/
structure Led (s : System) : Prop where
  /-- A slot that is taken points to the master of its group. -/
  led : ∀ p, (s.proc p).state ≠ .unused →
    ∃ m, (s.proc p).master = some m ∧ Leads s m ∧ (s.proc m).pid = (s.proc p).pid
  /-- A master that has ended is the last of its group. -/
  last : ∀ m, (s.proc m).state = .zombie → (s.proc m).tid = 1 →
    ∀ q, q ≠ m → (s.proc q).state ≠ .unused → (s.proc q).pid ≠ (s.proc m).pid

/-- Every used node belongs to a group. -/
def Manned (s : System) : Prop :=
  ∀ n, (s.node n).state = .used → ∃ m, Leads s m ∧ (s.proc m).pid = (s.node n).pid

section Led

variable {s t u : System} {p q np m : Lwp}

/-- The slots that are taken are the same members, and no slot became a zombie. -/
theorem Led.frame (led : Led s) (slots : ∀ q, (t.proc q).state ≠ .unused → (t.proc q).pid = (s.proc q).pid ∧
      (t.proc q).tid = (s.proc q).tid ∧ (t.proc q).master = (s.proc q).master)
    (unused : ∀ q, (t.proc q).state = .unused ↔ (s.proc q).state = .unused)
    (zombies : ∀ q, (t.proc q).state = .zombie → (s.proc q).state = .zombie) : Led t where
  led p taken := by
    obtain ⟨m, master, leader, pid⟩ := led.led p fun was => taken ((unused p).mpr was)
    have stays : (t.proc m).state ≠ .unused := fun now => leader.2 ((unused m).mp now)
    refine ⟨m, (slots p taken).2.2.trans master, ⟨(slots m stays).2.1.trans leader.1, stays⟩, ?_⟩
    rw [(slots m stays).1, (slots p taken).1]
    exact pid
  last m zombie whole q other taken := by
    have stays : (t.proc m).state ≠ .unused := by
      rw [zombie]
      exact RunState.noConfusion
    rw [(slots q taken).1, (slots m stays).1]
    exact led.last m (zombies m zombie) ((slots m stays).2.1.symm.trans whole) q other fun was => taken ((unused q).mpr was)

/-- A change of nothing that groups depend on. -/
theorem Led.congr (led : Led s) (same : SameGroups s t) : Led t :=
  led.frame (fun q _ => ⟨(same.proc q).pid, (same.proc q).tid, (same.proc q).master⟩)
    (fun q => (same.proc q).state_iff rfl) (fun q => ((same.proc q).state_iff rfl).mp)

/-- One slot changed. -/
theorem Led.of_slot (led : Led s) (others : ∀ q, q ≠ p → t.proc q = s.proc q)
    (slot : (s.proc p).state = .unused ∧ (t.proc p).state = .unused ∨
      (s.proc p).state ≠ .unused ∧ (t.proc p).state.started = true ∧ (t.proc p).pid = (s.proc p).pid ∧
        (t.proc p).tid = (s.proc p).tid ∧ (t.proc p).master = (s.proc p).master) : Led t := by
  refine led.frame (fun q taken => ?_) (fun q => ?_) (fun q dead => ?_)
  · by_cases here : q = p
    · rw [here] at taken ⊢
      rcases slot with ⟨_, unused⟩ | ⟨_, _, same⟩
      · exact absurd unused taken
      · exact same
    · rw [others q here]
      exact ⟨rfl, rfl, rfl⟩
  · by_cases here : q = p
    · rw [here]
      rcases slot with ⟨before, after⟩ | ⟨before, after, _⟩
      · exact ⟨fun _ => before, fun _ => after⟩
      · refine ⟨fun unused => ?_, fun unused => absurd unused before⟩
        rw [unused] at after
        contradiction
    · rw [others q here]
  · by_cases here : q = p
    · rw [here] at dead
      rcases slot with ⟨_, unused⟩ | ⟨_, alive, _⟩
      · rw [unused] at dead
        contradiction
      · exact absurd dead (RunState.not_zombie alive)
    · rw [others q here] at dead
      exact dead

/-- The slots are the same. -/
theorem Led.of_eq (led : Led s) (same : t.proc = s.proc) : Led t :=
  led.frame (fun q _ => by rw [same]; exact ⟨rfl, rfl, rfl⟩) (fun q => by rw [same]) (fun q => by rw [same]; exact id)

/-- A group is founded by a slot that was no master. -/
theorem Led.founds (led : Led s) (fresh : ∀ q, (s.proc q).pid < s.nextpid) (founds : Founds s p t)
    (own : (t.proc p).master = some p) (alive : (t.proc p).state ≠ .zombie) (thread : ¬Leads s p) : Led t where
  led q taken := by
    by_cases here : q = p
    · rw [here]
      exact ⟨p, own, ⟨founds.tid, founds.taken⟩, rfl⟩
    · rw [founds.others q here] at taken ⊢
      obtain ⟨m, master, leader, pid⟩ := led.led q taken
      have away : m ≠ p := by
        rintro rfl
        exact thread leader
      refine ⟨m, master, ?_⟩
      unfold Leads
      rw [founds.others m away]
      exact ⟨leader, pid⟩
  last m zombie whole q other taken := by
    have away : m ≠ p := by
      rintro rfl
      exact alive zombie
    rw [founds.others m away] at zombie whole ⊢
    by_cases here : q = p
    · rw [here, founds.pid]
      exact (Nat.ne_of_lt (fresh m)).symm
    · rw [founds.others q here] at taken ⊢
      exact led.last m zombie whole q other taken

/-- `thread_create`. -/
theorem Led.creates (led : Led s) (grouped : Grouped s) (started : (s.proc p).state.started = true)
    (creates : Creates s p np t) : Led t := by
  have others : ∀ q, q ≠ np → (t.proc q).pid = (s.proc q).pid ∧ (t.proc q).tid = (s.proc q).tid ∧
      (t.proc q).master = (s.proc q).master ∧ (t.proc q).state = (s.proc q).state := by
    intro q other
    obtain ⟨sz, stack, slot⟩ := creates.others q other
    rw [slot]
    exact ⟨rfl, rfl, rfl, rfl⟩
  have leads : ∀ m, Leads s m → m ≠ np ∧ Leads t m ∧ (t.proc m).pid = (s.proc m).pid := by
    intro m leader
    have away : m ≠ np := by
      rintro rfl
      exact leader.2 creates.unused
    obtain ⟨pid, tid, _, state⟩ := others m away
    exact ⟨away, ⟨tid.trans leader.1, by rw [state]; exact leader.2⟩, pid⟩
  refine ⟨fun q taken => ?_, fun m zombie whole q other taken => ?_⟩
  · by_cases here : q = np
    · rw [here] at taken ⊢
      rcases creates.slot with unused | ⟨m, points, _, pid, master, _, _⟩
      · exact absurd unused taken
      · obtain ⟨m', points', tid, same, alive⟩ := grouped.master p started
        rw [points] at points'
        cases points'
        have leader : Leads s m := by
          refine ⟨tid, fun unused => ?_⟩
          rw [unused] at alive
          contradiction
        obtain ⟨_, after, kept⟩ := leads m leader
        exact ⟨m, master, after, by rw [kept, pid]; exact same⟩
    · obtain ⟨pid, _, master, state⟩ := others q here
      rw [state] at taken
      obtain ⟨m, points, leader, same⟩ := led.led q taken
      obtain ⟨_, after, kept⟩ := leads m leader
      exact ⟨m, master.trans points, after, by rw [kept, pid]; exact same⟩
  · have away : m ≠ np := by
      rintro rfl
      rcases creates.slot with unused | ⟨_, _, thread, _⟩
      · rw [zombie] at unused
        contradiction
      · omega
    obtain ⟨pid, tid, _, state⟩ := others m away
    rw [state] at zombie
    rw [tid] at whole
    rw [pid]
    by_cases here : q = np
    · rw [here] at taken ⊢
      rcases creates.slot with unused | ⟨_, _, _, joined, _⟩
      · exact absurd unused taken
      · rw [joined]
        refine led.last m zombie whole p ?_ ?_
        · rintro rfl
          exact RunState.not_zombie started zombie
        · intro unused
          rw [unused] at started
          contradiction
    · obtain ⟨same, _, _, still⟩ := others q here
      rw [same]
      rw [still] at taken
      exact led.last m zombie whole q other taken

/-- A started LWP becomes a zombie, a master as the last of its group. -/
theorem Led.zombie (led : Led s) (started : (s.proc p).state.started = true)
    (last : (s.proc p).tid = 1 → ∀ q, q ≠ p → (s.proc q).state ≠ .unused → (s.proc q).pid ≠ (s.proc p).pid) :
    Led (s.zombie p) := by
  have self : (s.zombie p).proc p = { s.proc p with state := .zombie } := System.setProc_self _ _ _
  have others : ∀ q, q ≠ p → (s.zombie p).proc q = s.proc q := fun q other => System.setProc_other _ _ other
  have slots : ∀ q, ((s.zombie p).proc q).pid = (s.proc q).pid ∧ ((s.zombie p).proc q).tid = (s.proc q).tid ∧
      ((s.zombie p).proc q).master = (s.proc q).master ∧
      (((s.zombie p).proc q).state = .unused ↔ (s.proc q).state = .unused) := by
    intro q
    by_cases here : q = p
    · rw [here, self]
      refine ⟨rfl, rfl, rfl, fun dead => absurd dead RunState.noConfusion, fun unused => ?_⟩
      rw [unused] at started
      contradiction
    · rw [others q here]
      exact ⟨rfl, rfl, rfl, Iff.rfl⟩
  refine ⟨fun q taken => ?_, fun m dead whole q other taken => ?_⟩
  · obtain ⟨m, master, leader, pid⟩ := led.led q fun unused => taken ((slots q).2.2.2.mpr unused)
    refine ⟨m, (slots q).2.2.1.trans master, ⟨(slots m).2.1.trans leader.1, fun now => leader.2 ((slots m).2.2.2.mp now)⟩, ?_⟩
    rw [(slots m).1, (slots q).1]
    exact pid
  · have taken : (s.proc q).state ≠ .unused := fun unused => taken ((slots q).2.2.2.mpr unused)
    rw [(slots m).2.1] at whole
    rw [(slots m).1, (slots q).1]
    by_cases here : m = p
    · rw [here] at whole other ⊢
      exact last whole q other taken
    · rw [others m here] at dead
      exact led.last m dead whole q other taken

/-- A zombie is deleted. -/
theorem Led.deleteThread (led : Led s) (zombie : (s.proc p).state = .zombie) (deleted : s.deleteThread p = some t) :
    Led t := by
  have gone := (System.deleteThread_self deleted).1
  have kept : ∀ q, (t.proc q).state ≠ .unused → q ≠ p ∧ ∃ stack, t.proc q = { s.proc q with stack } := by
    intro q taken
    have other : q ≠ p := by
      rintro rfl
      exact taken gone
    exact ⟨other, System.deleteThread_other deleted other⟩
  refine ⟨fun q taken => ?_, fun m dead whole q other taken => ?_⟩
  · obtain ⟨here, stack, slot⟩ := kept q taken
    rw [slot] at taken ⊢
    obtain ⟨m, master, leader, pid⟩ := led.led q taken
    have away : m ≠ p := by
      rintro rfl
      exact led.last m zombie leader.1 q here taken pid.symm
    obtain ⟨stack', slot'⟩ := System.deleteThread_other deleted away
    refine ⟨m, master, ?_⟩
    unfold Leads
    rw [slot']
    exact ⟨leader, pid⟩
  · obtain ⟨_, stack, slot⟩ := kept q taken
    obtain ⟨_, stack', slot'⟩ := kept m (by rw [dead]; exact RunState.noConfusion)
    rw [slot] at taken ⊢
    rw [slot'] at dead whole ⊢
    exact led.last m dead whole q other taken

/-- The master that ends in `exit` is the last of its group. -/
theorem Led.ends (led : Led s) (grouped : Grouped s) (started : (s.proc p).state.started = true)
    (gone : ∀ q, q ≠ p → (s.proc q).master = (s.proc p).master → (s.proc q).state = .unused)
    (whole : (s.proc p).tid = 1) (other : q ≠ p) (taken : (s.proc q).state ≠ .unused) :
    (s.proc q).pid ≠ (s.proc p).pid := by
  intro same
  obtain ⟨m, master, leader, pid⟩ := led.led q taken
  have here := grouped.masters m p leader.1 whole (pid.trans same)
  rw [here] at master
  exact taken (gone q other (master.trans (grouped.own started whole).symm))

end Led

section Manned

variable {s t u : System} {p q np m : Lwp}

/-- Masters stay, and used nodes have pids of used nodes. -/
theorem Manned.frame (manned : Manned s)
    (leaders : ∀ m, Leads s m → Leads t m ∧ (t.proc m).pid = (s.proc m).pid)
    (nodes : ∀ n, (t.node n).state = .used → ∃ n', (s.node n').state = .used ∧ (s.node n').pid = (t.node n).pid) :
    Manned t := by
  intro n used
  obtain ⟨n', before, same⟩ := nodes n used
  obtain ⟨m, leader, pid⟩ := manned n' before
  obtain ⟨after, kept⟩ := leaders m leader
  exact ⟨m, after, kept.trans (pid.trans same)⟩

/-- The nodes are the same, and masters stay. -/
theorem Manned.congr (manned : Manned s)
    (leaders : ∀ m, Leads s m → Leads t m ∧ (t.proc m).pid = (s.proc m).pid) (nodes : SameNodes s t) : Manned t := by
  refine manned.frame leaders fun n used => ⟨n, ?_, (nodes n).2.2.symm⟩
  rw [← (nodes n).2.1]
  exact used

/-- A change of nothing that groups depend on. -/
theorem leads_of_groups (same : SameGroups s t) (m : Lwp) (leader : Leads s m) :
    Leads t m ∧ (t.proc m).pid = (s.proc m).pid :=
  ⟨⟨(same.proc m).tid.trans leader.1, fun unused => leader.2 (((same.proc m).state_iff rfl).mp unused)⟩, (same.proc m).pid⟩

/-- One slot changed that was no master or is one with its pid. -/
theorem leads_of_slot (others : ∀ q, q ≠ p → t.proc q = s.proc q)
    (slot : Leads s p → Leads t p ∧ (t.proc p).pid = (s.proc p).pid) (m : Lwp) (leader : Leads s m) :
    Leads t m ∧ (t.proc m).pid = (s.proc m).pid := by
  by_cases here : m = p
  · rw [here] at leader ⊢
    exact slot leader
  · unfold Leads
    rw [others m here]
    exact ⟨leader, rfl⟩

/-- A group is founded by a slot that was no master. -/
theorem Manned.founds (manned : Manned s) (founds : Founds s p t) (thread : ¬Leads s p) : Manned t := by
  have leaders := leads_of_slot founds.others fun leader => absurd leader thread
  rcases founds.node with ⟨i, fills, _⟩ | ⟨_, nodes, _⟩
  · intro n used
    by_cases here : n = (0, i)
    · rw [here, fills.node]
      exact ⟨p, ⟨founds.tid, founds.taken⟩, founds.pid⟩
    · rw [fills.others n here] at used ⊢
      obtain ⟨m, leader, pid⟩ := manned n used
      obtain ⟨after, kept⟩ := leaders m leader
      exact ⟨m, after, kept.trans pid⟩
  · exact manned.congr leaders (.of_eq nodes)

/-- `thread_create`. -/
theorem Manned.creates (manned : Manned s) (queues : Queues s) (room : s.usedNodes < NPROC)
    (creates : Creates s p np t) : Manned t := by
  refine manned.congr (fun m leader => ?_) (creates.nodes queues room)
  have away : m ≠ np := by
    rintro rfl
    exact leader.2 creates.unused
  obtain ⟨sz, stack, slot⟩ := creates.others m away
  unfold Leads
  rw [slot]
  exact ⟨leader, rfl⟩

/-- A zombie is deleted. -/
theorem Manned.deleteThread (manned : Manned s) (queues : Queues s) (classed : Classed s) (placed : Placed s)
    (zombie : (s.proc p).state = .zombie) (deleted : s.deleteThread p = some t) : Manned t := by
  have taken : (s.proc p).state ≠ .unused := by
    rw [zombie]
    exact RunState.noConfusion
  have kept : ∀ n, (t.node n).state = .used → (s.node n).state = .used ∧ (t.node n).pid = (s.node n).pid ∧
      (Leads s p → (s.node n).pid ≠ (s.proc p).pid) := by
    intro n used
    cases deleteThread_drops deleted with
    | none out nodes _ =>
      rw [System.node_congr nodes] at used ⊢
      refine ⟨used, rfl, fun leader => ?_⟩
      have loose : (s.proc p).schedstate ≠ .stride ∧ (s.proc p).schedstate ≠ .mlfq := by
        rcases out leader.1 with state | state
        · rw [state]
          exact ⟨StrideState.noConfusion, StrideState.noConfusion⟩
        · rw [state]
          exact ⟨StrideState.noConfusion, StrideState.noConfusion⟩
      exact absurd (placed.placed p leader loose.1).1 loose.2
    | node n' whole queued points node others _ _ =>
      have away : n ≠ n' := by
        rintro rfl
        rw [node] at used
        contradiction
      rw [others n away] at used ⊢
      refine ⟨used, rfl, fun leader same => ?_⟩
      obtain ⟨_, n'', points', busy, owner⟩ := placed.placed p leader (by rw [queued]; exact StrideState.noConfusion)
      rw [points] at points'
      cases points'
      exact away (queues.single n n' used busy (same.trans owner.symm))
    | entry _ _ stride _ nodes _ =>
      rw [System.node_congr nodes] at used ⊢
      exact ⟨used, rfl, fun leader => classed.unqueued p leader stride n⟩
  intro n used
  obtain ⟨before, same, stranger⟩ := kept n used
  obtain ⟨m, leader, pid⟩ := manned n before
  have away : m ≠ p := by
    rintro rfl
    exact stranger leader pid.symm
  obtain ⟨stack, slot⟩ := System.deleteThread_other deleted away
  refine ⟨m, ?_, ?_⟩
  · unfold Leads
    rw [slot]
    exact leader
  · rw [slot, same]
    exact pid

/-- Moves between queues. -/
theorem Manned.requeues (requeues : Requeues s t) (manned : Manned s) (queues : Queues s) (classed : Classed s)
    (positive : ∀ q, (s.proc q).state ≠ .unused → 0 < (s.proc q).pid) : Manned t := by
  have leaders : ∀ {s t : System}, Requeues s t → ∀ m, Leads s m → Leads t m ∧ (t.proc m).pid = (s.proc m).pid := by
    intro s t requeues m leader
    obtain ⟨_, _, slot⟩ := requeues.slot m
    unfold Leads
    rw [slot]
    exact ⟨leader, rfl⟩
  induction requeues with
  | nil => exact manned
  | @tick s t u ticked _ ih =>
    obtain ⟨queues', classed'⟩ := Queues.requeues ticked.requeues queues classed positive
    refine ih (manned.congr (leaders ticked.requeues) ticked.nodes) queues' classed' ?_
    rw [ticked.proc]
    exact positive
  | @move s t u pid prior known popped rest ih =>
    have moved : Requeues s (t.pushMlfq pid prior) := .move pid prior known popped (.nil _)
    obtain ⟨queues', classed'⟩ := Queues.requeues moved queues classed positive
    obtain ⟨n, empties⟩ := popMlfq_empties popped
    obtain ⟨_, used, _⟩ := queues.empties empties (queues.positive_of_known known)
    have old : ∀ n', (t.node n').state = .used → ∃ n'', (s.node n'').state = .used ∧ (s.node n'').pid = (t.node n').pid := by
      intro n' busy
      have away : n' ≠ n := by
        rintro rfl
        rw [empties.node] at busy
        contradiction
      rw [empties.others n' away] at busy ⊢
      exact ⟨n', busy, rfl⟩
    refine ih (manned.frame (leaders moved) fun n' busy => ?_) queues' classed' fun q taken => ?_
    · rcases pushMlfq_fills t pid prior with ⟨i, fills⟩ | ⟨_, same⟩
      · by_cases here : n' = (prior, i)
        · rw [here, fills.node]
          exact ⟨n, used, empties.found⟩
        · rw [fills.others n' here] at busy ⊢
          exact old n' busy
      · rw [same] at busy ⊢
        exact old n' busy
    · obtain ⟨_, _, slot⟩ := moved.slot q
      rw [slot] at taken ⊢
      exact positive q taken

/-- A group moves to the stride class. -/
theorem Manned.shareUpdate (manned : Manned s) {master : Lwp} {inquire minPass : Int}
    (updated : s.shareUpdate master inquire minPass = some t) : Manned t := by
  refine manned.frame (leads_of_groups (Sorted.shareUpdate updated).groups) fun n used => ?_
  obtain ⟨v, e, popped, shares⟩ := shareUpdate_shares updated
  rw [System.node_congr shares.mTable] at used ⊢
  rcases popped with ⟨n', empties⟩ | ⟨rfl, _⟩
  · have away : n ≠ n' := by
      rintro rfl
      rw [empties.node] at used
      contradiction
    rw [empties.others n away] at used ⊢
    exact ⟨n, used, rfl⟩
  · exact ⟨n, used, rfl⟩

/-- There are fewer used nodes than slots if some slot is no master. -/
theorem Manned.room (manned : Manned s) (queues : Queues s) (thread : ¬Leads s p) : s.usedNodes < NPROC := by
  have owner : ∀ n : NodeRef, ∃ m, (s.node n).state = .used → Leads s m ∧ (s.proc m).pid = (s.node n).pid := by
    intro n
    by_cases used : (s.node n).state = .used
    · obtain ⟨m, owned⟩ := manned n used
      exact ⟨m, fun _ => owned⟩
    · exact ⟨p, fun busy => absurd busy used⟩
  choose f owns using owner
  have fits : s.usedNodes ≤ count fun m => Leads s m := by
    refine count_le_count f (fun n used => (owns n used).1) fun n n' first second same => ?_
    refine queues.single n n' first second ?_
    rw [← (owns n first).2, ← (owns n' second).2, same]
  have fewer : (count fun m => Leads s m) < Fintype.card Lwp := count_lt_card thread
  rw [Fintype.card_fin] at fewer
  exact Nat.lt_of_le_of_lt fits fewer

end Manned

/-! ## Steps -/

/-- What holds of the queues in every state of such a run. -/
structure Queued (s : System) : Prop where
  grouped : Grouped s
  queues : Queues s
  classed : Classed s
  placed : Placed s
  led : Led s
  manned : Manned s

section Steps

variable {s t u : System} {p q : Lwp}

/-- Zombies are deleted. -/
theorem Queued.reaps (reaps : Reaps s t) (queued : Queued s) : Queued t := by
  have calm : ∀ {s t : System}, Queued s → Calm s t → Queued t := by
    intro s t queued calm
    have retains := Retains.of_calm calm
    exact ⟨queued.grouped.congr calm.groups, queued.queues.retains retains,
      queued.classed.retains queued.grouped.positive retains, queued.placed.retains retains,
      queued.led.congr calm.groups, queued.manned.congr (leads_of_groups calm.groups) (.of_eq calm.classes.node)⟩
  induction reaps with
  | calm after => exact calm queued after
  | reap q before zombie deleted _ ih =>
    obtain ⟨grouped, queues, classed, placed, led, manned⟩ := calm queued before
    exact ih ⟨grouped.deleteThread zombie deleted,
      queues.drops (deleteThread_drops deleted) (Nat.le_of_eq (System.deleteThread_rest deleted).1.symm),
      classed.deleteThread grouped.ranked zombie deleted, placed.deleteThread grouped.ranked zombie deleted,
      led.deleteThread zombie deleted, manned.deleteThread queues classed placed zombie deleted⟩

/-- A slot that is not taken is no master. -/
theorem not_leads_of_unused (unused : (s.proc p).state = .unused) : ¬Leads s p := fun leader => leader.2 unused

/-- `thread_create` finds an unused slot. -/
theorem threadCreate_unused {outcome : StackOutcome} (taken : s.step (.threadCreate p outcome) = some t) :
    ∃ np, (s.proc np).state = .unused := by
  simp only [System.step] at taken
  split at taken
  · obtain ⟨_, _, created⟩ := System.inside_some taken
    obtain ⟨np, _, _, _, _, free, _⟩ := threadCreate_some created
    exact ⟨np, freeSlot_unused free⟩
  · contradiction

/-- A step that takes a node finds one. -/
theorem Queued.room (queued : Queued s) {event : Event} (taken : s.step event = some t) (takes : TakesNode s event) :
    s.usedNodes < NPROC := by
  rcases takes with ⟨_, p, unused⟩ | ⟨p, outcome, rfl⟩ | ⟨p, _, thread⟩
  · exact queued.manned.room queued.queues (not_leads_of_unused unused)
  · obtain ⟨np, unused⟩ := threadCreate_unused taken
    exact queued.manned.room queued.queues (not_leads_of_unused unused)
  · exact queued.manned.room queued.queues fun leader => thread leader.1

/-- A slot that is taken by `allocproc` is its own master. -/
theorem allocated_own (grouped : Grouped s) {np : Lwp} (unused : (s.proc np).state = .unused) :
    (((s.takeSlot np).initSlot np).proc np).master = some np ∧
      (((s.takeSlot np).initSlot np).proc np).state = .embryo := by
  have sorted := Sorted.initSlot (s.takeSlot np) np
  have embryo := ((sorted.groups.proc np).state_iff rfl).mpr (takeSlot_embryo s np)
  exact ⟨(((grouped.takeSlot unused).congr sorted.groups).embryo np embryo).2, embryo⟩

/-- `fork` up to the return of `allocproc`. -/
theorem Queued.fork (queued : Queued s) (p : Lwp) (kalloc : Bool) : Led (s.fork p kalloc) ∧ Manned (s.fork p kalloc) := by
  rcases fork_cases s p kalloc with same | ⟨np, free, _, same⟩ | ⟨np, free, _, same⟩
  · rw [same]
    exact ⟨queued.led, queued.manned⟩
  · rw [same]
    have unused := freeSlot_unused free
    have others : ∀ q, q ≠ np → ((s.takeSlot np).setProc np
        { (s.takeSlot np).proc np with kstack := false, state := .unused }).proc q = s.proc q := by
      intro q other
      rw [System.setProc_other _ _ other]
      exact System.setProc_other _ _ other
    refine ⟨queued.led.of_slot others (.inl ⟨unused, ?_⟩), queued.manned.congr ?_ (.of_eq fun _ => rfl)⟩
    · rw [System.setProc_self]
    · exact leads_of_slot others fun leader => absurd unused leader.2
  · rw [same]
    have unused := freeSlot_unused free
    obtain ⟨founds, _⟩ := allocproc_founds queued.grouped.fresh np
    obtain ⟨own, embryo⟩ := allocated_own queued.grouped unused
    have led := queued.led.founds queued.grouped.fresh founds own (by rw [embryo]; exact RunState.noConfusion)
      (not_leads_of_unused unused)
    have manned := queued.manned.founds founds (not_leads_of_unused unused)
    exact ⟨led.of_eq rfl, manned.congr (fun m leader => ⟨leader, rfl⟩) (.of_eq fun _ => rfl)⟩

/-- The rest of a `fork` that succeeds. -/
theorem Queued.forkCopy (queued : Queued s) {np : Lwp} {result : CopyResult} (call : s.call p = .fork np)
    (succeeds : ∀ begun, result ≠ .failed begun) (copied : s.forkCopy p np result = some t) : Led t ∧ Manned t := by
  have embryo := queued.grouped.forking p np call
  have taken : (s.proc np).state ≠ .unused := by
    rw [embryo]
    exact RunState.noConfusion
  rcases forkCopy_some copied with ⟨begun, _, same, _⟩ | ⟨d, _, _, rfl⟩
  · exact absurd same (succeeds begun)
  · have self := System.setProc_self { s with dirs := Function.update s.dirs d true } np { s.proc np with
      pgdir := some d, sz := (s.proc p).sz, parent := some p, state := .runnable }
    have others : ∀ q, q ≠ np → (System.setProc { s with dirs := Function.update s.dirs d true } np { s.proc np with
        pgdir := some d, sz := (s.proc p).sz, parent := some p, state := .runnable }).proc q = s.proc q :=
      fun q other => System.setProc_other _ _ other
    have led := queued.led.of_slot others (.inr ⟨taken, by rw [self]; rfl, by rw [self], by rw [self], by rw [self]⟩)
    have leaders := leads_of_slot (s := s) others fun leader => by
      unfold Leads
      rw [self]
      exact ⟨⟨leader.1, RunState.noConfusion⟩, rfl⟩
    exact ⟨led.of_eq rfl, queued.manned.congr leaders (.of_eq fun _ => rfl)⟩

/-- A started LWP becomes a zombie, between calm changes. -/
theorem Queued.zombie (queued : Queued s) (started : (s.proc p).state.started = true)
    (last : (s.proc p).tid = 1 → ∀ q, q ≠ p → (s.proc q).state ≠ .unused → (s.proc q).pid ≠ (s.proc p).pid)
    (calm : Calm (s.zombie p) t) : Led t ∧ Manned t := by
  have self : (s.zombie p).proc p = { s.proc p with state := .zombie } := System.setProc_self _ _ _
  have leaders := leads_of_slot (s := s) (t := s.zombie p) (fun q other => System.setProc_other _ _ other)
    fun leader => by
      unfold Leads
      rw [self]
      exact ⟨⟨leader.1, RunState.noConfusion⟩, rfl⟩
  refine ⟨(queued.led.zombie started last).congr calm.groups, ?_⟩
  exact (queued.manned.congr leaders (.of_eq fun _ => rfl)).congr (leads_of_groups calm.groups) (.of_eq calm.classes.node)

/-- An LWP that is no master enters `exec`. -/
theorem Queued.detach (queued : Queued s) (running : (s.proc p).state = .running) (thread : (s.proc p).tid ≠ 1) :
    Led ((s.execDeleteThread p).setCall p (.exec false)) ∧ Manned ((s.execDeleteThread p).setCall p (.exec false)) := by
  have killed := Calm.killOthers s p
  have before := killed.groups.proc p
  have grouped := queued.grouped.congr killed.groups
  have started : ((s.killOthers p).proc p).state.started = true := by
    rw [before.started]
    exact System.started_of_running running
  have still : ¬Leads (s.killOthers p) p := fun leader => thread (before.tid.symm.trans leader.1)
  have founds := leaveGroup_founds grouped.fresh started
  have sorted := Sorted.pushMlfq ((s.killOthers p).leaveGroup p) (((s.killOthers p).leaveGroup p).proc p).pid 0
  have slot := sorted.groups.proc p
  have left : ((s.killOthers p).leaveGroup p).proc p = { (s.killOthers p).proc p with
      schedstate := .used, pmlfqNode := none, pstride := none, pid := (s.killOthers p).nextpid, tid := 1,
      parent := some (s.killOthers p).initproc, master := some p } := System.setProc_self _ _ _
  have alive : (((s.killOthers p).leaveGroup p).proc p).state.started = true := by
    rw [left]
    exact started
  have led := (queued.led.congr killed.groups).founds grouped.fresh founds (slot.master.trans (by rw [left]))
    (RunState.not_zombie (slot.started.trans alive)) still
  have manned := (queued.manned.congr (leads_of_groups killed.groups) (.of_eq killed.classes.node)).founds founds still
  exact ⟨led.of_eq rfl, manned.congr (fun m leader => ⟨leader, rfl⟩) (.of_eq fun _ => rfl)⟩

/-- Every such step keeps one node for each group. -/
theorem Queued.step (queued : Queued s) {event : Event} (whole : wholeStep s event t) : Queued t := by
  obtain ⟨taken, succeeds, last⟩ := whole
  have grouped := queued.grouped
  have effect := step_effect taken
  have tables := step_tables grouped.ranked effect
  obtain ⟨queues', classed'⟩ := queued.classed.step queued.queues grouped.ranked (grouped.moves _) tables
  have placed' := queued.placed.step queued.queues queued.classed grouped.ranked (grouped.moves _) (queued.room taken) tables
  have alone : ∀ p retval, event = .threadExit p retval → (s.proc p).tid = 1 → Alone s p := by
    intro p retval exits whole q other started master
    have taken : (s.proc q).state ≠ .unused := by
      intro unused
      rw [unused] at started
      contradiction
    obtain ⟨m, points, _, pid, _⟩ := grouped.master q started
    rw [master] at points
    cases points
    exact last p retval exits whole q other taken pid.symm
  have keeps : (∀ m, Leads s m → Leads t m ∧ (t.proc m).pid = (s.proc m).pid) → SameNodes s t → Led t → Led t ∧ Manned t :=
    fun leaders nodes led => ⟨led, queued.manned.congr leaders nodes⟩
  have both : Led t ∧ Manned t := by
    cases effect with
    | calm _ calm => exact keeps (leads_of_groups calm.groups) (.of_eq calm.classes.node) (queued.led.congr calm.groups)
    | fork p kalloc _ _ => exact queued.fork p kalloc
    | forkCopy p np result _ call copied =>
      exact queued.forkCopy call (fun begun failed => succeeds p begun (by rw [failed])) copied
    | threadChoose p _ _ => exact keeps (fun m leader => ⟨leader, rfl⟩) (.of_eq fun _ => rfl) (queued.led.of_eq rfl)
    | threadCreate p tid outcome running call created =>
      have started := System.started_of_running running
      obtain ⟨np, creates⟩ := threadCreate_creates grouped.fresh started (grouped.creating p tid call) created
      exact ⟨queued.led.creates grouped started creates,
        queued.manned.creates queued.queues (queued.room taken (.inr (.inl ⟨p, outcome, rfl⟩))) creates⟩
    | threadExit p retval u running _ before after =>
      have between := Queued.reaps (.calm before) queued
      have same := before.groups.proc p
      refine between.zombie ?_ ?_ after
      · rw [same.started]
        exact System.started_of_running running
      · intro whole q other busy
        rw [same.tid] at whole
        rw [(before.groups.proc q).pid, same.pid]
        exact last p retval rfl whole q other fun unused => busy (((before.groups.proc q).state_iff rfl).mpr unused)
    | reaps p _ _ _ reaps =>
      have after := Queued.reaps reaps queued
      exact ⟨after.led, after.manned⟩
    | exit p _ u running _ reaps gone after =>
      have between := Queued.reaps reaps queued
      have started : (u.proc p).state.started = true := by
        rw [(reaps.started (System.started_of_running running)).started]
        exact System.started_of_running running
      exact between.zombie started (fun whole q other busy =>
        between.led.ends between.grouped started (gone whole) whole other busy) after
    | detach p running _ thread => exact queued.detach running thread
    | exec p _ _ _ => exact keeps (fun m leader => ⟨leader, rfl⟩) (.of_eq fun _ => rfl) (queued.led.of_eq rfl)
    | execFail p begun _ discarded =>
      have same := (discard_groups discarded).1.trans (SameGroups.leave _ p)
      exact keeps (leads_of_groups same) (.of_eq (Retains.discard discarded).node) (queued.led.congr same)
    | execCommit p isMaster pgdir sz running _ committed =>
      have same := execCommit_groups committed
      exact keeps (leads_of_groups same) (.of_eq (Retains.execCommit (System.started_of_running running) committed).node)
        (queued.led.congr same)
    | shareCheck p master inquire minPass _ _ _ _ =>
      exact keeps (fun m leader => ⟨leader, rfl⟩) (.of_eq fun _ => rfl) (queued.led.of_eq rfl)
    | shareUpdate p master inquire minPass _ _ updated =>
      have manned := queued.manned.shareUpdate updated
      exact ⟨(queued.led.congr (Sorted.shareUpdate updated).groups).of_eq rfl,
        manned.congr (fun m leader => ⟨leader, rfl⟩) (.of_eq fun _ => rfl)⟩
    | tick p yields running ticked =>
      have positive : 0 < (s.proc p).pid := by
        refine grouped.positive p fun unused => ?_
        rw [unused] at running
        contradiction
      obtain ⟨u, _, charges, requeues⟩ := addTick_requeues positive ticked
      have nodes : SameNodes s u := .of_eq (System.node_congr charges.mTable)
      refine ⟨queued.led.congr (Sorted.addTick ticked).groups, Manned.requeues requeues ?_ ?_ ?_ ?_⟩
      · refine queued.manned.congr (fun m leader => ?_) nodes
        unfold Leads
        rw [charges.proc]
        exact ⟨leader, rfl⟩
      · exact queued.queues.congr nodes (Nat.le_of_eq charges.nextpid.symm)
      · exact queued.classed.congr grouped.positive (fun q taken => .of_eq (congrFun charges.proc q) taken) nodes charges.entry
      · rw [charges.proc]
        exact grouped.positive
  exact ⟨grouped.step effect alone, queues', classed', placed', both.1, both.2⟩

/-- The first process is a group with a node. -/
theorem Queued.userinit (d : Nat) : Queued (System.userinit d) := by
  have grouped := Grouped.userinit d
  obtain ⟨others, slot, mTable, _⟩ := userinit_slots d
  obtain ⟨founds, _⟩ := allocproc_founds Grouped.emptyTables.fresh 0
  have started : ((System.userinit d).proc 0).state.started = true := by
    rw [slot]
    rfl
  have whole : ((System.userinit d).proc 0).tid = 1 := by
    rw [slot]
    exact founds.tid
  have leader : Leads (System.userinit d) 0 := by
    refine ⟨whole, fun unused => ?_⟩
    rw [unused] at started
    contradiction
  have only := userinit_only d
  refine ⟨grouped, Queues.userinit d, Classed.userinit d, Placed.userinit d, ⟨fun p taken => ?_, fun m dead _ => ?_⟩, ?_⟩
  · rw [only p taken]
    exact ⟨0, grouped.own started whole, leader, rfl⟩
  · have here := only m (by rw [dead]; exact RunState.noConfusion)
    rw [here] at dead
    exact absurd dead (RunState.not_zombie started)
  · intro n used
    refine ⟨0, leader, ?_⟩
    rw [System.node_congr mTable] at used ⊢
    rw [slot]
    change (((System.emptyTables.takeSlot 0).initSlot 0).proc 0).pid = _
    rcases founds.node with ⟨i, fills, _⟩ | ⟨_, nodes, _⟩
    · by_cases here : n = (0, i)
      · rw [here, fills.node]
        exact founds.pid
      · rw [fills.others n here] at used
        exact StrideState.noConfusion used
    · rw [nodes n] at used
      exact StrideState.noConfusion used

end Steps

/-! ## Runs -/

/-- The used nodes are in bijection with the groups in the queues. A group is a set of slots that
are taken and have the same pid. -/
structure NodePerGroup (s : System) : Prop where
  /-- The pids of the used nodes are those of the groups in the queues, each once. -/
  bijection : Set.BijOn (fun n => (s.node n).pid) {n | (s.node n).state = .used}
    {pid | ∃ p, (s.proc p).state ≠ .unused ∧ (s.proc p).pid = pid ∧ (s.proc p).schedstate = .mlfq}
  /-- The slots of a group in the queues point to its node. -/
  points : ∀ p, (s.proc p).state ≠ .unused → (s.proc p).schedstate = .mlfq →
    ∃ n, (s.proc p).pmlfqNode = some n ∧ (s.node n).state = .used ∧ (s.node n).pid = (s.proc p).pid
  /-- The slots of a group are in the same class. -/
  agree : ∀ p q, (s.proc p).state ≠ .unused → (s.proc q).state ≠ .unused → (s.proc p).pid = (s.proc q).pid →
    (s.proc p).schedstate = (s.proc q).schedstate
  /-- Every group is in the queues or in the stride class. -/
  classes : ∀ p, (s.proc p).state ≠ .unused → (s.proc p).schedstate = .mlfq ∨ (s.proc p).schedstate = .stride
  /-- An empty node has pid 0. -/
  empty : ∀ n, (s.node n).state = .empty → (s.node n).pid = 0
  /-- When a slot is unused or no master, as when a group is founded, every queue has an empty node. -/
  found : ∀ p, (s.proc p).state = .unused ∨ (s.proc p).tid ≠ 1 → ∀ prior, ∃ i, (s.node (prior, i)).state = .empty
  /-- When the node of a group is popped, every queue has an empty node. -/
  moved : ∀ n u, (s.node n).state = .used → s.popMlfq (s.node n).pid = some u →
    ∀ prior, ∃ i, (u.node (prior, i)).state = .empty

/-- The invariant gives one node to each group. -/
theorem Queued.nodePerGroup {s : System} (queued : Queued s) : NodePerGroup s := by
  obtain ⟨grouped, queues, classed, placed, led, manned⟩ := queued
  have leader : ∀ p, (s.proc p).state ≠ .unused →
      ∃ m, Leads s m ∧ (s.proc m).pid = (s.proc p).pid ∧ (s.proc m).SameClass (s.proc p) := by
    intro p taken
    obtain ⟨m, _, leader, pid⟩ := led.led p taken
    exact ⟨m, leader, pid, classed.agree m p leader taken pid.symm⟩
  have points : ∀ p, (s.proc p).state ≠ .unused → (s.proc p).schedstate ≠ .stride → (s.proc p).schedstate = .mlfq ∧
      ∃ n, (s.proc p).pmlfqNode = some n ∧ (s.node n).state = .used ∧ (s.node n).pid = (s.proc p).pid := by
    intro p taken out
    obtain ⟨m, leader, pid, same⟩ := leader p taken
    rw [same.schedstate] at out
    obtain ⟨inQueue, n, node, used, owner⟩ := placed.placed m leader out
    exact ⟨same.schedstate.trans inQueue, n, same.pmlfqNode.trans node, used, owner.trans pid⟩
  have out : ∀ {p : Lwp}, (s.proc p).schedstate = .mlfq → (s.proc p).schedstate ≠ .stride := by
    intro p inQueue
    rw [inQueue]
    exact StrideState.noConfusion
  refine ⟨⟨?_, ?_, ?_⟩, ?_, ?_, ?_, ?_, ?_, ?_⟩
  · intro n used
    obtain ⟨m, leads, pid⟩ := manned n used
    have queuedClass : (s.proc m).schedstate ≠ .stride := fun stride => classed.unqueued m leads stride n pid.symm
    exact ⟨m, leads.2, pid, (placed.placed m leads queuedClass).1⟩
  · intro n first n' second same
    exact queues.single n n' first second same
  · rintro pid ⟨p, taken, rfl, inQueue⟩
    obtain ⟨_, n, _, used, owner⟩ := points p taken (out inQueue)
    exact ⟨n, used, owner⟩
  · intro p taken inQueue
    exact (points p taken (out inQueue)).2
  · intro p q first second same
    obtain ⟨m, leads, pid, class₁⟩ := leader p first
    obtain ⟨m', leads', pid', class₂⟩ := leader q second
    have here := grouped.masters m m' leads.1 leads'.1 (pid.trans (same.trans pid'.symm))
    rw [← here] at class₂
    rw [class₁.schedstate, class₂.schedstate]
  · intro p taken
    by_cases stride : (s.proc p).schedstate = .stride
    · exact .inr stride
    · exact .inl (points p taken stride).1
  · intro n free
    refine (queues.idle n ?_).2
    rw [free]
    exact StrideState.noConfusion
  · intro p idle prior
    refine queues.room (manned.room (p := p) queues fun leads => ?_) prior
    rcases idle with unused | thread
    · exact leads.2 unused
    · exact thread leads.1
  · intro n u used popped prior
    obtain ⟨n', empties⟩ := popMlfq_empties popped
    obtain ⟨cleared, busy, _⟩ := queues.empties empties (queues.busy n used).1
    refine cleared.room ?_ prior
    have before := placed.room
    rw [empties.usedNodes busy] at before
    omega

/-- In runs in which no `fork` fails in `copyuvm`, and in which a master calls `thread_exit` only
as the last slot of its group, every group in the queues has one node. -/
theorem one_node_per_group {d : Nat} {events : List Event} {t : System}
    (run : Run wholeStep (System.userinit d) events t) : NodePerGroup t :=
  (run.invariant Queued (fun _ _ _ queued whole => queued.step whole) (Queued.userinit d)).nodePerGroup

/-- The first process forks a child: two groups, two nodes. -/
theorem one_node_per_group_fork :
    ∃ t, Run wholeStep (System.userinit 0) [.run 0, .fork 0 true, .forkCopy 0 (.copied 1)] t ∧
      t.usedNodes = 2 ∧ NodePerGroup t := by
  have run : ∃ t, Run wholeStep (System.userinit 0) [.run 0, .fork 0 true, .forkCopy 0 (.copied 1)] t ∧
      t.usedNodes = 2 := by
    refine ⟨_, .cons ⟨rfl, nofun, nofun⟩ (.cons ⟨rfl, nofun, nofun⟩ (.cons ⟨rfl, nofun, nofun⟩ (.nil _))), ?_⟩
    decide +kernel
  obtain ⟨t, run, used⟩ := run
  exact ⟨t, run, used, one_node_per_group run⟩

/-- The first process forks, and `copyuvm` has no memory: the node of pid 2 stays used, and no
slot is left with that pid. -/
theorem failed_fork_leaks_node :
    ∃ t, Run (fun s event t => s.step event = some t) (System.userinit 0)
        [.run 0, .fork 0 true, .forkCopy 0 (.failed none)] t ∧
      (t.node (0, 1)).state = .used ∧ (t.node (0, 1)).pid = 2 ∧ ¬NodePerGroup t := by
  have outcome : ((Run.exec System.step [.run 0, .fork 0 true, .forkCopy 0 (.failed none)] (System.userinit 0)).map
      fun t => ((t.node (0, 1)).state, (t.node (0, 1)).pid,
        (List.finRange NPROC).all fun p => decide ((t.proc p).state ≠ .unused → (t.proc p).pid ≠ 2))) =
      some (.used, 2, true) := by
    decide +kernel
  obtain ⟨t, executed, summary⟩ := Option.map_eq_some_iff.mp outcome
  rw [Prod.mk.injEq, Prod.mk.injEq, List.all_eq_true] at summary
  obtain ⟨used, pid, nobody⟩ := summary
  refine ⟨t, Run.of_exec executed, used, pid, fun whole => ?_⟩
  obtain ⟨p, taken, same, _⟩ := whole.bijection.mapsTo used
  have refused := nobody p (List.mem_finRange p)
  rw [decide_eq_true_eq] at refused
  exact refused taken (same.trans pid)

end Xv6
