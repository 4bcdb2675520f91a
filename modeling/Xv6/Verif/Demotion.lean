import Xv6.Verif.Boosting
import Xv6.Verif.Followers
import Xv6.Verif.Placing

/-!
# Demotion

Between two boosts a group leaves the first queue at its twentieth tick at the latest and the
second one at its fortieth: nothing but a tick of its own changes its node, and the ticks are
counted in the node that all its LWPs point to. This holds whatever the LWPs of this and other
groups do, and also when masters leave others behind, as long as a node is left for every group
that takes one.
-/

namespace Xv6

/-- A step that takes a node only where fewer are used than a queue has: with it the total is
`NPROC` at most. -/
def boundedStep (s : System) (event : Event) (t : System) : Prop :=
  s.step event = some t ∧ (TakesNode s event → s.usedNodes < NPROC)

/-- What holds of groups, nodes and classes in runs of such steps. -/
structure Allotting (s : System) : Prop where
  lineage : Lineage s
  follows : Follows s
  queues : Queues s
  classed : Classed s
  placed : Placed s

/-- The group that a slot leads has a used node, which all its LWPs point to. -/
structure AtNode (s : System) (m : Lwp) (pid : Nat) (n : NodeRef) : Prop where
  leads : Leads s m
  group : (s.proc m).pid = pid
  used : (s.node n).state = .used
  /-- The node is that of the group. -/
  owner : (s.node n).pid = pid
  /-- The LWPs point to it. -/
  points : ∀ q, (s.proc q).state ≠ .unused → (s.proc q).pid = pid →
    (s.proc q).schedstate = .mlfq ∧ (s.proc q).pmlfqNode = some n

/-- The queue of the node that a step charges with a tick of the group. -/
def System.chargedQueue (s : System) (pid : Nat) : Event → Option (Fin 3)
  | .tick p => if (s.proc p).pid = pid then (s.proc p).pmlfqNode.map Prod.fst else none
  | _ => none

/-- The step is a tick that ends a time quantum and calls `prior_boost`. -/
def Boosts (s : System) (event : Event) : Prop :=
  ∃ p n, event = .tick p ∧ (s.proc p).schedstate = .mlfq ∧ (s.proc p).pmlfqNode = some n ∧
    ((s.node n).eticks + 1) % System.quantum (s.node n).prior = 0 ∧ 200 ≤ s.schedticks

/-- The step is a `set_cpu_share` that takes the group out of the queues. -/
def LeavesQueues (s : System) (pid : Nat) (event : Event) : Prop :=
  ∃ p master inquire minPass, event = .shareUpdate p ∧ s.call p = .setCpuShare master inquire minPass ∧
    (s.proc master).pid = pid

/-- A step between two boosts, labelled with the queue in which it charges the group. The group keeps
its master and stays in the queues. -/
def queuedStep (m : Lwp) (pid : Nat) (s : System) (label : Option (Fin 3)) (t : System) : Prop :=
  ∃ event, boundedStep s event t ∧ label = s.chargedQueue pid event ∧ ¬ Boosts s event ∧
    ¬ LeavesQueues s pid event ∧ (t.proc m).state ≠ .unused

/-- What a step between two boosts does to the node of a group, with the label of the step. -/
inductive NodeChange (s : System) (n : NodeRef) (label : Option (Fin 3)) (t : System) : NodeRef → Prop where
  /-- The group is not charged and keeps its node. -/
  | kept : label = none → (s.node n).eticks ≤ (t.node n).eticks → NodeChange s n label t n
  /-- The group is charged and its time allotment is not over. -/
  | charged : label = some n.1 → (t.node n).eticks = (s.node n).eticks + 1 →
      (n.1 = 0 → (t.node n).eticks < 20) → (n.1 = 1 → (t.node n).eticks < 40) → NodeChange s n label t n
  /-- The group is charged and gets a node of the next queue. -/
  | moved (n' : NodeRef) : label = some n.1 → n'.1.val = n.1.val + 1 → NodeChange s n label t n'

/-- The master after a step between two boosts, and the node that it points to. -/
structure Resettled (s : System) (m : Lwp) (n : NodeRef) (label : Option (Fin 3)) (t : System) (n' : NodeRef) :
    Prop where
  tid : (t.proc m).tid = (s.proc m).tid
  pid : (t.proc m).pid = (s.proc m).pid
  queued : (t.proc m).schedstate = .mlfq
  points : (t.proc m).pmlfqNode = some n'
  change : NodeChange s n label t n'

/-- The ticks charged to a group so far, by its queue and the ticks of its node. -/
structure Allotted (labels : List (Option (Fin 3))) (k : Fin 3) (eticks : Nat) : Prop where
  /-- A group in the first queue has had fewer than its allotment, and its node has counted them. -/
  first : k = 0 → labels.count (some 0) ≤ eticks ∧ labels.count (some 0) < 20
  /-- So has a group in the second queue. -/
  second : k = 1 → labels.count (some 1) ≤ eticks ∧ labels.count (some 1) < 40
  /-- A group in the first queue has not been charged in the second. -/
  none : k = 0 → labels.count (some 1) = 0
  /-- The ticks in the first queue. -/
  total : labels.count (some 0) ≤ 20
  /-- The ticks in the second queue. -/
  totals : labels.count (some 1) ≤ 40

/-- No tick. -/
theorem Allotted.nil (k : Fin 3) (eticks : Nat) : Allotted [] k eticks :=
  ⟨fun _ => ⟨Nat.zero_le _, by decide⟩, fun _ => ⟨Nat.zero_le _, by decide⟩, fun _ => rfl, by decide, by decide⟩

section Allotting

variable {s t u : System} {p q m : Lwp} {pid : Nat} {n : NodeRef} {event : Event}

/-- A `set_cpu_share` for a master that is gone moves no group. -/
theorem shareUpdate_nobody (queues : Queues s) (classed : Classed s) (placed : Placed s) (ranked : Ranked s)
    {inquire minPass : Int} (gone : (s.proc m).pid = 0) (updated : s.shareUpdate m inquire minPass = some t) :
    Queues t ∧ Classed t ∧ Placed t := by
  obtain ⟨v, e, popped, shares⟩ := shareUpdate_shares updated
  rw [gone] at popped shares
  have entries : v.sTable = s.sTable := by
    rcases popped with ⟨n, empties⟩ | ⟨rfl, _⟩
    · exact empties.sTable
    · rfl
  have later : s.nextpid ≤ t.nextpid := by
    rw [shares.nextpid]
    rcases popped with ⟨n, empties⟩ | ⟨rfl, _⟩
    · exact Nat.le_of_eq empties.nextpid.symm
    · exact Nat.le_refl _
  -- the node that is popped was empty
  have nodes : SameNodes s t := by
    intro k
    rw [System.node_congr shares.mTable]
    rcases popped with ⟨n, empties⟩ | ⟨rfl, _⟩
    · by_cases here : k = n
      · have unused : (s.node n).state ≠ .used := by
          intro busy
          have positive := (queues.busy n busy).1
          rw [empties.found] at positive
          exact Nat.lt_irrefl 0 positive
        rw [here, empties.node]
        exact ⟨rfl, (queues.idle n unused).1.symm, empties.found.symm⟩
      · rw [empties.others k here]
        exact ⟨rfl, rfl, rfl⟩
    · exact ⟨rfl, rfl, rfl⟩
  have slots : ∀ q, (t.proc q).state ≠ .unused → (s.proc q).SameMember (t.proc q) := by
    intro q taken
    have before : (v.proc q).state = (s.proc q).state ∧ (v.proc q).pid = (s.proc q).pid ∧
        ((s.proc q).pid ≠ 0 → v.proc q = s.proc q) := by
      rcases popped with ⟨n, empties⟩ | ⟨rfl, _⟩
      · rw [empties.proc q]
        split
        · rename_i nobody
          exact ⟨rfl, rfl, fun other => absurd nobody other⟩
        · exact ⟨rfl, rfl, fun _ => rfl⟩
      · exact ⟨rfl, rfl, fun _ => rfl⟩
    obtain ⟨state, same, kept⟩ := before
    have busy : (s.proc q).state ≠ .unused := by
      rw [shares.proc q] at taken
      rw [← state]
      split at taken
      · exact taken
      · exact taken
    have positive := ranked.positive q busy
    have other : (s.proc q).pid ≠ 0 := by omega
    have slot : t.proc q = s.proc q := by
      rw [shares.proc q, if_neg (by rw [same]; exact other)]
      exact kept other
    exact .of_eq slot taken
  refine ⟨queues.congr nodes later, ?_, placed.congr slots nodes⟩
  refine classed.fewer ranked.positive slots (fun k => .inl (nodes k).2.2) ?_ ?_
  · intro m' e' leader stride points other owner
    have leads : Leads s m' := ⟨(slots m' leader.2).tid.symm.trans leader.1, (slots m' leader.2).taken⟩
    obtain ⟨e'', _, points', used, _⟩ := classed.entry m' leads stride
    rw [points] at points'
    cases points'
    have away : e' ≠ e := by
      rintro rfl
      have free := shares.free.2
      rw [entries, used] at free
      contradiction
    rw [(shares.others e' away).1, (shares.others e' away).2.1, entries]
    exact ⟨rfl, rfl⟩
  · rw [(shares.others 0 shares.free.1.symm).1, entries]
    exact classed.first

/-- Every such step keeps groups, nodes and classes, also when the master that `set_cpu_share` has
found is gone. -/
theorem Allotting.step (allotting : Allotting s) (taken : boundedStep s event t) : Allotting t := by
  obtain ⟨taken, room⟩ := taken
  have ranked := allotting.follows.ranked allotting.lineage
  have tables := step_tables ranked (step_effect taken)
  have rest : Queues t ∧ Classed t ∧ Placed t := by
    by_cases moves : MovesGroup s event
    · obtain ⟨queues, classed⟩ := allotting.classed.step allotting.queues ranked moves tables
      exact ⟨queues, classed, allotting.placed.step allotting.queues allotting.classed ranked moves room tables⟩
    · cases tables with
      | kept _ retains =>
        exact ⟨allotting.queues.retains retains, allotting.classed.retains ranked.positive retains,
          allotting.placed.retains retains⟩
      | reaps _ _ reaping _ _ =>
        refine absurd (fun p master inquire minPass update => ?_) moves
        rw [update] at reaping
        contradiction
      | founds _ _ _ _ _ _ _ _ which =>
        refine absurd (fun p master inquire minPass update => ?_) moves
        rw [update] at which
        rcases which with ⟨⟨_, fork⟩, _⟩ | ⟨exec, _⟩
        · contradiction
        · contradiction
      | creates _ _ _ _ _ => exact absurd (fun p master inquire minPass update => nomatch update) moves
      | ticks _ _ _ _ _ => exact absurd (fun p master inquire minPass update => nomatch update) moves
      | shares p master inquire minPass u started call updated retains =>
        have gone : (s.proc master).pid = 0 := by
          by_contra present
          refine moves fun p' master' inquire' minPass' update _ call' => ?_
          cases update
          rw [call] at call'
          cases call'
          exact Nat.pos_of_ne_zero present
        obtain ⟨queues, classed, placed⟩ :=
          shareUpdate_nobody allotting.queues allotting.classed allotting.placed ranked gone updated
        have positive := (ranked.congr (Sorted.shareUpdate updated).groups).positive
        exact ⟨queues.retains retains, classed.retains positive retains, placed.retains retains⟩
  exact ⟨allotting.lineage.step taken, allotting.follows.step allotting.lineage taken, rest.1, rest.2.1, rest.2.2⟩

/-- The first process. -/
theorem Allotting.userinit (d : Nat) : Allotting (System.userinit d) :=
  ⟨.userinit d, .userinit d, .userinit d, .userinit d, .userinit d⟩

/-- A group in the queues has a node that its LWPs point to. -/
theorem Allotting.atNode (allotting : Allotting s) (leads : Leads s m) (queued : (s.proc m).schedstate = .mlfq)
    (points : (s.proc m).pmlfqNode = some n) : AtNode s m (s.proc m).pid n := by
  have out : (s.proc m).schedstate ≠ .stride := by
    rw [queued]
    exact StrideState.noConfusion
  obtain ⟨_, n', points', used, owner⟩ := allotting.placed.placed m leads out
  rw [points] at points'
  cases points'
  refine ⟨leads, rfl, used, owner, fun q taken same => ?_⟩
  have agree := allotting.classed.agree m q leads taken same
  exact ⟨agree.schedstate.trans queued, agree.pmlfqNode.trans points⟩

/-- Deleting zombies keeps the slots that are still taken. -/
theorem Reaps.members (reaps : Reaps s t) (taken : (t.proc q).state ≠ .unused) : (s.proc q).SameMember (t.proc q) := by
  induction reaps with
  | calm calm => exact (Retains.of_calm calm).slots q taken
  | reap r before _ deleted _ ih =>
    have last := ih taken
    have middle := deleteThread_members deleted last.taken
    exact ((Retains.of_calm before).slots q middle.taken).trans (middle.trans last)

/-- Deleting zombies keeps the nodes of the groups that are left. -/
theorem Placed.reaps_node (reaps : Reaps s t) (placed : Placed s) (ranked : Ranked s) (leader : Leads t m)
    (mine : (s.node n).pid = (s.proc m).pid) : t.node n = s.node n := by
  induction reaps with
  | calm calm => exact calm.classes.node n
  | @reap s t u v r before zombie deleted rest ih =>
    have between := ranked.congr before.groups
    have kept := (Retains.of_calm before)
    have seated := placed.retains kept
    have last := rest.members leader.2
    have middle := deleteThread_members deleted last.taken
    have first := kept.slots m middle.taken
    have owned : (u.node n).pid = (u.proc m).pid := by
      rw [kept.node n, first.pid]
      exact mine
    have node := seated.deleteThread_node between zombie deleted
      ⟨last.tid.symm.trans leader.1, last.taken⟩ owned
    have stays := ih (seated.deleteThread between zombie deleted) (between.deleteThread zombie deleted) leader
      (by rw [node, middle.pid]; exact owned)
    rw [stays, node, kept.node n]

/-- Moving another pid keeps a used node and the slots of its pid. -/
theorem movePrior_away (queues : Queues s) (room : s.usedNodes ≤ NPROC) {other : Nat} (positive : 0 < other) (prior : Fin 3)
    (used : (s.node n).state = .used) (apart : (s.node n).pid ≠ other) :
    (s.movePrior other prior).node n = s.node n ∧
      ∀ q, (s.proc q).pid ≠ other → (s.movePrior other prior).proc q = s.proc q := by
  by_cases missed : s.popMlfq other = none
  · have same : s.movePrior other prior = s := by
      unfold System.movePrior
      rw [missed]
    rw [same]
    exact ⟨rfl, fun _ _ => rfl⟩
  · obtain ⟨v, popped⟩ := Option.ne_none_iff_exists'.mp missed
    obtain ⟨k, empties⟩ := popMlfq_empties popped
    have busy := (queues.empties empties positive).2.1
    obtain ⟨_, _, _, i, moved⟩ := movePrior_seated ⟨s.nextpid, queues⟩ room busy prior
    rw [empties.found] at moved
    have away : n ≠ k := by
      rintro rfl
      exact apart empties.found
    refine ⟨moved.others n away ?_, fun q outside => ?_⟩
    · rintro rfl
      have free := moved.free (Ne.symm away)
      rw [used] at free
      contradiction
    · rw [moved.proc q, if_neg (by rw [empties.found]; exact outside)]

/-- A demotion moves a group to the next queue, or its time allotment is not over. -/
theorem demote_cases (s : System) (p : Lwp) (prior : Fin 3) (elapsed : Nat) :
    (s.demote p prior elapsed = s ∧ (prior = 0 → elapsed < 20) ∧ (prior = 1 → elapsed < 40)) ∨
      ∃ next : Fin 3, next.val = prior.val + 1 ∧ s.demote p prior elapsed = s.movePrior (s.proc p).pid next := by
  unfold System.demote
  match prior with
  | 0 =>
    by_cases spent : 20 ≤ elapsed
    · exact .inr ⟨1, rfl, if_pos spent⟩
    · exact .inl ⟨if_neg spent, fun _ => by omega, fun other => by omega⟩
  | 1 =>
    by_cases spent : 40 ≤ elapsed
    · exact .inr ⟨2, rfl, if_pos spent⟩
    · exact .inl ⟨if_neg spent, fun other => by omega, fun _ => by omega⟩
  | 2 => exact .inl ⟨rfl, fun other => by omega, fun other => by omega⟩

/-- A tick of an LWP in the queues that calls no `prior_boost`. -/
theorem addTick_quiet {yields : Bool} (ticked : s.addTick p = some (yields, t)) (calm : ¬ Boosts s (.tick p)) :
    ∃ v, v.proc = s.proc ∧ v.nextpid = s.nextpid ∧
      ((s.proc p).schedstate ≠ .mlfq ∧ t = v ∧ (∀ k, v.node k = s.node k) ∨
        (s.proc p).schedstate = .mlfq ∧ ∃ n, (s.proc p).pmlfqNode = some n ∧
          v.node n = { s.node n with eticks := (s.node n).eticks + 1 } ∧ (∀ k, k ≠ n → v.node k = s.node k) ∧
          t = v.demote p (s.node n).prior ((s.node n).eticks + 1)) := by
  obtain ⟨w, charged, which⟩ := addTick_some ticked
  have charges := addPassStride_charges charged
  have same : ∀ k, w.node k = s.node k := System.node_congr charges.mTable
  have ticks : w.schedticks = s.schedticks := by
    unfold System.addPassStride at charged
    split at charged
    · contradiction
    · simp only at charged
      split at charged
      · cases charged
        rfl
      · cases charged
        rfl
  rcases which with ⟨other, rfl⟩ | ⟨queued, n, points, rfl⟩
  · rw [charges.proc] at other
    exact ⟨{ w with schedticks := w.schedticks + 1 }, charges.proc, charges.nextpid, .inl ⟨other, rfl, same⟩⟩
  · rw [charges.proc] at queued points
    refine ⟨System.setNode { w with schedticks := w.schedticks + 1 } n
      { w.node n with eticks := (w.node n).eticks + 1 }, charges.proc, charges.nextpid,
      .inr ⟨queued, n, points, ?_, fun k other => ?_, ?_⟩⟩
    · rw [System.setNode_self, same n]
    · exact (System.setNode_other _ _ other).trans (same k)
    · rw [same n]
      unfold System.endTick
      simp only
      split
      · rename_i spent
        have soon : ¬ 200 ≤ w.schedticks := by
          rw [ticks]
          exact fun late => calm ⟨p, n, rfl, queued, points, spent, late⟩
        rw [if_neg soon]
      · rfl

/-- A tick between two boosts. -/
theorem AtNode.tick (place : AtNode s m pid n) (allotting : Allotting s) {yields : Bool}
    (running : (s.proc p).state = .running) (ticked : s.addTick p = some (yields, t)) (calm : ¬ Boosts s (.tick p)) :
    ∃ n', Resettled s m n (s.chargedQueue pid (.tick p)) t n' := by
  obtain ⟨v, slots, later, which⟩ := addTick_quiet ticked calm
  have taken : (s.proc p).state ≠ .unused := by
    rw [running]
    exact RunState.noConfusion
  have positive := allotting.lineage.positive p taken
  obtain ⟨queued, points⟩ := place.points m place.leads.2 place.group
  rcases which with ⟨outside, rfl, nodes⟩ | ⟨inside, k, seat, node, others, rfl⟩
  · -- the LWP is not in the queues, so it is not one of the group
    have apart : (s.proc p).pid ≠ pid := fun mine => outside (place.points p taken mine).1
    refine ⟨n, by rw [slots], by rw [slots], by rw [slots]; exact queued, by rw [slots]; exact points, .kept ?_ ?_⟩
    · exact if_neg apart
    · rw [nodes n]
  · have same : SameNodes s v := by
      intro k'
      by_cases here : k' = k
      · rw [here, node]
        exact ⟨rfl, rfl, rfl⟩
      · rw [others k' here]
        exact ⟨rfl, rfl, rfl⟩
    have ordered : Queues v := allotting.queues.congr same (Nat.le_of_eq later.symm)
    have room : v.usedNodes ≤ NPROC := by
      rw [same.usedNodes]
      exact allotting.placed.room
    have used : (v.node n).state = .used := (same n).2.1.trans place.used
    have owner : (v.node n).pid = pid := (same n).2.2.trans place.owner
    have pids : (v.proc p).pid = (s.proc p).pid := by rw [slots]
    by_cases mine : (s.proc p).pid = pid
    · have here : k = n := by
        have own := (place.points p taken mine).2
        rw [seat] at own
        exact Option.some.inj own
      subst here
      have label : s.chargedQueue pid (.tick p) = some k.1 := by
        simp only [System.chargedQueue, if_pos mine, seat, Option.map_some]
      have ticks : (v.node k).eticks = (s.node k).eticks + 1 := by rw [node]
      rw [allotting.queues.prior k, label]
      rcases demote_cases v p k.1 ((s.node k).eticks + 1) with ⟨stays, first, second⟩ | ⟨next, below, moves⟩
      · rw [stays]
        rw [← ticks] at first second
        exact ⟨k, by rw [slots], by rw [slots], by rw [slots]; exact queued, by rw [slots]; exact points,
          .charged rfl ticks first second⟩
      · rw [moves, pids, mine, ← owner]
        obtain ⟨_, _, _, i, moved⟩ := movePrior_seated ⟨v.nextpid, ordered⟩ room used next
        have slot := moved.proc m
        rw [if_pos (by rw [slots, place.group, owner])] at slot
        refine ⟨(next, i), ?_, ?_, ?_, ?_, .moved _ rfl below⟩
        · rw [slot, slots]
        · rw [slot, slots]
        · rw [slot]
        · rw [slot]
    · have label : s.chargedQueue pid (.tick p) = none := if_neg mine
      have ticks : (s.node n).eticks ≤ (v.node n).eticks := by
        by_cases here : n = k
        · rw [here, node]
          exact Nat.le_succ _
        · rw [others n here]
      rcases demote_cases v p (s.node k).prior ((s.node k).eticks + 1) with ⟨stays, _⟩ | ⟨next, _, moves⟩
      · rw [stays, label]
        exact ⟨n, by rw [slots], by rw [slots], by rw [slots]; exact queued, by rw [slots]; exact points, .kept rfl ticks⟩
      · rw [moves, pids, label]
        obtain ⟨kept, rest⟩ := movePrior_away ordered room positive next used (by rw [owner]; exact Ne.symm mine)
        have slot : (v.movePrior (s.proc p).pid next).proc m = s.proc m := by
          rw [rest m (by rw [slots, place.group]; exact Ne.symm mine), slots]
        refine ⟨n, by rw [slot], by rw [slot], by rw [slot]; exact queued, by rw [slot]; exact points, .kept rfl ?_⟩
        rw [kept]
        exact ticks

/-- A step that is no tick keeps the node. -/
theorem AtNode.still (place : AtNode s m pid n) (same : (s.proc m).SameMember (t.proc m)) (node : t.node n = s.node n)
    (other : ∀ p, event ≠ .tick p) : Resettled s m n (s.chargedQueue pid event) t n := by
  obtain ⟨queued, points⟩ := place.points m place.leads.2 place.group
  refine ⟨same.tid, same.pid, same.schedstate.trans queued, same.pmlfqNode.trans points, .kept ?_ ?_⟩
  · unfold System.chargedQueue
    split
    · rename_i p
      exact absurd rfl (other p)
    · rfl
  · rw [node]

/-- A step between two boosts. -/
theorem AtNode.step (place : AtNode s m pid n) (allotting : Allotting s) {label : Option (Fin 3)}
    (taken : queuedStep m pid s label t) : ∃ n', Resettled s m n label t n' := by
  obtain ⟨event, ⟨stepped, room⟩, rfl, calm, stays, alive⟩ := taken
  have ranked := allotting.follows.ranked allotting.lineage
  have effect := step_effect stepped
  have owner : (s.node n).pid = (s.proc m).pid := place.owner.trans place.group.symm
  by_cases tick : ∃ p, event = .tick p
  · obtain ⟨p, rfl⟩ := tick
    obtain ⟨running, _, result⟩ := System.inside_some stepped
    obtain ⟨⟨yields, u⟩, ticked, same⟩ := Option.map_eq_some_iff.mp result
    cases same
    exact place.tick allotting running ticked calm
  · have other : ∀ p, event ≠ .tick p := fun p same => tick ⟨p, same⟩
    cases step_tables ranked effect with
    | kept _ retains => exact ⟨n, place.still (retains.slots m alive) (retains.node n) other⟩
    | reaps u _ _ reaps retains =>
      have last := retains.slots m alive
      have middle := reaps.members last.taken
      refine ⟨n, place.still (middle.trans last) ?_ other⟩
      rw [retains.node n]
      exact Placed.reaps_node reaps allotting.placed ranked
        ⟨middle.tid.trans place.leads.1, last.taken⟩ owner
    | founds p u v _ before founds _ retains which =>
      have apart : m ≠ p := by
        rintro rfl
        rcases which with ⟨_, _, unused⟩ | ⟨_, _, thread⟩
        · exact place.leads.2 unused
        · exact thread place.leads.1
      have last := retains.slots m alive
      have kept := Retains.of_calm before
      have slot := founds.others m apart
      have middle : (u.proc m).SameMember (v.proc m) := .of_eq slot last.taken
      refine ⟨n, place.still (((kept.slots m middle.taken).trans middle).trans last) ?_ other⟩
      rw [retains.node n, ← kept.node n]
      rcases founds.node with ⟨i, fills, _⟩ | ⟨_, nodes, _⟩
      · refine fills.others n ?_
        rintro rfl
        have free := fills.free
        rw [kept.node, place.used] at free
        contradiction
      · exact nodes n
    | creates p np outcome _ creates =>
      have apart : m ≠ np := by
        rintro rfl
        exact place.leads.2 creates.unused
      obtain ⟨sz, stack, slot⟩ := creates.others m apart
      have same : (s.proc m).SameMember (t.proc m) := by
        rw [slot] at alive ⊢
        exact ⟨⟨rfl, rfl, rfl⟩, rfl, rfl, alive⟩
      refine ⟨n, place.still same ?_ other⟩
      obtain ⟨k, _, _, _, others, free⟩ := creates.node
      refine others n ?_
      rintro rfl
      rcases free with free | full
      · rw [place.used] at free
        contradiction
      · obtain ⟨i, free⟩ := allotting.queues.room (room (.inr (.inl ⟨p, outcome, rfl⟩))) 0
        exact absurd free (full i)
    | shares p master inquire minPass u _ call updated retains =>
      have apart : (s.proc m).pid ≠ (s.proc master).pid := by
        intro mine
        exact stays ⟨p, master, inquire, minPass, rfl, call, mine.symm.trans place.group⟩
      obtain ⟨slot, node⟩ := shareUpdate_away updated apart
      have last := retains.slots m alive
      have middle : (s.proc m).SameMember (u.proc m) := .of_eq slot last.taken
      refine ⟨n, place.still (middle.trans last) ?_ other⟩
      rw [retains.node n]
      exact node n owner
    | ticks p _ _ _ _ => exact absurd rfl (other p)

/-- The group is at its node after a step between two boosts. -/
theorem AtNode.next (place : AtNode s m pid n) (allotting : Allotting s) {label : Option (Fin 3)}
    (taken : queuedStep m pid s label t) :
    Allotting t ∧ ∃ n', AtNode t m pid n' ∧ NodeChange s n label t n' := by
  obtain ⟨n', settled⟩ := place.step allotting taken
  obtain ⟨event, bounded, _, _, _, alive⟩ := taken
  have next := allotting.step bounded
  have group := settled.pid.trans place.group
  have seat := next.atNode ⟨settled.tid.trans place.leads.1, alive⟩ settled.queued settled.points
  rw [group] at seat
  exact ⟨next, n', seat, settled.change⟩

/-- One more label. -/
theorem count_snoc (labels : List (Option (Fin 3))) (label : Option (Fin 3)) (k : Fin 3) :
    (labels ++ [label]).count (some k) = labels.count (some k) + if label = some k then 1 else 0 := by
  rw [List.count_append, List.count_singleton]
  simp only [beq_iff_eq]

/-- A step adds its tick to the count. -/
theorem Allotted.step {labels : List (Option (Fin 3))} {n' : NodeRef} {label : Option (Fin 3)}
    (allotted : Allotted labels n.1 (s.node n).eticks) (change : NodeChange s n label t n') :
    Allotted (labels ++ [label]) n'.1 (t.node n').eticks := by
  obtain ⟨first, second, none, total, totals⟩ := allotted
  cases change with
  | kept quiet more =>
    subst quiet
    constructor
    all_goals simp only [count_snoc, reduceCtorEq, if_false, Nat.add_zero]
    · exact fun here => ⟨Nat.le_trans (first here).1 more, (first here).2⟩
    · exact fun here => ⟨Nat.le_trans (second here).1 more, (second here).2⟩
    · exact none
    · exact total
    · exact totals
  | charged own ticks early late =>
    subst own
    constructor
    all_goals simp only [count_snoc, Option.some.injEq]
    · intro here
      have before := first here
      have soon := early here
      rw [if_pos here]
      omega
    · intro here
      have before := second here
      have soon := late here
      rw [if_pos here]
      omega
    · intro here
      rw [none here, if_neg (by rw [here]; decide)]
    · split
      · rename_i here
        have before := first here
        omega
      · omega
    · split
      · rename_i here
        have before := second here
        omega
      · omega
  | moved place own below =>
    subst own
    constructor
    all_goals simp only [count_snoc, Option.some.injEq]
    · intro here
      omega
    · intro here
      have before : n.1 = 0 := by omega
      rw [none before, if_neg (by rw [before]; decide)]
      omega
    · intro here
      omega
    · split
      · rename_i here
        have before := first here
        omega
      · omega
    · split
      · rename_i here
        have before := second here
        omega
      · omega

end Allotting

/-- Between two boosts a group is charged at most twenty ticks in the first queue and forty in the
second, whatever its LWPs and the other groups do. It moves at one of its own ticks only, to the next
queue, and all its LWPs point to the node that it then has. -/
theorem ticks_until_demotion {d : Nat} {events : List Event} {s t : System}
    (boot : Run boundedStep (System.userinit d) events s) {m : Lwp} (leads : Leads s m)
    (queued : (s.proc m).schedstate = .mlfq) {labels : List (Option (Fin 3))}
    (run : Run (queuedStep m (s.proc m).pid) s labels t) :
    labels.count (some 0) ≤ 20 ∧ labels.count (some 1) ≤ 40 ∧
      ∃ n n', AtNode s m (s.proc m).pid n ∧ AtNode t m (s.proc m).pid n' ∧ n.1 ≤ n'.1 ∧
        (n'.1 = 0 → labels.count (some 0) < 20) ∧ (n'.1 = 1 → labels.count (some 1) < 40) ∧
        ∀ label u, queuedStep m (s.proc m).pid t label u → ∃ n'', AtNode u m (s.proc m).pid n'' ∧
          (n'' = n' ∨ label = some n'.1 ∧ n''.1.val = n'.1.val + 1) := by
  have allotting : Allotting s := boot.invariant Allotting (fun _ _ _ known taken => known.step taken) (.userinit d)
  have out : (s.proc m).schedstate ≠ .stride := by
    rw [queued]
    exact StrideState.noConfusion
  obtain ⟨_, n, points, _⟩ := allotting.placed.placed m leads out
  have start := allotting.atNode leads queued points
  have counted : Allotting t ∧ ∃ n', AtNode t m (s.proc m).pid n' ∧ n.1 ≤ n'.1 ∧
      Allotted labels n'.1 (t.node n').eticks := by
    refine run.history (fun labels t => Allotting t ∧ ∃ n', AtNode t m (s.proc m).pid n' ∧ n.1 ≤ n'.1 ∧
      Allotted labels n'.1 (t.node n').eticks) ⟨allotting, n, start, le_refl _, .nil _ _⟩ ?_
    intro before v label u _ ⟨known, n', seat, above, allotted⟩ taken
    obtain ⟨next, n'', seat', change⟩ := seat.next known taken
    refine ⟨next, n'', seat', le_trans above ?_, allotted.step change⟩
    cases change with
    | kept _ _ => exact le_refl _
    | charged _ _ _ _ => exact le_refl _
    | moved _ _ below => exact Fin.le_def.mpr (by omega)
  obtain ⟨known, n', seat, above, allotted⟩ := counted
  refine ⟨allotted.total, allotted.totals, n, n', start, seat, above, fun here => (allotted.first here).2,
    fun here => (allotted.second here).2, fun label u taken => ?_⟩
  obtain ⟨_, n'', seat', change⟩ := seat.next known taken
  refine ⟨n'', seat', ?_⟩
  cases change with
  | kept _ _ => exact .inl rfl
  | charged _ _ _ _ => exact .inl rfl
  | moved _ own below => exact .inr ⟨own, below⟩

/-- A tick of the first process before any boost. -/
def firstTick (pid : Nat) (s : System) (label : Option (Fin 3)) : Option System :=
  (s.step (.tick 0)).filter fun t => label = s.chargedQueue pid (.tick 0) ∧ s.schedticks < 200 ∧ (t.proc 0).state ≠ .unused

/-- It is a step between two boosts. -/
theorem firstTick_queued {pid : Nat} {s t : System} {label : Option (Fin 3)} (ticked : firstTick pid s label = some t) :
    queuedStep 0 pid s label t := by
  obtain ⟨taken, known⟩ := Option.filter_eq_some_iff.mp ticked
  obtain ⟨charged, early, busy⟩ := of_decide_eq_true known
  refine ⟨.tick 0, ⟨taken, ?_⟩, charged, ?_, nofun, busy⟩
  · rintro (⟨⟨p, same⟩, _⟩ | ⟨p, outcome, same⟩ | ⟨p, same, _⟩) <;> cases same
  · rintro ⟨p, n, _, _, _, _, late⟩
    exact absurd early (Nat.not_lt.mpr late)

/-- The first process is charged twenty ticks in the first queue, and its group is moved to the second. -/
theorem ticks_until_demotion_first :
    ∃ s t n, Run boundedStep (System.userinit 0) [.run 0] s ∧
      Run (queuedStep 0 (s.proc 0).pid) s (.replicate 20 (some 0)) t ∧ AtNode t 0 (s.proc 0).pid n ∧ n.1 = 1 := by
  have boot : Run boundedStep (System.userinit 0) [.run 0] ((System.userinit 0).start 0) := by
    refine .cons ⟨rfl, ?_⟩ (.nil _)
    rintro (⟨⟨p, same⟩, _⟩ | ⟨p, outcome, same⟩ | ⟨p, same, _⟩) <;> cases same
  have ticks : (Run.exec (firstTick 1) (.replicate 20 (some 0)) ((System.userinit 0).start 0)).map
      (fun t => (t.proc 0).pmlfqNode) = some (some (1, 0)) := by
    decide +kernel
  obtain ⟨t, executed, points⟩ := Option.map_eq_some_iff.mp ticks
  have run : Run (queuedStep 0 1) ((System.userinit 0).start 0) (.replicate 20 (some 0)) t :=
    (Run.of_exec executed).mono fun _ _ _ ticked => firstTick_queued ticked
  obtain ⟨_, _, _, n, _, seat, _⟩ := ticks_until_demotion boot ⟨rfl, by decide +kernel⟩ rfl run
  have own := (seat.points 0 seat.leads.2 seat.group).2
  rw [points] at own
  cases own
  exact ⟨_, t, (1, 0), boot, run, seat, rfl⟩

end Xv6
