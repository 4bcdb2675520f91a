import Mathlib.Data.Finset.Lattice.Fold
import Xv6.Verif.Counters

/-!
# Priority boost

`prior_boost` pops and pushes nodes of the tables that it walks over. Each move puts the group it
takes out into the first queue, with its LWPs pointing there; so whatever the walk meets later,
every used node is either settled in the first queue or still to be visited.
-/

namespace Xv6

open Occupancy

/-- The queues before a boost. No value of the enumeration but the two is ever stored in a node. -/
structure BoostReady (s : System) : Prop where
  /-- `prior` is the queue of a node. -/
  prior : ∀ n, (s.node n).prior = n.1
  /-- A node is used or empty. -/
  kind : ∀ n, (s.node n).state = .used ∨ (s.node n).state = .empty
  /-- A used node has a pid. -/
  busy : ∀ n, (s.node n).state = .used → (s.node n).pid ≠ 0
  /-- An empty node has pid 0. -/
  idle : ∀ n, (s.node n).state = .empty → (s.node n).pid = 0
  /-- Used nodes have different pids. -/
  single : ∀ n n', (s.node n).state = .used → (s.node n').state = .used →
    (s.node n).pid = (s.node n').pid → n = n'
  /-- The counters are not too small. -/
  counted : ∀ k, (s.usedIn k : Int) ≤ (s.mTable k).count
  /-- No more nodes are used than a queue has. -/
  room : s.usedNodes ≤ NPROC

/-- What a boost does: the first queue has one node for each pid that had one, the other queues have
none, and the LWPs of these pids point to their nodes. -/
structure Boosted (s t : System) : Prop where
  /-- The first queue has the pids. -/
  pids : ∀ pid, (∃ i, (t.node (0, i)).state = .used ∧ (t.node (0, i)).pid = pid) ↔
    ∃ n, (s.node n).state = .used ∧ (s.node n).pid = pid
  /-- One node for each. -/
  single : ∀ i j, (t.node (0, i)).state = .used → (t.node (0, j)).state = .used →
    (t.node (0, i)).pid = (t.node (0, j)).pid → i = j
  /-- The ticks start again. -/
  fresh : ∀ i, (t.node (0, i)).state = .used → (t.node (0, i)).eticks = 0
  /-- The other queues are empty. -/
  rest : ∀ n, n.1 ≠ 0 → (t.node n).state ≠ .used
  /-- The LWPs of the pids point to their nodes. -/
  points : ∀ q i, (t.node (0, i)).state = .used → (s.proc q).pid = (t.node (0, i)).pid →
    t.proc q = { s.proc q with schedstate := .mlfq, pmlfqNode := some (0, i) }
  /-- The other LWPs are unchanged. -/
  others : ∀ q, (∀ n, (s.node n).state = .used → (s.node n).pid ≠ (s.proc q).pid) → t.proc q = s.proc q

/-- The nodes are in order, whatever pids were handed out. -/
def Seated (s : System) : Prop := ∃ bound, Queues { s with nextpid := bound }

/-- A group was taken out of a node and put into another one, or the same. -/
structure Reseated (s : System) (n place : NodeRef) (t : System) : Prop where
  /-- The node that the group gets. -/
  node : (t.node place).state = .used ∧ (t.node place).pid = (s.node n).pid ∧ (t.node place).eticks = 0
  left : n ≠ place → (t.node n).state = .empty
  /-- The node that it gets was not in use. -/
  free : n ≠ place → (s.node place).state = .empty
  others : ∀ n', n' ≠ n → n' ≠ place → t.node n' = s.node n'
  /-- Its LWPs. -/
  proc : ∀ q, t.proc q = if (s.proc q).pid = (s.node n).pid then
    { s.proc q with schedstate := .mlfq, pmlfqNode := some place } else s.proc q

section Boosts

variable {s t u : System} {n : NodeRef} {pid : Nat}

/-- Before a boost the nodes are in order. -/
theorem BoostReady.seated (ready : BoostReady s) : Seated s := by
  refine ⟨(Finset.univ.sup fun n => (s.node n).pid) + 1, ready.prior, ?_, ?_, ready.single⟩
  · intro n unused
    have empty := (ready.kind n).resolve_left unused
    exact ⟨empty, ready.idle n empty⟩
  · intro n used
    have bound : (s.node n).pid ≤ Finset.univ.sup fun n => (s.node n).pid :=
      Finset.le_sup (f := fun n => (s.node n).pid) (Finset.mem_univ n)
    exact ⟨Nat.pos_of_ne_zero (ready.busy n used), Nat.lt_succ_of_le bound⟩

/-- Moving a used node to a queue finds that node, and finds a place. -/
theorem movePrior_seated (seated : Seated s) (room : s.usedNodes ≤ NPROC) (used : (s.node n).state = .used)
    (prior : Fin 3) :
    Seated (s.movePrior (s.node n).pid prior) ∧ (s.movePrior (s.node n).pid prior).usedNodes = s.usedNodes ∧
      (∀ k, (s.movePrior (s.node n).pid prior).surplus k = s.surplus k) ∧
      ∃ i, Reseated s n (prior, i) (s.movePrior (s.node n).pid prior) := by
  obtain ⟨bound, queues⟩ := seated
  have positive : 0 < (s.node n).pid := (queues.busy n used).1
  unfold System.movePrior
  cases popped : s.popMlfq (s.node n).pid with
  | none => exact absurd rfl (popMlfq_none popped n)
  | some u =>
    obtain ⟨n', empties⟩ := popMlfq_empties popped
    have emptied : Empties { s with nextpid := bound } (s.node n).pid n' { u with nextpid := bound } :=
      ⟨empties.found, empties.node, empties.others, empties.count, empties.proc, empties.sTable, rfl⟩
    obtain ⟨queues', used', gone⟩ := queues.empties emptied positive
    -- the node found is the node walked over
    have here : n' = n := queues.single n' n used' used empties.found
    subst here
    have fewer : s.usedNodes = u.usedNodes + 1 := empties.usedNodes used
    dsimp only
    rcases pushMlfq_fills u (s.node n').pid prior with ⟨i, fills⟩ | ⟨full, _⟩
    · have filled : NodeFills { u with nextpid := bound } (s.node n').pid (prior, i)
          { u.pushMlfq (s.node n').pid prior with nextpid := bound } :=
        ⟨fills.free, fills.node, fills.others, fills.count⟩
      refine ⟨⟨bound, queues'.fills filled (Nat.le_refl _) positive (queues.busy n' used).2 gone⟩, ?_, ?_, i, ?_⟩
      · rw [fills.usedNodes, fewer]
      · intro k
        have first : { u with nextpid := bound }.surplus k = s.surplus k := emptied.surplus queues positive k
        exact (fills.toNodeFills.surplus k).trans first
      · constructor
        · rw [fills.node]
          exact ⟨rfl, rfl, rfl⟩
        · intro other
          rw [fills.others n' other, empties.node]
        · intro other
          have before := empties.others (prior, i) (Ne.symm other)
          rw [← before]
          exact fills.free
        · intro m other place
          rw [fills.others m place, empties.others m other]
        · intro q
          rw [fills.proc q, empties.proc q]
          by_cases group : (s.proc q).pid = (s.node n').pid
          · simp only [if_pos group]
          · rw [if_neg group, if_neg group]
    · have small : { u with nextpid := bound }.usedNodes < NPROC := by
        show u.usedNodes < NPROC
        omega
      obtain ⟨i, free⟩ := queues'.room small prior
      exact absurd free (full i)

/-- A used node of the first queue that its LWPs point to. -/
structure Promoted (s : System) (n : NodeRef) : Prop where
  first : n.1 = 0
  fresh : (s.node n).eticks = 0
  /-- The LWPs of its pid point to it. -/
  points : ∀ q, (s.proc q).pid = (s.node n).pid → (s.proc q).schedstate = .mlfq ∧ (s.proc q).pmlfqNode = some n

/-- In the middle of a boost that began in `s`, with some nodes still to be visited. -/
structure Boosting (s : System) (todo : NodeRef → Prop) (t : System) : Prop where
  seated : Seated t
  /-- As many are used as before. -/
  used : t.usedNodes = s.usedNodes
  /-- The counters are not too small. -/
  counted : ∀ k, 0 ≤ t.surplus k
  /-- The pids with a node are those before. -/
  pids : ∀ pid, (∃ n, (t.node n).state = .used ∧ (t.node n).pid = pid) ↔
    ∃ n, (s.node n).state = .used ∧ (s.node n).pid = pid
  /-- Only the class of an LWP changes. -/
  proc : ∀ q, t.proc q =
    { s.proc q with schedstate := (t.proc q).schedstate, pmlfqNode := (t.proc q).pmlfqNode }
  /-- LWPs of other pids are unchanged. -/
  others : ∀ q, (∀ n, (s.node n).state = .used → (s.node n).pid ≠ (s.proc q).pid) → t.proc q = s.proc q
  /-- A used node is settled or still to be visited. -/
  settled : ∀ n, (t.node n).state = .used → todo n ∨ Promoted t n

namespace Boosting

variable {todo : NodeRef → Prop}

/-- The pids of the slots are those before. -/
theorem samePid (boosting : Boosting s todo t) (q : Lwp) : (t.proc q).pid = (s.proc q).pid := by
  rw [boosting.proc q]

/-- A group that moves is settled, and the settled ones stay so. -/
theorem move (boosting : Boosting s todo t) (room : s.usedNodes ≤ NPROC) (used : (t.node n).state = .used) :
    Boosting s (fun n' => todo n' ∧ n' ≠ n) (t.movePrior (t.node n).pid 0) := by
  obtain ⟨seated, same, surplus, i, moved⟩ := movePrior_seated boosting.seated (boosting.used ▸ room) used 0
  generalize t.movePrior (t.node n).pid 0 = u at seated same surplus moved
  obtain ⟨bound, queues⟩ := boosting.seated
  -- a used node afterwards is the new one, or was used before and is another one
  have after : ∀ n', (u.node n').state = .used → n' = (0, i) ∨
      n' ≠ n ∧ u.node n' = t.node n' ∧ (t.node n').pid ≠ (t.node n).pid := by
    intro n' busy
    by_cases new : n' = (0, i)
    · exact .inl new
    · right
      have other : n' ≠ n := by
        rintro rfl
        rw [moved.left new] at busy
        cases busy
      have kept := moved.others n' other new
      rw [kept] at busy
      exact ⟨other, kept, fun equal => other (queues.single n' n busy used equal)⟩
  constructor
  · exact seated
  · exact same.trans boosting.used
  · intro k
    rw [surplus k]
    exact boosting.counted k
  · intro pid
    rw [← boosting.pids pid]
    constructor
    · rintro ⟨n', busy, rfl⟩
      rcases after n' busy with rfl | ⟨_, kept, _⟩
      · exact ⟨n, used, moved.node.2.1.symm⟩
      · rw [kept] at busy ⊢
        exact ⟨n', busy, rfl⟩
    · rintro ⟨n', busy, rfl⟩
      by_cases here : n' = n
      · rw [here]
        exact ⟨(0, i), moved.node.1, moved.node.2.1⟩
      · have new : n' ≠ (0, i) := by
          rintro rfl
          rw [moved.free (Ne.symm here)] at busy
          cases busy
        rw [← moved.others n' here new] at busy ⊢
        exact ⟨n', busy, rfl⟩
  · intro q
    have slot := boosting.proc q
    rw [moved.proc q]
    by_cases group : (t.proc q).pid = (t.node n).pid
    · rw [if_pos group]
      conv_lhs => rw [slot]
    · rw [if_neg group]
      exact slot
  · intro q absent
    have before := boosting.others q absent
    have apart : ¬(t.proc q).pid = (t.node n).pid := by
      intro group
      obtain ⟨m, busy, equal⟩ := (boosting.pids (t.node n).pid).mp ⟨n, used, rfl⟩
      exact absent m busy (by rw [equal, ← group, boosting.samePid])
    rw [moved.proc q, if_neg apart]
    exact before
  · intro n' busy
    rcases after n' busy with rfl | ⟨other, kept, apart⟩
    · right
      refine ⟨rfl, moved.node.2.2, fun q group => ?_⟩
      have slot := moved.proc q
      by_cases mine : (t.proc q).pid = (t.node n).pid
      · rw [slot, if_pos mine]
        exact ⟨rfl, rfl⟩
      · rw [slot, if_neg mine, moved.node.2.1] at group
        exact absurd group mine
    · rw [kept] at busy
      rcases boosting.settled n' busy with waiting | settled
      · exact .inl ⟨waiting, other⟩
      · right
        refine ⟨settled.first, by rw [kept]; exact settled.fresh, fun q group => ?_⟩
        have slot := moved.proc q
        have theirs : ¬(t.proc q).pid = (t.node n).pid := by
          intro mine
          rw [slot, if_pos mine, kept] at group
          exact apart (group.symm.trans mine)
        rw [slot, if_neg theirs, kept] at group
        rw [slot, if_neg theirs]
        exact settled.points q group

/-- Fewer nodes are to be visited when the others are not in use. -/
theorem shrink (boosting : Boosting s todo t) {fewer : NodeRef → Prop}
    (only : ∀ n, todo n → (t.node n).state = .used → fewer n) : Boosting s fewer t :=
  { boosting with
    settled := fun n busy => (boosting.settled n busy).imp_left fun waiting => only n waiting busy }

/-- A node of the loops of `prior_boost`. -/
theorem node (boosting : Boosting s todo t) (room : s.usedNodes ≤ NPROC) (n : NodeRef) :
    Boosting s (fun n' => todo n' ∧ n' ≠ n) (t.boostNode n) := by
  unfold System.boostNode
  by_cases used : (t.node n).state = .used
  · rw [if_neg (not_not.mpr used)]
    exact boosting.move room used
  · rw [if_pos used]
    refine boosting.shrink fun n' waiting busy => ⟨waiting, ?_⟩
    rintro rfl
    exact used busy

/-- The nodes of one queue. -/
theorem loop (boosting : Boosting s todo t) (room : s.usedNodes ≤ NPROC) (prior : Fin 3) (entries : List Entry) :
    Boosting s (fun n => todo n ∧ ∀ i ∈ entries, n ≠ (prior, i))
      (entries.foldl (fun s i => s.boostNode (prior, i)) t) := by
  induction entries generalizing t todo with
  | nil => exact boosting.shrink fun _ waiting _ => ⟨waiting, fun _ member => nomatch member⟩
  | cons i rest ih =>
    refine (ih (boosting.node room (prior, i))).shrink fun n waiting _ => ?_
    obtain ⟨⟨still, other⟩, others⟩ := waiting
    refine ⟨still, fun j member => ?_⟩
    rcases List.mem_cons.mp member with rfl | later
    · exact other
    · exact others j later

/-- One queue. -/
theorem queue (boosting : Boosting s todo t) (room : s.usedNodes ≤ NPROC) (prior : Fin 3) :
    Boosting s (fun n => todo n ∧ n.1 ≠ prior) (t.boostQueue prior) := by
  unfold System.boostQueue
  split
  · -- the counter says that no node of the queue is used
    rename_i none
    refine boosting.shrink fun n waiting busy => ⟨waiting, ?_⟩
    rintro rfl
    have few := Int.sub_nonneg.mp (boosting.counted n.1)
    rw [none] at few
    exact count_zero.mp (Int.ofNat_eq_zero.mp (Int.le_antisymm few (Int.natCast_nonneg _))) n.2 busy
  · refine (boosting.loop room prior (List.finRange NPROC)).shrink fun n waiting _ => ⟨waiting.1, ?_⟩
    rintro rfl
    exact waiting.2 n.2 (List.mem_finRange _) rfl

end Boosting

/-- `prior_boost` keeps every group: each gets one node of the first queue. -/
theorem priorBoost_keeps_groups (ready : BoostReady s) : Boosted s s.priorBoost := by
  have start : Boosting s (fun _ => True) s :=
    ⟨ready.seated, rfl, fun k => Int.sub_nonneg.mpr (ready.counted k), fun _ => Iff.rfl, fun _ => rfl,
      fun _ _ => rfl, fun _ _ => .inl trivial⟩
  have walked := ((start.queue ready.room 0).queue ready.room 1).queue ready.room 2
  have queues : s.priorBoost = { ((s.boostQueue 0).boostQueue 1).boostQueue 2 with schedticks := 0 } := rfl
  generalize ((s.boostQueue 0).boostQueue 1).boostQueue 2 = t at walked queues
  have settled : ∀ n, (t.node n).state = .used → Promoted t n := by
    intro n busy
    refine (walked.settled n busy).resolve_left ?_
    rintro ⟨⟨⟨_, first⟩, second⟩, third⟩
    omega
  obtain ⟨bound, seated⟩ := walked.seated
  rw [queues]
  constructor
  · intro pid
    rw [← walked.pids pid]
    constructor
    · rintro ⟨i, here⟩
      exact ⟨(0, i), here⟩
    · rintro ⟨n, busy, same⟩
      have place : n = (0, n.2) := Prod.ext (settled n busy).first rfl
      rw [place] at busy same
      exact ⟨n.2, busy, same⟩
  · intro i j first second same
    exact congrArg Prod.snd (seated.single (0, i) (0, j) first second same)
  · exact fun i busy => (settled (0, i) busy).fresh
  · exact fun n other busy => other (settled n busy).first
  · intro q i busy group
    have points := (settled (0, i) busy).points q ((walked.samePid q).trans group)
    show t.proc q = _
    rw [walked.proc q, points.1, points.2]
  · exact walked.others

end Boosts

/-- Two groups, one in the middle of the first queue and one in the second. -/
def spreadGroups : System :=
  { System.emptyTables with
    proc := fun p =>
      if p = 0 then { System.zeroProc with pid := 1, schedstate := .mlfq, pmlfqNode := some (0, 5) }
      else if p = 1 then { System.zeroProc with pid := 2, schedstate := .mlfq, pmlfqNode := some (1, 3) }
      else System.zeroProc
    mTable := fun k =>
      if k = 0 then ⟨fun i => if i = 5 then ⟨.used, 4, 1, 0⟩ else ⟨.empty, 0, 0, 0⟩, 1, 5⟩
      else if k = 1 then ⟨fun i => if i = 3 then ⟨.used, 9, 2, 1⟩ else ⟨.empty, 0, 0, 1⟩, 2, 3⟩
      else System.emptyTables.mTable k }

/-- A boost keeps both. -/
theorem priorBoost_keeps_two : BoostReady spreadGroups ∧ Boosted spreadGroups spreadGroups.priorBoost := by
  have nodes : ∀ n, (spreadGroups.node n).state = .used →
      n = (0, 5) ∧ (spreadGroups.node n).pid = 1 ∨ n = (1, 3) ∧ (spreadGroups.node n).pid = 2 := by decide +kernel
  have ready : BoostReady spreadGroups := by
    constructor
    · decide +kernel
    · decide +kernel
    · decide +kernel
    · decide +kernel
    · intro n n' used used' same
      rcases nodes n used with ⟨here, pid⟩ | ⟨here, pid⟩ <;> rcases nodes n' used' with ⟨there, pid'⟩ | ⟨there, pid'⟩
      · rw [here, there]
      · omega
      · omega
      · rw [here, there]
    · decide +kernel
    · decide +kernel
  exact ⟨ready, priorBoost_keeps_groups ready⟩

end Xv6
