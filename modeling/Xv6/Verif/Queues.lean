import Mathlib.Data.Fintype.Prod
import Xv6.Lib.Occupancy
import Xv6.Verif.Groups

/-!
# Queue nodes

What `push_mlfq` and `pop_mlfq` change, and what holds of the nodes of the queues in every
state: a node is empty with `pid` 0, or it is used by a pid that was handed out and that no
other node has. A timer tick moves pids between the queues by popping and pushing them again.
-/

namespace Xv6

open Occupancy

/-! ## Replacing nodes -/

section Nodes

variable {s t u : System} {n n' : NodeRef}

/-- The node that was replaced. -/
@[simp] theorem System.setNode_self (s : System) (n : NodeRef) (m : MlfqNode) : (s.setNode n m).node n = m := by
  unfold System.node System.setNode
  simp only [Function.update_self]

/-- The other nodes. -/
theorem System.setNode_other (s : System) (m : MlfqNode) (other : n' ≠ n) :
    (s.setNode n m).node n' = s.node n' := by
  unfold System.node System.setNode
  by_cases queue : n'.1 = n.1
  · have index : n'.2 ≠ n.2 := fun same => other (Prod.ext queue same)
    simp only [queue, Function.update_self, Function.update_of_ne index]
  · simp only [Function.update_of_ne queue]

/-- Replacing a node changes no counter. -/
@[simp] theorem System.setNode_count (s : System) (n : NodeRef) (m : MlfqNode) (k : Fin 3) :
    ((s.setNode n m).mTable k).count = (s.mTable k).count := by
  unfold System.setNode
  by_cases queue : k = n.1
  · simp only [queue, Function.update_self]
  · simp only [Function.update_of_ne queue]

/-- Adding to a counter changes no node. -/
@[simp] theorem System.addCount_node (s : System) (prior : Fin 3) (change : Int) (n : NodeRef) :
    (s.addCount prior change).node n = s.node n := by
  unfold System.node System.addCount
  by_cases queue : n.1 = prior
  · simp only [queue, Function.update_self]
  · simp only [Function.update_of_ne queue]

/-- Adding to a counter. -/
theorem System.addCount_count (s : System) (prior : Fin 3) (change : Int) (k : Fin 3) :
    ((s.addCount prior change).mTable k).count = (s.mTable k).count + if k = prior then change else 0 := by
  unfold System.addCount
  by_cases queue : k = prior
  · simp only [queue, Function.update_self, if_true]
  · simp only [Function.update_of_ne queue, if_neg queue, Int.add_zero]

/-- The loops of `pop_mlfq` visit every node. -/
theorem System.mem_nodes (n : NodeRef) : n ∈ System.nodes := by
  unfold System.nodes
  rw [List.mem_flatMap]
  exact ⟨n.1, List.mem_finRange _, List.mem_map.mpr ⟨n.2, List.mem_finRange _, rfl⟩⟩

end Nodes

/-! ## Pushing and popping -/

/-- An empty node was filled with a pid. -/
structure NodeFills (s : System) (pid : Nat) (n : NodeRef) (t : System) : Prop where
  free : (s.node n).state = .empty
  /-- It is used. -/
  node : t.node n = { s.node n with pid, state := .used, eticks := 0 }
  others : ∀ n', n' ≠ n → t.node n' = s.node n'
  count : ∀ k, (t.mTable k).count = (s.mTable k).count + if k = n.1 then 1 else 0

/-- `push_mlfq` put a pid into a node. -/
structure Fills (s : System) (pid : Nat) (n : NodeRef) (t : System) : Prop extends NodeFills s pid n t where
  /-- The slots of the pid point to the node. -/
  proc : ∀ q, t.proc q = if (s.proc q).pid = pid then
    { s.proc q with schedstate := .mlfq, pmlfqNode := some n } else s.proc q
  sTable : t.sTable = s.sTable
  nextpid : t.nextpid = s.nextpid

/-- `pop_mlfq` took a pid out of a node. -/
structure Empties (s : System) (pid : Nat) (n : NodeRef) (t : System) : Prop where
  found : (s.node n).pid = pid
  /-- It is empty. -/
  node : t.node n = { s.node n with state := .empty, pid := 0, eticks := 0 }
  others : ∀ n', n' ≠ n → t.node n' = s.node n'
  count : ∀ k, (t.mTable k).count = (s.mTable k).count - if k = (s.node n).prior then 1 else 0
  /-- The slots of the pid point to no node. -/
  proc : ∀ q, t.proc q = if (s.proc q).pid = pid then
    { s.proc q with schedstate := .used, pmlfqNode := none } else s.proc q
  sTable : t.sTable = s.sTable
  nextpid : t.nextpid = s.nextpid

section PushPop

variable {s t : System} {pid : Nat}

/-- `push_mlfq` fills a node, unless the queue has no empty one. -/
theorem pushMlfq_fills (s : System) (pid : Nat) (prior : Fin 3) :
    (∃ i, Fills s pid (prior, i) (s.pushMlfq pid prior)) ∨
      (∀ i, (s.node (prior, i)).state ≠ .empty) ∧ s.pushMlfq pid prior = s := by
  unfold System.pushMlfq
  split
  · rename_i full
    refine .inr ⟨fun i free => ?_, rfl⟩
    have refused := List.find?_eq_none.mp full i (List.mem_finRange i)
    rw [free] at refused
    exact refused rfl
  · rename_i i found
    have free := firstSlot_some found
    rw [beq_iff_eq] at free
    refine .inl ⟨i, ⟨free, ?_, ?_, ?_⟩, fun _ => rfl, rfl, rfl⟩
    · exact System.setNode_self _ _ _
    · intro n' other
      exact (System.setNode_other _ _ other).trans (System.addCount_node _ _ _ _)
    · intro k
      exact (System.setNode_count _ _ _ k).trans (System.addCount_count _ _ _ k)

/-- `pop_mlfq` empties a node. -/
theorem popMlfq_empties (popped : s.popMlfq pid = some t) : ∃ n, Empties s pid n t := by
  unfold System.popMlfq at popped
  split at popped
  · contradiction
  · rename_i n found
    have pid := List.find?_some found
    rw [beq_iff_eq] at pid
    cases popped
    refine ⟨n, pid, ?_, ?_, ?_, fun _ => rfl, rfl, rfl⟩
    · exact (System.addCount_node _ _ _ _).trans (System.setNode_self _ _ _)
    · intro n' other
      exact (System.addCount_node _ _ _ _).trans (System.setNode_other _ _ other)
    · intro k
      refine (System.addCount_count _ _ _ k).trans ?_
      rw [System.setNode_count]
      change (s.mTable k).count + (if k = (s.node n).prior then -1 else 0) = _
      by_cases queue : k = (s.node n).prior
      · rw [if_pos queue, if_pos queue]
        rfl
      · rw [if_neg queue, if_neg queue]
        omega

/-- Without a result of `pop_mlfq` no node has the pid. -/
theorem popMlfq_none (missed : s.popMlfq pid = none) (n : NodeRef) : (s.node n).pid ≠ pid := by
  unfold System.popMlfq at missed
  split at missed
  · rename_i absent
    intro same
    have refused := List.find?_eq_none.mp absent n (System.mem_nodes n)
    rw [same] at refused
    exact refused (beq_self_eq_true pid)
  · contradiction

end PushPop

/-! ## The nodes -/

/-- The nodes of the queues. -/
structure Queues (s : System) : Prop where
  /-- `prior` is the queue of a node. -/
  prior : ∀ n, (s.node n).prior = n.1
  /-- A node that is not used is empty and has pid 0. -/
  idle : ∀ n, (s.node n).state ≠ .used → (s.node n).state = .empty ∧ (s.node n).pid = 0
  /-- A used node has a pid that was handed out. -/
  busy : ∀ n, (s.node n).state = .used → 0 < (s.node n).pid ∧ (s.node n).pid < s.nextpid
  /-- Used nodes have different pids. -/
  single : ∀ n n', (s.node n).state = .used → (s.node n').state = .used →
    (s.node n).pid = (s.node n').pid → n = n'

/-- The used nodes of a queue. -/
def System.usedIn (s : System) (prior : Fin 3) : Nat :=
  count fun i => (s.node (prior, i)).state = .used

/-- The used nodes of all queues. -/
def System.usedNodes (s : System) : Nat := count fun n : NodeRef => (s.node n).state = .used

/-- The nodes are the same but for their ticks. -/
def SameNodes (s t : System) : Prop :=
  ∀ n, (t.node n).prior = (s.node n).prior ∧ (t.node n).state = (s.node n).state ∧ (t.node n).pid = (s.node n).pid

section Tables

variable {s t u : System} {pid : Nat} {n : NodeRef} {p : Lwp}

/-- Nothing changed. -/
theorem SameNodes.refl (s : System) : SameNodes s s := fun _ => ⟨rfl, rfl, rfl⟩

/-- The same nodes. -/
theorem SameNodes.of_eq (same : ∀ n, t.node n = s.node n) : SameNodes s t := by
  intro n
  rw [same n]
  exact ⟨rfl, rfl, rfl⟩

/-- Two changes. -/
theorem SameNodes.trans (first : SameNodes s t) (second : SameNodes t u) : SameNodes s u :=
  fun n => ⟨(second n).1.trans (first n).1, (second n).2.1.trans (first n).2.1, (second n).2.2.trans (first n).2.2⟩

/-- As many nodes are used in a queue. -/
theorem SameNodes.usedIn (same : SameNodes s t) (k : Fin 3) : t.usedIn k = s.usedIn k :=
  count_congr fun i => by rw [(same (k, i)).2.1]

/-- As many nodes are used. -/
theorem SameNodes.usedNodes (same : SameNodes s t) : t.usedNodes = s.usedNodes :=
  count_congr fun n => by rw [(same n).2.1]

/-- A change of nothing but ticks. -/
theorem Queues.congr (queues : Queues s) (same : SameNodes s t) (later : s.nextpid ≤ t.nextpid) : Queues t where
  prior n := (same n).1.trans (queues.prior n)
  idle n free := by
    rw [(same n).2.1] at free ⊢
    rw [(same n).2.2]
    exact queues.idle n free
  busy n used := by
    rw [(same n).2.1] at used
    rw [(same n).2.2]
    exact ⟨(queues.busy n used).1, Nat.lt_of_lt_of_le (queues.busy n used).2 later⟩
  single n n' first second pids := by
    rw [(same n).2.1] at first
    rw [(same n').2.1] at second
    rw [(same n).2.2, (same n').2.2] at pids
    exact queues.single n n' first second pids

/-- A node with a positive pid is used. -/
theorem Queues.used_of_pid (queues : Queues s) (positive : 0 < (s.node n).pid) : (s.node n).state = .used := by
  by_contra free
  rw [(queues.idle n free).2] at positive
  exact Nat.lt_irrefl 0 positive

/-- A pid that is moved is positive. -/
theorem Queues.positive_of_known (queues : Queues s)
    (known : 0 < pid ∨ ∃ n, (s.node n).state = .used ∧ (s.node n).pid = pid) : 0 < pid := by
  rcases known with above | ⟨n, used, same⟩
  · exact above
  · rw [← same]
    exact (queues.busy n used).1

/-- An empty node is filled with a pid that no node has. -/
theorem Queues.fills (queues : Queues s) (fills : NodeFills s pid n t) (later : s.nextpid ≤ t.nextpid)
    (positive : 0 < pid) (old : pid < t.nextpid) (fresh : ∀ n', (s.node n').pid ≠ pid) : Queues t where
  prior n' := by
    by_cases here : n' = n
    · rw [here, fills.node]
      exact queues.prior n
    · rw [fills.others n' here]
      exact queues.prior n'
  idle n' free := by
    by_cases here : n' = n
    · rw [here, fills.node] at free
      exact absurd rfl free
    · rw [fills.others n' here] at free ⊢
      exact queues.idle n' free
  busy n' used := by
    by_cases here : n' = n
    · rw [here, fills.node]
      exact ⟨positive, old⟩
    · rw [fills.others n' here] at used ⊢
      exact ⟨(queues.busy n' used).1, Nat.lt_of_lt_of_le (queues.busy n' used).2 later⟩
  single n' n'' first second same := by
    by_cases here : n' = n
    · by_cases there : n'' = n
      · rw [here, there]
      · rw [here, fills.node, fills.others n'' there] at same
        exact absurd same.symm (fresh n'')
    · by_cases there : n'' = n
      · rw [there, fills.node, fills.others n' here] at same
        exact absurd same (fresh n')
      · rw [fills.others n' here] at first same
        rw [fills.others n'' there] at second same
        exact queues.single n' n'' first second same

/-- A node is emptied. -/
theorem Queues.clear (queues : Queues s) (prior : (t.node n).prior = (s.node n).prior)
    (state : (t.node n).state = .empty) (pid : (t.node n).pid = 0) (others : ∀ n', n' ≠ n → t.node n' = s.node n')
    (later : s.nextpid ≤ t.nextpid) : Queues t where
  prior n' := by
    by_cases here : n' = n
    · rw [here, prior]
      exact queues.prior n
    · rw [others n' here]
      exact queues.prior n'
  idle n' free := by
    by_cases here : n' = n
    · rw [here]
      exact ⟨state, pid⟩
    · rw [others n' here] at free ⊢
      exact queues.idle n' free
  busy n' used := by
    by_cases here : n' = n
    · rw [here, state] at used
      contradiction
    · rw [others n' here] at used ⊢
      exact ⟨(queues.busy n' used).1, Nat.lt_of_lt_of_le (queues.busy n' used).2 later⟩
  single n' n'' first second same := by
    have here : n' ≠ n := by
      rintro rfl
      rw [state] at first
      contradiction
    have there : n'' ≠ n := by
      rintro rfl
      rw [state] at second
      contradiction
    rw [others n' here] at first same
    rw [others n'' there] at second same
    exact queues.single n' n'' first second same

/-- `pop_mlfq` of a positive pid leaves no node with it. -/
theorem Queues.empties (queues : Queues s) (empties : Empties s pid n t) (positive : 0 < pid) :
    Queues t ∧ (s.node n).state = .used ∧ ∀ n', (t.node n').pid ≠ pid := by
  have cleared : Queues t := by
    refine queues.clear (n := n) ?_ ?_ ?_ empties.others (Nat.le_of_eq empties.nextpid.symm)
    · rw [empties.node]
    · rw [empties.node]
    · rw [empties.node]
  have used : (s.node n).state = .used := queues.used_of_pid (by rw [empties.found]; exact positive)
  refine ⟨cleared, used, fun n' same => ?_⟩
  by_cases here : n' = n
  · rw [here, empties.node] at same
    exact absurd same.symm (Nat.ne_of_gt positive)
  · rw [empties.others n' here] at same
    have busy : (s.node n').state = .used := queues.used_of_pid (by rw [same]; exact positive)
    exact here (queues.single n' n busy used (same.trans empties.found.symm))

/-- A filled node is one more. -/
theorem NodeFills.usedIn (fills : NodeFills s pid n t) (k : Fin 3) :
    t.usedIn k = s.usedIn k + if k = n.1 then 1 else 0 := by
  have free : (s.node n).state ≠ .used := by
    rw [fills.free]
    exact StrideState.noConfusion
  by_cases queue : k = n.1
  · rw [if_pos queue]
    refine count_take (i := n.2) ?_ ?_ ?_
    · rw [queue]
      exact free
    · rw [queue, fills.node]
    · intro j other
      rw [fills.others]
      rintro same
      exact other (congrArg Prod.snd same)
  · rw [if_neg queue]
    refine count_congr fun i => ?_
    rw [fills.others]
    rintro same
    exact queue (congrArg Prod.fst same)

/-- A filled node is one more. -/
theorem NodeFills.usedNodes (fills : NodeFills s pid n t) : t.usedNodes = s.usedNodes + 1 := by
  refine count_take (i := n) ?_ ?_ ?_
  · rw [fills.free]
    exact StrideState.noConfusion
  · rw [fills.node]
  · intro n' other
    rw [fills.others n' other]

/-- An emptied node is one less. -/
theorem Empties.usedIn (empties : Empties s pid n t) (used : (s.node n).state = .used) (k : Fin 3) :
    s.usedIn k = t.usedIn k + if k = n.1 then 1 else 0 := by
  by_cases queue : k = n.1
  · rw [if_pos queue]
    refine count_release (i := n.2) ?_ ?_ ?_
    · rw [queue]
      exact used
    · rw [queue, empties.node]
      exact StrideState.noConfusion
    · intro j other
      rw [empties.others]
      rintro same
      exact other (congrArg Prod.snd same)
  · rw [if_neg queue]
    refine count_congr fun i => ?_
    rw [empties.others]
    rintro same
    exact queue (congrArg Prod.fst same)

/-- An emptied node is one less. -/
theorem Empties.usedNodes (empties : Empties s pid n t) (used : (s.node n).state = .used) :
    s.usedNodes = t.usedNodes + 1 := by
  refine count_release (i := n) used ?_ ?_
  · rw [empties.node]
    exact StrideState.noConfusion
  · intro n' other
    rw [empties.others n' other]

/-- Where fewer nodes are used than a queue has, every queue has an empty one. -/
theorem Queues.room (queues : Queues s) (room : s.usedNodes < NPROC) (prior : Fin 3) :
    ∃ i, (s.node (prior, i)).state = .empty := by
  have injective : Function.Injective fun i : Entry => (prior, i) := fun i j same => congrArg Prod.snd same
  have size : Fintype.card Entry = NPROC := Fintype.card_fin NPROC
  obtain ⟨i, free⟩ := exists_free (fun i : Entry => (prior, i)) injective (by rw [size]; exact room)
  exact ⟨i, (queues.idle _ free).1⟩

end Tables

end Xv6
