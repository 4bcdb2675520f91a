import Xv6.Lib.RoundRobin
import Xv6.Verif.Picking

/-!
# Round robin in a group and in a queue

`pick_lwp` searches the LWPs of a group after the one it picked last, and `pick_mlfq` the nodes of
a queue after the one it served last. As long as the runnable LWPs of the group, or the nodes with
a runnable group in the first queue that has one, stay the same, the calls go round: each LWP, or
each group, once in as many calls as there are.
-/

namespace Xv6

open RoundRobin (Round next)

/-- The searches of the scheduler start after a remembered index. -/
theorem indexesAfter_eq (recent : Fin NPROC) : indexesAfter recent = RoundRobin.after recent := by
  unfold indexesAfter RoundRobin.after
  rw [← List.map_coe_finRange_eq_range, List.map_map]
  apply List.map_congr_left
  intro i _
  apply Fin.ext
  show ((recent.val + 1) % NPROC + i.val) % NPROC = (recent.val + 1 + i.val) % NPROC
  rw [Nat.mod_add_mod]

/-- Some calls return each member of a set exactly once. -/
def ServesOnce {α : Type} (results : List (Option α)) (members : Finset α) : Prop :=
  ∃ picks : List α, results = picks.map some ∧ picks.Nodup ∧ ∀ x, x ∈ picks ↔ x ∈ members

/-! ## Inside a group -/

/-- The test of `pick_lwp`. -/
def System.wanted (s : System) (pid : Nat) (p : Lwp) : Bool :=
  decide ((s.proc p).state = .runnable) && (s.proc p).pid == pid

/-- The runnable LWPs of a group. -/
def runnableLwps (s : System) (pid : Nat) : Finset Lwp := Finset.univ.filter fun p => s.wanted pid p = true

/-- From `s` to `t` nothing changed that `pick_lwp` looks at: the master of the group, the LWP it
remembers, and the runnable LWPs of the group. -/
structure SamePicking (pid : Nat) (s t : System) : Prop where
  master : t.findMaster pid = s.findMaster pid
  cur : ∀ m, s.findMaster pid = some m → (t.proc m).cur = (s.proc m).cur
  wanted : t.wanted pid = s.wanted pid

/-- One call of `pick_lwp` with its result, after anything else that leaves the group's LWPs runnable. -/
def pickStep (pid : Nat) (s : System) (result : Option Lwp) (t : System) : Prop :=
  ∃ u, SamePicking pid s u ∧ u.pickLwp pid = some (result, t)

/-- The slots have the same pids, tids and states. -/
def SameSlots (s t : System) : Prop :=
  ∀ p, (t.proc p).pid = (s.proc p).pid ∧ (t.proc p).tid = (s.proc p).tid ∧ (t.proc p).state = (s.proc p).state

section Picks

variable {s t u : System} {pid : Nat} {m p : Lwp} {k : Fin 3}

namespace SameSlots

/-- The masters are the same. -/
theorem findMaster (same : SameSlots s t) (pid : Nat) : t.findMaster pid = s.findMaster pid := by
  unfold System.findMaster
  congr 1
  funext p
  obtain ⟨pids, tids, _⟩ := same p
  rw [pids, tids]

/-- The runnable LWPs are the same. -/
theorem wanted (same : SameSlots s t) (pid : Nat) : t.wanted pid = s.wanted pid := by
  funext p
  obtain ⟨pids, _, states⟩ := same p
  unfold System.wanted
  rw [pids, states]

/-- The runnable groups are the same. -/
theorem isRunnable (same : SameSlots s t) (pid : Nat) : t.isRunnable pid = s.isRunnable pid := by
  unfold System.isRunnable
  congr 1
  funext p
  obtain ⟨pids, _, states⟩ := same p
  rw [pids, states]

end SameSlots

/-- `isRunnable` says that the test of `pick_lwp` holds of some LWP. -/
theorem isRunnable_iff_wanted : s.isRunnable pid = true ↔ ∃ p, s.wanted pid p = true := by
  rw [isRunnable_iff]
  constructor
  · rintro ⟨p, same, state⟩
    refine ⟨p, ?_⟩
    unfold System.wanted
    rw [same, state, decide_eq_true rfl, beq_self_eq_true, Bool.and_true]
  · rintro ⟨p, here⟩
    unfold System.wanted at here
    rw [Bool.and_eq_true, decide_eq_true_eq, beq_iff_eq] at here
    exact ⟨p, here.2, here.1⟩

/-- `pick_lwp` returns the next runnable LWP and remembers it. -/
theorem pickLwp_next (master : s.findMaster pid = some m) (found : next (s.wanted pid) (s.proc m).cur = some p) :
    ∃ t, s.pickLwp pid = some (some p, t) ∧ SameSlots s t ∧ (t.proc m).cur = p ∧ t.mTable = s.mTable := by
  refine ⟨s.setProc m { s.proc m with cur := p }, ?_, ?_, ?_, rfl⟩
  · have search : (indexesAfter (s.proc m).cur).find?
        (fun p => decide ((s.proc p).state = .runnable) && (s.proc p).pid == pid) = some p := by
      rw [indexesAfter_eq]
      exact found
    unfold System.pickLwp
    rw [master]
    dsimp only
    rw [search]
  · intro q
    by_cases here : q = m
    · rw [here, System.setProc_self]
      exact ⟨rfl, rfl, rfl⟩
    · rw [System.setProc_other _ _ here]
      exact ⟨rfl, rfl, rfl⟩
  · rw [System.setProc_self]

/-- A group with a runnable LWP has one that `pick_lwp` returns. -/
theorem pickLwp_returns (master : s.findMaster pid = some m) (runnable : s.isRunnable pid = true) :
    ∃ p t, s.pickLwp pid = some (some p, t) ∧ next (s.wanted pid) (s.proc m).cur = some p ∧
      SameSlots s t ∧ (t.proc m).cur = p ∧ t.mTable = s.mTable := by
  obtain ⟨q, here⟩ := isRunnable_iff_wanted.mp runnable
  obtain ⟨p, found⟩ := RoundRobin.next_isSome _ (s.proc m).cur here
  obtain ⟨t, picked, effect⟩ := pickLwp_next master found
  exact ⟨p, t, picked, found, effect⟩

/-- Calls of `pick_lwp` keep the master and the runnable LWPs, and as long as there are no more calls than
runnable LWPs they are a round. -/
theorem picks_round {results : List (Option Lwp)} (master : s.findMaster pid = some m)
    (runnable : s.isRunnable pid = true) (run : Run (pickStep pid) s results t) :
    t.findMaster pid = some m ∧ t.wanted pid = s.wanted pid ∧
      (results.length ≤ (runnableLwps s pid).card →
        ∃ picks, results = picks.map some ∧ Round (s.wanted pid) (s.proc m).cur (t.proc m).cur picks) := by
  refine run.history (fun results t => t.findMaster pid = some m ∧ t.wanted pid = s.wanted pid ∧
    (results.length ≤ (runnableLwps s pid).card →
      ∃ picks, results = picks.map some ∧ Round (s.wanted pid) (s.proc m).cur (t.proc m).cur picks)) ?_ ?_
  · exact ⟨master, rfl, fun _ => ⟨[], rfl, .nothing _ _⟩⟩
  · rintro before t result v _ ⟨owner, wanted, round⟩ ⟨u, same, picked⟩
    have owner' : u.findMaster pid = some m := same.master.trans owner
    have wanted' : u.wanted pid = s.wanted pid := same.wanted.trans wanted
    have runnable' : u.isRunnable pid = true := by
      rw [isRunnable_iff_wanted, wanted', ← isRunnable_iff_wanted]
      exact runnable
    obtain ⟨p, v', picked', found, slots, cur, _⟩ := pickLwp_returns owner' runnable'
    rw [picked] at picked'
    cases picked'
    refine ⟨(slots.findMaster pid).trans owner', (slots.wanted pid).trans wanted', fun few => ?_⟩
    rw [List.length_append, List.length_singleton] at few
    obtain ⟨picks, results_eq, so_far⟩ := round (by omega)
    have length : picks.length = before.length := by rw [results_eq, List.length_map]
    obtain ⟨i, left⟩ := so_far.left (by
      rw [length]
      exact few)
    obtain ⟨j, chosen, later⟩ := so_far.next left
    rw [same.cur m owner, wanted'] at found
    rw [found] at chosen
    cases chosen
    rw [← cur] at later
    refine ⟨picks ++ [p], ?_, ?_⟩
    · rw [results_eq, List.map_append]
      rfl
    · rw [← cur]
      exact later

/-! ## Inside a queue -/

/-- The queues are in order: used nodes have different pids, their groups have masters, and the counters
are not too small. -/
structure TidyQueues (s : System) : Prop where
  /-- One node for each pid. -/
  distinct : ∀ n n', (s.node n).state = .used → (s.node n').state = .used →
    (s.node n).pid = (s.node n').pid → n = n'
  master : ∀ n, (s.node n).state = .used → ∃ m, s.findMaster (s.node n).pid = some m
  covered : Covered s

/-- The first queue that has a node with a runnable group. -/
def FirstReady (s : System) (k : Fin 3) : Prop :=
  (∃ i, s.nodeReady (k, i) = true) ∧ ∀ n : NodeRef, n.1 < k → s.nodeReady n = false

/-- The runnable groups of a queue. -/
def readyGroups (s : System) (k : Fin 3) : Finset Nat :=
  (Finset.univ.filter fun i => s.nodeReady (k, i) = true).image fun i => (s.node (k, i)).pid

/-- From `s` to `t` nothing changed that `pick_mlfq` looks at: the nodes with a runnable group of the first
queue that has one, and the node it remembers there. -/
structure SameServing (k : Fin 3) (s t : System) : Prop where
  tidy : TidyQueues t
  /-- No queue before has a node with a runnable group. -/
  first : ∀ n : NodeRef, n.1 < k → t.nodeReady n = false
  /-- The nodes with a runnable group. -/
  ready : ∀ i, t.nodeReady (k, i) = s.nodeReady (k, i)
  /-- Their groups. -/
  pid : ∀ i, s.nodeReady (k, i) = true → (t.node (k, i)).pid = (s.node (k, i)).pid
  /-- `recent_index`. -/
  recent : (t.mTable k).recentIndex = (s.mTable k).recentIndex

/-- The group that a pick serves: that of a runnable LWP. -/
def System.served (s : System) (picked : Option Lwp) : Option Nat :=
  picked.bind fun p => if (s.proc p).state = .runnable then some (s.proc p).pid else none

/-- One call of `pick_mlfq` with the group it serves, after anything else that leaves the groups of the
queue runnable. -/
def serveStep (k : Fin 3) (s : System) (result : Option Nat) (t : System) : Prop :=
  ∃ u p, SameServing k s u ∧ u.pickMlfq = some (p, t) ∧ result = u.served p

/-- A queue without a runnable group is passed over. -/
theorem pickQueues_skip {rest : List (Fin 3)} (idle : ∀ i, s.nodeReady (k, i) = false) :
    s.pickQueues (k :: rest) = s.pickQueues rest := by
  rw [System.pickQueues]
  split
  · rfl
  · have missed : (indexesAfter (s.mTable k).recentIndex).find? (fun i => s.nodeReady (k, i)) = none := by
      rw [List.find?_eq_none]
      intro i _
      rw [idle i]
      exact Bool.false_ne_true
    rw [missed]

/-- `pick_mlfq` serves the next runnable group of the first queue that has one, and remembers its node. -/
theorem pickMlfq_next {i : Fin NPROC} (tidy : TidyQueues s) (first : ∀ n : NodeRef, n.1 < k → s.nodeReady n = false)
    (found : next (fun i => s.nodeReady (k, i)) (s.mTable k).recentIndex = some i) :
    ∃ p t, s.pickMlfq = some (some p, t) ∧ s.served (some p) = some (s.node (k, i)).pid ∧ SameSlots s t ∧
      t.mTable = Function.update s.mTable k { s.mTable k with recentIndex := i } := by
  have ready := (RoundRobin.next_eq_some found).1
  have used : (s.node (k, i)).state = .used ∧ s.isRunnable (s.node (k, i)).pid = true := by
    unfold System.nodeReady at ready
    rw [Bool.and_eq_true, decide_eq_true_eq] at ready
    exact ready
  obtain ⟨m, master⟩ := tidy.master _ used.1
  -- the queue before the group is picked
  obtain ⟨remembered, here⟩ : ∃ u : System, u =
      { s with mTable := Function.update s.mTable k { s.mTable k with recentIndex := i } } := ⟨_, rfl⟩
  have slots : SameSlots s remembered := by
    intro p
    rw [here]
    exact ⟨rfl, rfl, rfl⟩
  obtain ⟨p, t, picked, chosen, same, _, table⟩ := pickLwp_returns ((slots.findMaster _).trans master)
    ((slots.isRunnable _).trans used.2)
  have nonempty : (s.mTable k).count ≠ 0 := by
    intro empty
    have few := Int.sub_nonneg.mp (tidy.covered k)
    rw [empty] at few
    have unused := Occupancy.count_zero.mp
      (Int.ofNat_eq_zero.mp (Int.le_antisymm few (Int.natCast_nonneg _))) i
    exact unused used.1
  have search : (indexesAfter (s.mTable k).recentIndex).find? (fun i => s.nodeReady (k, i)) = some i := by
    rw [indexesAfter_eq]
    exact found
  have hit : ∀ rest, s.pickQueues (k :: rest) = some (some p, t) := by
    intro rest
    rw [System.pickQueues, if_neg nonempty, search, ← picked, here]
  have order : s.pickMlfq = some (some p, t) := by
    unfold System.pickMlfq
    have queues : List.finRange 3 = [0, 1, 2] := rfl
    have idle : ∀ j : Fin 3, j < k → ∀ i, s.nodeReady (j, i) = false := fun j before i => first (j, i) before
    have which : k = 0 ∨ k = 1 ∨ k = 2 := by omega
    rw [queues]
    rcases which with rfl | rfl | rfl
    · exact hit _
    · rw [pickQueues_skip (idle 0 (by decide)), hit]
    · rw [pickQueues_skip (idle 0 (by decide)), pickQueues_skip (idle 1 (by decide)), hit]
  refine ⟨p, t, order, ?_, fun q => ?_, ?_⟩
  · have want := (RoundRobin.next_eq_some chosen).1
    rw [slots.wanted] at want
    unfold System.wanted at want
    rw [Bool.and_eq_true, decide_eq_true_eq, beq_iff_eq] at want
    show (if (s.proc p).state = .runnable then some (s.proc p).pid else none) = _
    rw [if_pos want.1, want.2]
  · obtain ⟨pids, tids, states⟩ := same q
    obtain ⟨pids', tids', states'⟩ := slots q
    exact ⟨pids.trans pids', tids.trans tids', states.trans states'⟩
  · rw [table, here]

/-- A call of `pick_mlfq` keeps the nodes of all queues. -/
theorem node_remember {i : Fin NPROC} (table : t.mTable =
    Function.update s.mTable k { s.mTable k with recentIndex := i }) (n : NodeRef) : t.node n = s.node n := by
  unfold System.node
  rw [table]
  by_cases here : n.1 = k
  · rw [here, Function.update_self]
  · rw [Function.update_of_ne here]

/-- A call of `pick_mlfq` keeps what the next one looks at, but for the remembered node. -/
theorem nodeReady_remember {i : Fin NPROC} (slots : SameSlots s t) (table : t.mTable =
    Function.update s.mTable k { s.mTable k with recentIndex := i }) (n : NodeRef) :
    t.nodeReady n = s.nodeReady n := by
  unfold System.nodeReady
  rw [node_remember table, slots.isRunnable]

/-- A call of `pick_mlfq` keeps the queues in order. -/
theorem TidyQueues.remember (tidy : TidyQueues s) {i : Fin NPROC} (slots : SameSlots s t) (table : t.mTable =
    Function.update s.mTable k { s.mTable k with recentIndex := i }) : TidyQueues t where
  distinct n n' used used' same := by
    rw [node_remember table] at used same
    rw [node_remember table] at used' same
    exact tidy.distinct n n' used used' same
  master n used := by
    rw [node_remember table] at used ⊢
    rw [slots.findMaster]
    exact tidy.master n used
  covered j := by
    have counts : ∀ j, (t.mTable j).count = (s.mTable j).count := by
      intro j
      rw [table]
      by_cases here : j = k
      · rw [here, Function.update_self]
      · rw [Function.update_of_ne here]
    rw [(SameNodes.of_eq (node_remember table)).surplus counts j]
    exact tidy.covered j

/-- Calls of `pick_mlfq` keep the runnable groups of the first queue that has one, and as long as there are
no more calls than groups they are a round. -/
theorem serves_round {results : List (Option Nat)} (first : FirstReady s k)
    (run : Run (serveStep k) s results t) :
    (∀ n : NodeRef, n.1 < k → t.nodeReady n = false) ∧
      (∀ i, t.nodeReady (k, i) = s.nodeReady (k, i)) ∧
      (∀ i, s.nodeReady (k, i) = true → (t.node (k, i)).pid = (s.node (k, i)).pid) ∧
      (results.length ≤ (Finset.univ.filter fun i => s.nodeReady (k, i) = true).card →
        ∃ picks, results = picks.map (fun i => some (s.node (k, i)).pid) ∧
          Round (fun i => s.nodeReady (k, i)) (s.mTable k).recentIndex (t.mTable k).recentIndex picks) := by
  obtain ⟨⟨ready, ready_here⟩, before⟩ := first
  refine run.history (fun results t =>
    (∀ n : NodeRef, n.1 < k → t.nodeReady n = false) ∧
      (∀ i, t.nodeReady (k, i) = s.nodeReady (k, i)) ∧
      (∀ i, s.nodeReady (k, i) = true → (t.node (k, i)).pid = (s.node (k, i)).pid) ∧
      (results.length ≤ (Finset.univ.filter fun i => s.nodeReady (k, i) = true).card →
        ∃ picks, results = picks.map (fun i => some (s.node (k, i)).pid) ∧
          Round (fun i => s.nodeReady (k, i)) (s.mTable k).recentIndex (t.mTable k).recentIndex picks)) ?_ ?_
  · exact ⟨before, fun _ => rfl, fun _ _ => rfl, fun _ => ⟨[], rfl, .nothing _ _⟩⟩
  · rintro earlier t result v _ ⟨_, sameReady, samePid, round⟩ ⟨u, p, same, picked, served⟩
    have ready_u : (fun i => u.nodeReady (k, i)) = fun i => s.nodeReady (k, i) :=
      funext fun i => (same.ready i).trans (sameReady i)
    have pid_u : ∀ i, s.nodeReady (k, i) = true → (u.node (k, i)).pid = (s.node (k, i)).pid := by
      intro i here
      have there := here
      rw [← sameReady] at there
      exact (same.pid i there).trans (samePid i here)
    obtain ⟨i, found⟩ := RoundRobin.next_isSome (fun i => u.nodeReady (k, i)) (u.mTable k).recentIndex
      ((congrFun ready_u ready).trans ready_here)
    obtain ⟨q, v', picked', group, slots, table⟩ := pickMlfq_next same.tidy same.first found
    rw [picked] at picked'
    cases picked'
    rw [group] at served
    rw [ready_u, same.recent] at found
    have here := (RoundRobin.next_eq_some found).1
    refine ⟨?_, ?_, ?_, fun few => ?_⟩
    · intro n low
      rw [nodeReady_remember slots table]
      exact same.first n low
    · intro j
      rw [nodeReady_remember slots table]
      exact congrFun ready_u j
    · intro j there
      rw [node_remember table]
      exact pid_u j there
    · rw [List.length_append, List.length_singleton] at few
      obtain ⟨picks, results_eq, so_far⟩ := round (by omega)
      have length : picks.length = earlier.length := by rw [results_eq, List.length_map]
      obtain ⟨j, left⟩ := so_far.left (by
        rw [length]
        exact few)
      obtain ⟨chosen, at_chosen, later⟩ := so_far.next left
      rw [found] at at_chosen
      cases at_chosen
      have recent : (v.mTable k).recentIndex = i := by rw [table, Function.update_self]
      refine ⟨picks ++ [i], ?_, ?_⟩
      · rw [results_eq, List.map_append, served, pid_u i here]
        rfl
      · rw [recent]
        exact later

/-- The runnable groups of a queue are as many as its nodes with one. -/
theorem card_readyGroups (tidy : TidyQueues s) :
    (readyGroups s k).card = (Finset.univ.filter fun i => s.nodeReady (k, i) = true).card := by
  apply Finset.card_image_of_injOn
  intro i here j there same
  have used : ∀ i, s.nodeReady (k, i) = true → (s.node (k, i)).state = .used := by
    intro i ready
    unfold System.nodeReady at ready
    rw [Bool.and_eq_true, decide_eq_true_eq] at ready
    exact ready.1
  have first := used i (Finset.mem_filter.mp (Finset.mem_coe.mp here)).2
  have second := used j (Finset.mem_filter.mp (Finset.mem_coe.mp there)).2
  exact congrArg Prod.snd (tidy.distinct _ _ first second same)

end Picks

/-- While the runnable LWPs of a group stay the same, `pick_lwp` always returns one of them, and as many
calls as there are return each exactly once. While the runnable groups of the first queue that has one
stay the same, `pick_mlfq` always returns an LWP, and as many calls as there are serve each exactly once. -/
theorem picks_round_robin :
    (∀ (s : System) (pid : Nat), s.findMaster pid ≠ none → s.isRunnable pid = true →
      ∀ results t, Run (pickStep pid) s results t →
        (results.length = (runnableLwps s pid).card → ServesOnce results (runnableLwps s pid)) ∧
        ∀ u, SamePicking pid t u → ∃ p v, u.pickLwp pid = some (some p, v)) ∧
    ∀ (s : System) (k : Fin 3), TidyQueues s → FirstReady s k →
      ∀ results t, Run (serveStep k) s results t →
        (results.length = (readyGroups s k).card → ServesOnce results (readyGroups s k)) ∧
        ∀ u, SameServing k t u → ∃ p v, u.pickMlfq = some (some p, v) := by
  constructor
  · intro s pid owned runnable results t run
    obtain ⟨m, master⟩ := Option.ne_none_iff_exists'.mp owned
    obtain ⟨owner, wanted, round⟩ := picks_round master runnable run
    constructor
    · intro all
      obtain ⟨picks, same, served⟩ := round (Nat.le_of_eq all)
      have length : picks.length = (runnableLwps s pid).card := by rw [← all, same, List.length_map]
      refine ⟨picks, same, served.nodup, fun p => ?_⟩
      rw [served.complete length, runnableLwps, Finset.mem_filter, and_iff_right (Finset.mem_univ p)]
    · intro u kept
      have runnable' : u.isRunnable pid = true := by
        rw [isRunnable_iff_wanted, kept.wanted, wanted, ← isRunnable_iff_wanted]
        exact runnable
      obtain ⟨p, v, picked, _⟩ := pickLwp_returns (kept.master.trans owner) runnable'
      exact ⟨p, v, picked⟩
  · intro s k tidy first results t run
    obtain ⟨_, ready, _, round⟩ := serves_round first run
    constructor
    · intro all
      rw [card_readyGroups tidy] at all
      obtain ⟨picks, same, served⟩ := round (Nat.le_of_eq all)
      have length : picks.length = (Finset.univ.filter fun i => s.nodeReady (k, i) = true).card := by
        rw [← all, same, List.length_map]
      have members : picks.toFinset = Finset.univ.filter fun i => s.nodeReady (k, i) = true := by
        ext i
        rw [List.mem_toFinset, served.complete length, Finset.mem_filter, and_iff_right (Finset.mem_univ i)]
      refine ⟨picks.map fun i => (s.node (k, i)).pid, ?_, ?_, fun pid => ?_⟩
      · rw [same, List.map_map]
        rfl
      · refine List.Nodup.map_on ?_ served.nodup
        intro i here j there equal
        have injective := Finset.card_image_iff.mp (card_readyGroups (k := k) tidy)
        rw [← members] at injective
        exact injective (Finset.mem_coe.mpr (List.mem_toFinset.mpr here))
          (Finset.mem_coe.mpr (List.mem_toFinset.mpr there)) equal
      · rw [readyGroups, ← members, Finset.mem_image, List.mem_map]
        constructor
        · rintro ⟨i, here, group⟩
          exact ⟨i, List.mem_toFinset.mpr here, group⟩
        · rintro ⟨i, here, group⟩
          exact ⟨i, List.mem_toFinset.mp here, group⟩
    · intro u kept
      obtain ⟨⟨i, here⟩, _⟩ := first
      obtain ⟨j, found⟩ := RoundRobin.next_isSome (fun i => u.nodeReady (k, i)) (u.mTable k).recentIndex
        (((kept.ready i).trans (ready i)).trans here)
      obtain ⟨p, v, picked, _⟩ := pickMlfq_next kept.tidy kept.first found
      exact ⟨p, v, picked⟩

/-- Two groups in the first queue; one of them has two runnable LWPs. -/
def twoGroups : System :=
  { System.emptyTables with
    proc := fun p =>
      if p = 0 then { System.zeroProc with pid := 1, tid := 1, state := .runnable }
      else if p = 1 then { System.zeroProc with pid := 1, tid := 2, state := .runnable }
      else if p = 2 then { System.zeroProc with pid := 2, tid := 1, state := .runnable }
      else System.zeroProc
    mTable := fun k =>
      if k = 0 then ⟨fun i => if i = 0 then ⟨.used, 0, 1, 0⟩ else if i = 3 then ⟨.used, 0, 2, 0⟩ else ⟨.empty, 0, 0, 0⟩,
        2, 0⟩
      else System.emptyTables.mTable k }

/-- Their queues are in order. -/
theorem twoGroups_tidy : TidyQueues twoGroups where
  distinct n n' used used' same := by
    have both : ∀ n, (twoGroups.node n).state = .used → n = (0, 0) ∧ (twoGroups.node n).pid = 1 ∨
        n = (0, 3) ∧ (twoGroups.node n).pid = 2 := by decide +kernel
    rcases both n used with ⟨here, pid⟩ | ⟨here, pid⟩ <;> rcases both n' used' with ⟨there, pid'⟩ | ⟨there, pid'⟩
    · rw [here, there]
    · omega
    · omega
    · rw [here, there]
  master := by
    have masters : ∀ n, (twoGroups.node n).state = .used →
        (twoGroups.findMaster (twoGroups.node n).pid).isSome = true := by decide +kernel
    intro n used
    exact Option.isSome_iff_exists.mp (masters n used)
  covered := by
    unfold Covered
    decide +kernel

/-- Two calls of `pick_lwp` return both LWPs of the first group, and two calls of `pick_mlfq` serve both
groups. -/
theorem picks_round_robin_two :
    (∃ results t, Run (pickStep 1) twoGroups results t ∧ ServesOnce results (runnableLwps twoGroups 1) ∧
      results.length = 2) ∧
    ∃ results t, Run (serveStep 0) twoGroups results t ∧ ServesOnce results (readyGroups twoGroups 0) ∧
      results.length = 2 := by
  have tidy := twoGroups_tidy
  obtain ⟨inGroup, inQueue⟩ := picks_round_robin
  constructor
  · have same : ∀ s : System, SamePicking 1 s s := fun _ => ⟨rfl, fun _ _ => rfl, rfl⟩
    have group := inGroup twoGroups 1 (by decide +kernel) (by decide +kernel)
    obtain ⟨p, t, picked⟩ := (group [] _ (.nil _)).2 _ (same _)
    have once : Run (pickStep 1) twoGroups [some p] t := .cons ⟨_, same _, picked⟩ (.nil _)
    obtain ⟨q, u, picked'⟩ := (group _ _ once).2 _ (same _)
    have twice : Run (pickStep 1) twoGroups [some p, some q] u := once.snoc ⟨_, same _, picked'⟩
    have two : (runnableLwps twoGroups 1).card = 2 := by decide +kernel
    exact ⟨_, _, twice, (group _ _ twice).1 two.symm, rfl⟩
  · have first : FirstReady twoGroups 0 := ⟨⟨0, by decide +kernel⟩, fun n low => absurd low (Fin.not_lt_zero _)⟩
    have same : ∀ s : System, TidyQueues s → SameServing 0 s s := fun s tidy =>
      ⟨tidy, fun n low => absurd low (Fin.not_lt_zero _), fun _ => rfl, fun _ _ => rfl, rfl⟩
    have found : next (fun i => twoGroups.nodeReady (0, i)) (twoGroups.mTable 0).recentIndex = some 3 := by
      decide +kernel
    obtain ⟨p, t, picked, served, slots, table⟩ := pickMlfq_next tidy first.2 found
    have tidy' := tidy.remember slots table
    have once : Run (serveStep 0) twoGroups [some 2] t := .cons ⟨_, _, same _ tidy, picked, served.symm⟩ (.nil _)
    obtain ⟨q, u, picked'⟩ := (inQueue twoGroups 0 tidy first _ _ once).2 _ (same _ tidy')
    have twice : Run (serveStep 0) twoGroups [some 2, t.served (some q)] u :=
      once.snoc ⟨_, _, same _ tidy', picked', rfl⟩
    have two : (readyGroups twoGroups 0).card = 2 := by decide +kernel
    exact ⟨_, _, twice, (inQueue twoGroups 0 tidy first _ _ twice).1 two.symm, rfl⟩

end Xv6
