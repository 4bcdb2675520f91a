import Mathlib.Algebra.BigOperators.Fin
import Mathlib.Algebra.Order.BigOperators.Group.Finset
import Xv6.Verif.Followers
import Xv6.Verif.Picking

/-!
# Tickets

The first entry of `s_table` holds the tickets that no group has. `set_cpu_share` takes tickets
from it and `delete_thread` of a master gives them back. Where the checks of `set_cpu_share` still
hold when it takes the tickets, all entries together hold 100, the groups at most 80, and every
used entry after the first one belongs to the master of one group.
-/

namespace Xv6

/-! ## Sums -/

/-- The tickets of an entry that counts as assigned. -/
def System.held (s : System) (e : Entry) : Int :=
  if e ≠ 0 ∧ (s.sTable e).state = .used then (s.sTable e).tickets else 0

section Sums

variable {s t : System}

/-- A sum over the elements with a property. -/
theorem sum_filter_map {ι : Type} (chosen : ι → Prop) [DecidablePred chosen] (f : ι → Int) (items : List ι) :
    ((items.filter fun i => decide (chosen i)).map f).sum = (items.map fun i => if chosen i then f i else 0).sum := by
  rw [List.sum_map_ite, List.map_const', List.sum_replicate, nsmul_zero, add_zero]

/-- The assigned tickets are the sum of those that the entries hold. -/
theorem assigned_eq_sum (s : System) : s.assigned = ∑ e, s.held e := by
  rw [Fin.sum_univ_def]
  exact sum_filter_map _ _ _

/-- One entry after the first one changes. -/
theorem assigned_change (e : Entry) (rest : ∀ e', e' ≠ e → e' ≠ 0 → t.sTable e' = s.sTable e') :
    t.assigned = s.assigned - s.held e + t.held e := by
  have others : ∑ e' ∈ Finset.univ.erase e, t.held e' = ∑ e' ∈ Finset.univ.erase e, s.held e' := by
    refine Finset.sum_congr rfl fun e' member => ?_
    unfold System.held
    by_cases here : e' = 0
    · rw [if_neg fun counted => counted.1 here, if_neg fun counted => counted.1 here]
    · rw [rest e' (Finset.ne_of_mem_erase member) here]
  rw [assigned_eq_sum, assigned_eq_sum, ← Finset.add_sum_erase _ _ (Finset.mem_univ e),
    ← Finset.add_sum_erase Finset.univ s.held (Finset.mem_univ e), others]
  omega

/-- Equal entries hold equal tickets. -/
theorem assigned_congr (same : ∀ e, (t.sTable e).state = (s.sTable e).state ∧ (t.sTable e).tickets = (s.sTable e).tickets) :
    t.assigned = s.assigned := by
  rw [assigned_eq_sum, assigned_eq_sum]
  refine Finset.sum_congr rfl fun e _ => ?_
  unfold System.held
  rw [(same e).1, (same e).2]

/-- No entry holds more than all of them, when none is in debt. -/
theorem held_le_assigned (nonneg : ∀ e, 0 ≤ s.held e) (e : Entry) : s.held e ≤ s.assigned := by
  rw [assigned_eq_sum]
  exact Finset.single_le_sum (fun e' _ => nonneg e') (Finset.mem_univ e)

end Sums

/-! ## Giving and taking tickets -/

/-- The entries after `delete_thread` has given back the tickets of one. -/
def System.returned (s : System) (e : Entry) : Entry → Stride :=
  let tickets := (s.sTable 0).tickets + (s.sTable e).tickets
  let table := Function.update s.sTable 0 { s.sTable 0 with tickets, stride := stride1.tdiv tickets }
  Function.update table e { table e with state := .empty, tickets := 0, pass := 0, stride := 0, pid := 0 }

/-- The entries after `set_cpu_share` has filled one. -/
def System.granted (s : System) (e : Entry) (pid : Nat) (inquire minPass : Int) : Entry → Stride :=
  let table := Function.update s.sTable e { s.sTable e with
    tickets := inquire, stride := stride1.tdiv inquire, pass := minPass, state := .used, pid := pid }
  let tickets := (table 0).tickets - inquire
  Function.update table 0 { table 0 with tickets, stride := stride1.tdiv tickets }

section Moving

variable {s t u : System} {p : Lwp}

/-- `add_pass_stride` changes passes only. -/
theorem addPassStride_passes (charged : s.addPassStride p = some t) (e : Entry) :
    ∃ pass, t.sTable e = { s.sTable e with pass } := by
  have first : ∀ (e e' : Entry), ∃ pass, (s.charge e).sTable e' = { s.sTable e' with pass } := by
    intro e e'
    unfold System.charge
    by_cases here : e' = e
    · rw [here]
      exact ⟨_, Function.update_self _ _ _⟩
    · exact ⟨_, Function.update_of_ne here _ _⟩
  unfold System.addPassStride at charged
  split at charged
  · contradiction
  · rename_i e' _
    obtain ⟨pass, slot⟩ := first e' e
    simp only at charged
    split at charged
    · cases charged
      unfold System.resetPasses
      simp only
      split
      · exact ⟨pass, slot⟩
      · rw [slot]
        exact ⟨0, rfl⟩
    · cases charged
      exact ⟨pass, slot⟩

/-- `delete_thread` gives back the tickets of the entry of a master, or changes no entry. -/
theorem deleteThread_tickets (deleted : s.deleteThread p = some t) :
    t.sTable = s.sTable ∨ ∃ e, (s.proc p).tid = 1 ∧ (s.proc p).schedstate = .stride ∧
      (s.proc p).pstride = some e ∧ t.sTable = s.returned e := by
  obtain ⟨master, u, _, rfl, ⟨whole, dropped⟩ | ⟨_, rfl⟩⟩ := System.deleteThread_some deleted
  · obtain ⟨v, d, given, _, rfl⟩ := System.dropMaster_some dropped
    unfold System.dropClass at given
    split at given
    · split at given
      · contradiction
      · cases given
        exact .inl rfl
    · rename_i shared
      split at given
      · contradiction
      · rename_i e points
        simp only at given
        split at given
        · contradiction
        · cases given
          exact .inr ⟨e, whole, shared, points, rfl⟩
    · cases given
      exact .inl rfl
  · exact .inl rfl

/-- `set_cpu_share` fills an empty entry. -/
theorem shareUpdate_tickets {master : Lwp} {inquire minPass : Int}
    (updated : s.shareUpdate master inquire minPass = some t) :
    ∃ e, e ≠ 0 ∧ (s.sTable e).state = .empty ∧ t.sTable = s.granted e (s.proc master).pid inquire minPass ∧
      ∀ q, (t.proc q).pid = (s.proc q).pid ∧ (t.proc q).tid = (s.proc q).tid ∧ (t.proc q).state = (s.proc q).state ∧
        if (s.proc q).pid = (s.proc master).pid then (t.proc q).schedstate = .stride ∧ (t.proc q).pstride = some e
        else t.proc q = s.proc q := by
  have popped : ((s.popMlfq (s.proc master).pid).getD s).sTable = s.sTable ∧
      ∀ q, ∃ schedstate pmlfqNode, ((s.popMlfq (s.proc master).pid).getD s).proc q =
        if (s.proc q).pid = (s.proc master).pid then { s.proc q with schedstate, pmlfqNode } else s.proc q := by
    cases result : s.popMlfq (s.proc master).pid with
    | none => exact ⟨rfl, fun q => ⟨_, _, by split <;> rfl⟩⟩
    | some u =>
      obtain ⟨n, empties⟩ := popMlfq_empties result
      exact ⟨empties.sTable, fun q => ⟨_, _, empties.proc q⟩⟩
  obtain ⟨entries, slots⟩ := popped
  unfold System.shareUpdate at updated
  simp only at updated
  split at updated
  · contradiction
  · rename_i e found
    have free := firstSlot_some found
    rw [Bool.and_eq_true, decide_eq_true_eq, beq_iff_eq, entries] at free
    split at updated
    · contradiction
    · rename_i v assigned
      cases updated
      unfold System.assign at assigned
      simp only at assigned
      split at assigned
      · contradiction
      · cases assigned
        refine ⟨e, free.1, free.2, ?_, fun q => ?_⟩
        · unfold System.granted
          rw [← entries]
          rfl
        · obtain ⟨schedstate, pmlfqNode, slot⟩ := slots q
          simp only [System.mapProc, slot]
          by_cases mine : (s.proc q).pid = (s.proc master).pid
          · simp only [if_pos mine, and_self]
          · simp only [if_neg mine, and_self]

end Moving

/-! ## The balance -/

/-- The tickets of the entries, and the strides computed from them. -/
structure Balanced (s : System) : Prop where
  total : (s.sTable 0).tickets + s.assigned = 100
  /-- Four fifths at most are assigned. -/
  limit : s.assigned ≤ 80
  /-- The stride of the first entry. -/
  first : (s.sTable 0).stride = stride1.tdiv (s.sTable 0).tickets
  /-- A used entry holds tickets. -/
  share : ∀ e, e ≠ 0 → (s.sTable e).state = .used →
    1 ≤ (s.sTable e).tickets ∧ (s.sTable e).stride = stride1.tdiv (s.sTable e).tickets
  /-- An entry that is not used has no stride. -/
  idle : ∀ e, e ≠ 0 → (s.sTable e).state ≠ .used → (s.sTable e).stride = 0

section Balance

variable {s t u : System} {p q m : Lwp} {event : Event}

/-- No entry is in debt. -/
theorem Balanced.held_nonneg (balanced : Balanced s) (e : Entry) : 0 ≤ s.held e := by
  unfold System.held
  split
  · rename_i counted
    exact Int.le_trans (by decide) (balanced.share e counted.1 counted.2).1
  · exact Int.le_refl 0

/-- At most four fifths are assigned. -/
theorem Balanced.first_tickets (balanced : Balanced s) : 20 ≤ (s.sTable 0).tickets := by
  have total := balanced.total
  have limit := balanced.limit
  omega

/-- A used entry holds at most four fifths. -/
theorem Balanced.share_le (balanced : Balanced s) {e : Entry} (other : e ≠ 0) (used : (s.sTable e).state = .used) :
    (s.sTable e).tickets ≤ 80 := by
  have most := held_le_assigned balanced.held_nonneg e
  unfold System.held at most
  rw [if_pos ⟨other, used⟩] at most
  exact Int.le_trans most balanced.limit

/-- No stride is negative. -/
theorem Balanced.stride_nonneg (balanced : Balanced s) (e : Entry) : 0 ≤ (s.sTable e).stride := by
  by_cases here : e = 0
  · rw [here, balanced.first]
    exact Int.tdiv_nonneg (by decide) (Int.le_trans (by decide) balanced.first_tickets)
  · by_cases used : (s.sTable e).state = .used
    · obtain ⟨least, stride⟩ := balanced.share e here used
      rw [stride]
      exact Int.tdiv_nonneg (by decide) (Int.le_trans (by decide) least)
    · rw [balanced.idle e here used]

/-- Only passes and pids differ. -/
theorem Balanced.congr (balanced : Balanced s) (same : ∀ e, (t.sTable e).state = (s.sTable e).state ∧
    (t.sTable e).tickets = (s.sTable e).tickets ∧ (t.sTable e).stride = (s.sTable e).stride) : Balanced t := by
  have assigned := assigned_congr fun e => ⟨(same e).1, (same e).2.1⟩
  refine ⟨?_, ?_, ?_, ?_, ?_⟩
  · rw [(same 0).2.1, assigned]
    exact balanced.total
  · rw [assigned]
    exact balanced.limit
  · rw [(same 0).2.1, (same 0).2.2]
    exact balanced.first
  · intro e other
    rw [(same e).1, (same e).2.1, (same e).2.2]
    exact balanced.share e other
  · intro e other
    rw [(same e).1, (same e).2.2]
    exact balanced.idle e other

/-- The entries are the same. -/
theorem Balanced.of_eq (balanced : Balanced s) (same : t.sTable = s.sTable) : Balanced t :=
  balanced.congr fun e => by rw [same]; exact ⟨rfl, rfl, rfl⟩

/-- The tickets of a used entry are given back. -/
theorem Balanced.returned (balanced : Balanced s) {e : Entry} (other : e ≠ 0) (used : (s.sTable e).state = .used)
    (entries : t.sTable = s.returned e) : Balanced t := by
  have self : (t.sTable e).state = .empty ∧ (t.sTable e).stride = 0 := by
    rw [entries]
    unfold System.returned
    simp only [Function.update_self, and_self]
  have zero : (t.sTable 0).tickets = (s.sTable 0).tickets + (s.sTable e).tickets ∧
      (t.sTable 0).stride = stride1.tdiv ((s.sTable 0).tickets + (s.sTable e).tickets) := by
    rw [entries]
    unfold System.returned
    simp only [Function.update_of_ne other.symm, Function.update_self, and_self]
  have rest : ∀ e', e' ≠ e → e' ≠ 0 → t.sTable e' = s.sTable e' := by
    intro e' away after
    rw [entries]
    unfold System.returned
    simp only [Function.update_of_ne away, Function.update_of_ne after]
  have before : s.held e = (s.sTable e).tickets := if_pos ⟨other, used⟩
  have after : t.held e = 0 := by
    refine if_neg fun counted => ?_
    rw [self.1] at counted
    exact StrideState.noConfusion counted.2
  have assigned := assigned_change e rest
  have least := (balanced.share e other used).1
  have total := balanced.total
  have limit := balanced.limit
  refine ⟨?_, ?_, ?_, ?_, ?_⟩
  · rw [zero.1]
    omega
  · omega
  · rw [zero.1, zero.2]
  · intro e' after now
    have away : e' ≠ e := by
      rintro rfl
      rw [self.1] at now
      contradiction
    rw [rest e' away after] at now ⊢
    exact balanced.share e' after now
  · intro e' after unused
    by_cases here : e' = e
    · rw [here]
      exact self.2
    · rw [rest e' here after] at unused ⊢
      exact balanced.idle e' after unused

/-- Tickets that are left are granted to an empty entry. -/
theorem Balanced.granted (balanced : Balanced s) {e : Entry} (other : e ≠ 0) (free : (s.sTable e).state = .empty)
    {pid : Nat} {inquire minPass : Int} (positive : 1 ≤ inquire) (fits : inquire + s.assigned ≤ 80)
    (entries : t.sTable = s.granted e pid inquire minPass) : Balanced t := by
  have self : (t.sTable e).state = .used ∧ (t.sTable e).tickets = inquire ∧
      (t.sTable e).stride = stride1.tdiv inquire := by
    rw [entries]
    unfold System.granted
    simp only [Function.update_of_ne other, Function.update_self, and_self]
  have zero : (t.sTable 0).tickets = (s.sTable 0).tickets - inquire ∧
      (t.sTable 0).stride = stride1.tdiv ((s.sTable 0).tickets - inquire) := by
    rw [entries]
    unfold System.granted
    simp only [Function.update_of_ne other.symm, Function.update_self, and_self]
  have rest : ∀ e', e' ≠ e → e' ≠ 0 → t.sTable e' = s.sTable e' := by
    intro e' away after
    rw [entries]
    unfold System.granted
    simp only [Function.update_of_ne away, Function.update_of_ne after]
  have before : s.held e = 0 := by
    refine if_neg fun counted => ?_
    rw [free] at counted
    exact StrideState.noConfusion counted.2
  have after : t.held e = inquire := by
    unfold System.held
    rw [if_pos ⟨other, self.1⟩, self.2.1]
  have assigned := assigned_change e rest
  have total := balanced.total
  refine ⟨?_, ?_, ?_, ?_, ?_⟩
  · rw [zero.1]
    omega
  · omega
  · rw [zero.1, zero.2]
  · intro e' away used
    by_cases here : e' = e
    · rw [here, self.2.1, self.2.2]
      exact ⟨positive, rfl⟩
    · rw [rest e' here away] at used ⊢
      exact balanced.share e' away used
  · intro e' away unused
    by_cases here : e' = e
    · rw [here] at unused
      exact absurd self.1 unused
    · rw [rest e' here away] at unused ⊢
      exact balanced.idle e' away unused

/-- Zombies are deleted. -/
theorem Balanced.reaps (reaps : Reaps s t) (balanced : Balanced s) (classed : Classed s) (queues : Queues s)
    (ranked : Ranked s) : Balanced t := by
  induction reaps with
  | calm calm => exact balanced.of_eq calm.classes.sTable
  | @reap s t u v q before zombie deleted _ ih =>
    have between := ranked.congr before.groups
    have sorted := classed.retains ranked.positive (.of_calm before)
    have ordered := queues.retains (.of_calm before)
    have kept := balanced.of_eq before.classes.sTable
    refine ih ?_ (sorted.deleteThread between zombie deleted)
      (ordered.drops (deleteThread_drops deleted) (Nat.le_of_eq (System.deleteThread_rest deleted).1.symm))
      (between.deleteThread zombie deleted)
    rcases deleteThread_tickets deleted with same | ⟨e, whole, stride, charged, entries⟩
    · exact kept.of_eq same
    · obtain ⟨e', away, same, used, _⟩ := sorted.entry q ⟨whole, taken_of_state zombie nofun⟩ stride
      rw [charged] at same
      cases same
      exact kept.returned away used entries

end Balance

/-! ## Steps -/

/-- A step in which `set_cpu_share` takes tickets only when its checks, if it made them at that
moment, would pass and find the same master. -/
def checkedStep (s : System) (event : Event) (t : System) : Prop :=
  s.step event = some t ∧ ∀ p master inquire minPass, event = .shareUpdate p →
    s.call p = .setCpuShare master inquire minPass →
    s.findMaster (s.proc p).pid = some master ∧ (s.shareCheck p inquire).isSome = true

/-- The slot is the master of a group, and no `fork` is preparing it. -/
def Installed (s : System) (m : Lwp) : Prop := Leads s m ∧ ∀ p, s.call p ≠ .fork m

/-- A used entry after the first one belongs to the master of a group in the stride class. -/
def Owners (s : System) : Prop :=
  ∀ e, e ≠ 0 → (s.sTable e).state = .used → ∃ m, Installed s m ∧ (s.proc m).pid = (s.sTable e).pid ∧
    (s.proc m).schedstate = .stride ∧ (s.proc m).pstride = some e

/-- What holds of tickets and entries in such runs. -/
structure Granting (s : System) : Prop where
  lineage : Lineage s
  follows : Follows s
  lonely : Lonely s
  vacated : Vacated s
  queues : Queues s
  classed : Classed s
  balanced : Balanced s
  owned : Owners s

section Granting

variable {s t u : System} {p q m : Lwp} {event : Event}

/-- A step that neither deletes zombies nor grants tickets leaves the tickets where they are. -/
theorem TableStep.shares_same (tables : TableStep s event t) (quiet : event.reaping = false)
    (other : ∀ p, event ≠ .shareUpdate p) (e : Entry) : (t.sTable e).state = (s.sTable e).state ∧
      (t.sTable e).tickets = (s.sTable e).tickets ∧ (t.sTable e).stride = (s.sTable e).stride := by
  have equal : t.sTable = s.sTable → (t.sTable e).state = (s.sTable e).state ∧
      (t.sTable e).tickets = (s.sTable e).tickets ∧ (t.sTable e).stride = (s.sTable e).stride := by
    intro same
    rw [same]
    exact ⟨rfl, rfl, rfl⟩
  cases tables with
  | kept _ retains => exact equal retains.sTable
  | reaps _ _ reaping _ _ =>
    rw [reaping] at quiet
    cases quiet
  | founds _ _ _ _ calm founds _ retains _ =>
    exact equal ((retains.sTable.trans founds.sTable).trans calm.classes.sTable)
  | creates _ _ _ _ creates => exact equal creates.sTable
  | shares p _ _ _ _ _ _ _ _ => exact absurd rfl (other p)
  | ticks _ _ charged _ requeues =>
    obtain ⟨pass, entry⟩ := addPassStride_passes charged e
    rw [requeues.sTable, entry]
    exact ⟨rfl, rfl, rfl⟩

/-- What `find_master` finds has tid 1 and the pid. -/
theorem findMaster_some {pid : Nat} (found : s.findMaster pid = some m) : (s.proc m).pid = pid ∧ (s.proc m).tid = 1 := by
  have wanted := firstSlot_some found
  rw [Bool.and_eq_true, beq_iff_eq, beq_iff_eq] at wanted
  exact wanted

/-- Checks that pass. -/
theorem shareCheck_isSome {inquire : Int} : (s.shareCheck p inquire).isSome = true ↔
    1 ≤ inquire ∧ inquire ≤ 80 ∧ (s.proc p).schedstate ≠ .stride ∧ inquire + s.assigned ≤ 80 := by
  unfold System.shareCheck
  split
  · rename_i refused
    simp only [Option.isSome_none, Bool.false_eq_true, false_iff]
    omega
  · split
    · rename_i stride
      simp only [Option.isSome_none, Bool.false_eq_true, false_iff]
      exact fun passed => passed.2.2.1 stride
    · split
      · simp only [Option.isSome_none, Bool.false_eq_true, false_iff]
        omega
      · rename_i bounds other fits
        simp only [Option.isSome_some, true_iff]
        exact ⟨by omega, by omega, other, by omega⟩

/-- Owners keep their entries, and no entry is new. -/
theorem Owners.keep (owned : Owners s)
    (entries : ∀ e, e ≠ 0 → (t.sTable e).state = .used →
      (s.sTable e).state = .used ∧ (t.sTable e).pid = (s.sTable e).pid)
    (owners : ∀ m e, Installed s m → (s.proc m).schedstate = .stride → (s.proc m).pstride = some e →
      (t.sTable e).state = .used → Installed t m ∧ (t.proc m).pid = (s.proc m).pid ∧
        (t.proc m).schedstate = .stride ∧ (t.proc m).pstride = (s.proc m).pstride) : Owners t := by
  intro e other used
  obtain ⟨before, pid⟩ := entries e other used
  obtain ⟨m, installed, same, stride, charged⟩ := owned e other before
  obtain ⟨installed', same', stride', charged'⟩ := owners m e installed stride charged used
  exact ⟨m, installed', same'.trans (same.trans pid.symm), stride', charged'.trans charged⟩

/-- A calm change keeps owners. -/
theorem Owners.calm (owned : Owners s) (calm : Calm s t) : Owners t := by
  refine owned.keep (fun e _ used => ?_) fun m e installed stride charged _ => ?_
  · rw [calm.classes.sTable] at used ⊢
    exact ⟨used, rfl⟩
  · have group := calm.groups.proc m
    have sort := calm.classes.proc m
    refine ⟨⟨⟨group.tid.trans installed.1.1, fun unused => installed.1.2 ((group.state_iff rfl).mp unused)⟩, fun p call => ?_⟩,
      group.pid, sort.schedstate.trans stride, sort.pstride⟩
    rcases calm.groups.call p with same | plain
    · exact installed.2 p (same.symm.trans call)
    · rw [call] at plain
      cases plain

/-- An LWP that becomes a zombie keeps its entry. -/
theorem Owners.zombie (owned : Owners s) (p : Lwp) : Owners (s.zombie p) := by
  refine owned.keep (fun e _ used => ⟨used, rfl⟩) fun m e installed stride _ _ => ?_
  unfold System.zombie Installed Leads
  by_cases here : m = p
  · rw [here] at installed stride ⊢
    rw [System.setProc_self]
    exact ⟨⟨⟨installed.1.1, nofun⟩, installed.2⟩, rfl, stride, rfl⟩
  · rw [System.setProc_other _ _ here]
    exact ⟨installed, rfl, stride, rfl⟩

/-- A zombie that is deleted takes its entry along. -/
theorem Owners.deleteThread (owned : Owners s) (classed : Classed s) (zombie : (s.proc p).state = .zombie)
    (deleted : s.deleteThread p = some t) : Owners t := by
  have others : ∀ m, m ≠ p → Installed s m → (s.proc m).schedstate = .stride → Installed t m ∧
      (t.proc m).pid = (s.proc m).pid ∧ (t.proc m).schedstate = .stride ∧
        (t.proc m).pstride = (s.proc m).pstride := by
    intro m other installed stride
    obtain ⟨stack, slot⟩ := System.deleteThread_other deleted other
    unfold Installed Leads
    rw [slot, (System.deleteThread_rest deleted).2.2]
    exact ⟨installed, rfl, stride, rfl⟩
  cases deleteThread_drops deleted with
  | none out _ entries =>
    refine owned.keep (fun e _ used => ?_) fun m e installed stride _ _ => others m ?_ installed stride
    · rw [entries] at used ⊢
      exact ⟨used, rfl⟩
    · rintro rfl
      rw [stride] at out
      rcases out installed.1.1 with used | empty
      · cases used
      · cases empty
  | node _ _ queued _ _ _ _ entries =>
    refine owned.keep (fun e _ used => ?_) fun m e installed stride _ _ => others m ?_ installed stride
    · rw [entries] at used ⊢
      exact ⟨used, rfl⟩
    · rintro rfl
      rw [stride] at queued
      cases queued
  | entry e whole stride charged _ entries =>
    obtain ⟨e', away, same, _, _⟩ := classed.entry p ⟨whole, taken_of_state zombie nofun⟩ stride
    rw [charged] at same
    cases same
    obtain ⟨empty, kept⟩ := entries away
    have apart : ∀ e', (t.sTable e').state = .used → e' ≠ e := by
      rintro e' used rfl
      rw [empty] at used
      cases used
    refine owned.keep (fun e' _ used => ?_) fun m e' installed stride points used => others m ?_ installed stride
    · obtain ⟨state, pid, _⟩ := kept e' (apart e' used)
      rw [state] at used
      exact ⟨used, pid⟩
    · rintro rfl
      rw [charged] at points
      cases points
      exact apart e used rfl

/-- Zombies are deleted. -/
theorem Owners.reaps (reaps : Reaps s t) (owned : Owners s) (classed : Classed s) (ranked : Ranked s) : Owners t := by
  induction reaps with
  | calm calm => exact owned.calm calm
  | reap q before zombie deleted _ ih =>
    have between := ranked.congr before.groups
    have sorted := classed.retains ranked.positive (.of_calm before)
    exact ih ((owned.calm before).deleteThread sorted zombie deleted) (sorted.deleteThread between zombie deleted)
      (between.deleteThread zombie deleted)

/-- A step that deletes no zombie leaves a master that no `fork` prepares in its slot. -/
theorem Installed.step (installed : Installed s m) (lineage : Lineage s) (taken : s.step event = some t)
    (quiet : event.reaping = false) : Installed t m ∧ (t.proc m).pid = (s.proc m).pid := by
  obtain ⟨leads, born⟩ := installed
  have vacant : s.freeSlot ≠ some m := fun free => leads.2 (freeSlot_unused free)
  have calls : ∀ p, t.call p ≠ .fork m := by
    intro p call
    cases step_call taken p with
    | kept _ same => exact born p (same.symm.trans call)
    | forks np _ free _ _ call' =>
      rw [call] at call'
      cases call'
      exact vacant free
    | _ => simp_all only [reduceCtorEq]
  have stays : ∀ {state : RunState}, (t.proc m).state = state → state ≠ .unused → (t.proc m).pid = (s.proc m).pid →
      (t.proc m).tid = (s.proc m).tid → Installed t m ∧ (t.proc m).pid = (s.proc m).pid :=
    fun known busy pid tid => ⟨⟨⟨tid.trans leads.1, taken_of_state known busy⟩, calls⟩, pid⟩
  cases step_slot lineage.positive taken m with
  | stays _ group _ _ =>
    exact ⟨⟨⟨group.tid.trans leads.1, fun unused => leads.2 ((group.state_iff rfl).mp unused)⟩, calls⟩, group.pid⟩
  | deleted _ collects _ _ =>
    cases collects with
    | waited p _ waits _ _ _ => rcases waits with rfl | ⟨rfl, _⟩ <;> cases quiet
    | joined p thread _ which _ _ _ _ => rcases which with ⟨rfl, _⟩ | ⟨rfl, _⟩ <;> cases quiet
    | ended p _ which _ _ _ => rcases which with ⟨rfl, _⟩ | ⟨rfl, _⟩ <;> cases quiet
  | threadExit _ _ _ zombie _ pid tid _ _ => exact stays zombie nofun pid tid
  | ends _ _ _ zombie pid tid _ _ => exact stays zombie nofun pid tid
  | founded _ free _ _ _ _ _ _ => exact absurd free vacant
  | released _ free _ _ _ _ => exact absurd free vacant
  | abandoned p _ call _ _ _ _ _ => exact absurd call (born p)
  | started p _ _ call _ _ _ _ _ _ _ => exact absurd call (born p)
  | published _ _ _ _ free _ _ _ _ _ => exact absurd free vacant
  | detached _ _ thread _ _ _ _ _ _ => exact absurd leads.1 thread

/-- Moving pids between queues leaves a master of the stride class in its class. -/
theorem Requeues.stride (requeues : Requeues s t) (queues : Queues s) (classed : Classed s)
    (positive : ∀ q, (s.proc q).state ≠ .unused → 0 < (s.proc q).pid) (leads : Leads s m)
    (stride : (s.proc m).schedstate = .stride) : (t.proc m).schedstate = .stride := by
  induction requeues with
  | nil => exact stride
  | @tick s t u ticked _ ih =>
    have same : Requeues s t := ticked.requeues
    obtain ⟨queues', classed'⟩ := Queues.requeues same queues classed positive
    unfold Leads at ih
    rw [ticked.proc] at ih
    exact ih queues' classed' positive leads stride
  | @move s t u pid prior known popped _ ih =>
    have moved : Requeues s (t.pushMlfq pid prior) := .move pid prior known popped (.nil _)
    obtain ⟨queues', classed'⟩ := Queues.requeues moved queues classed positive
    obtain ⟨n, empties⟩ := popMlfq_empties popped
    have other : (s.proc m).pid ≠ pid := by
      intro mine
      exact classed.unqueued m leads stride n (empties.found.trans mine.symm)
    have slots : ∀ q, ((t.pushMlfq pid prior).proc q).state = (s.proc q).state ∧
        ((t.pushMlfq pid prior).proc q).pid = (s.proc q).pid := by
      intro q
      obtain ⟨_, _, slot⟩ := moved.slot q
      rw [slot]
      exact ⟨rfl, rfl⟩
    have first : t.proc m = s.proc m := by
      rw [empties.proc m, if_neg other]
    have same : (t.pushMlfq pid prior).proc m = s.proc m := by
      rcases pushMlfq_fills t pid prior with ⟨i, fills⟩ | ⟨_, unchanged⟩
      · rw [fills.proc m, if_neg (by rw [first]; exact other), first]
      · rw [unchanged, first]
    refine ih queues' classed' (fun q => ?_) ?_ (by rw [same]; exact stride)
    · rw [(slots q).1, (slots q).2]
      exact positive q
    · unfold Leads
      rw [same]
      exact leads

/-- A step that neither deletes zombies nor grants tickets keeps owners. -/
theorem Granting.owners (granting : Granting s) (taken : s.step event = some t) (quiet : event.reaping = false)
    (other : ∀ p, event ≠ .shareUpdate p) : Owners t := by
  have lineage := granting.lineage
  have ranked := granting.follows.ranked lineage
  have tables := step_tables ranked (step_effect taken)
  have owners : (∀ e, (t.sTable e).state = (s.sTable e).state ∧ (t.sTable e).pid = (s.sTable e).pid) →
      (∀ m, Leads s m → Leads t m → (s.proc m).schedstate = .stride →
        (t.proc m).schedstate = .stride ∧ (t.proc m).pstride = (s.proc m).pstride) → Owners t := by
    intro entries classes
    refine granting.owned.keep (fun e _ used => ?_) fun m e installed stride _ _ => ?_
    · rw [(entries e).1] at used
      exact ⟨used, (entries e).2⟩
    · obtain ⟨after, same⟩ := installed.step lineage taken quiet
      exact ⟨after, same, classes m installed.1 after.1 stride⟩
  have equal : t.sTable = s.sTable →
      ∀ e, (t.sTable e).state = (s.sTable e).state ∧ (t.sTable e).pid = (s.sTable e).pid := by
    intro same e
    rw [same]
    exact ⟨rfl, rfl⟩
  cases tables with
  | kept _ retains =>
    refine owners (equal retains.sTable) fun m _ leads' stride => ?_
    have same := retains.slots m leads'.2
    exact ⟨same.schedstate.trans stride, same.pstride⟩
  | reaps _ _ reaping _ _ =>
    rw [reaping] at quiet
    cases quiet
  | founds p u v _ calm founds _ retains which =>
    refine owners (equal ((retains.sTable.trans founds.sTable).trans calm.classes.sTable)) fun m leads leads' stride => ?_
    have apart : m ≠ p := by
      rintro rfl
      rcases which with ⟨_, _, free⟩ | ⟨_, _, thread⟩
      · exact leads.2 free
      · exact thread leads.1
    have same := retains.slots m leads'.2
    have sort := calm.classes.proc m
    rw [same.schedstate, same.pstride, founds.others m apart]
    exact ⟨sort.schedstate.trans stride, sort.pstride⟩
  | creates p np _ _ creates =>
    refine owners (equal creates.sTable) fun m leads _ stride => ?_
    have apart : m ≠ np := by
      rintro rfl
      exact leads.2 creates.unused
    obtain ⟨_, _, slot⟩ := creates.others m apart
    rw [slot]
    exact ⟨stride, rfl⟩
  | shares p _ _ _ _ _ _ _ _ => exact absurd rfl (other p)
  | ticks p u _ charges requeues =>
    refine owners (fun e => ?_) fun m leads _ stride => ?_
    · rw [requeues.sTable]
      exact charges.entry e
    · have queues := granting.queues.congr (.of_eq (System.node_congr charges.mTable)) (Nat.le_of_eq charges.nextpid.symm)
      have classed := granting.classed.congr ranked.positive (fun q taken => .of_eq (congrFun charges.proc q) taken)
        (.of_eq (System.node_congr charges.mTable)) charges.entry
      obtain ⟨_, _, slot⟩ := requeues.slot m
      refine ⟨requeues.stride queues classed ?_ ?_ ?_, ?_⟩
      · rw [charges.proc]
        exact ranked.positive
      · unfold Leads
        rw [charges.proc]
        exact leads
      · rw [charges.proc]
        exact stride
      · rw [slot, charges.proc]

/-- Tickets that are granted where the checks still hold go to a master without an entry. -/
theorem Granting.grant (granting : Granting s) {master : Lwp} {inquire minPass : Int}
    (started : (s.proc p).state.started = true) (found : s.findMaster (s.proc p).pid = some master)
    (passes : (s.shareCheck p inquire).isSome = true)
    (updated : s.shareUpdate master inquire minPass = some t) : Balanced t ∧ Owners t := by
  obtain ⟨e, away, free, entries, slots⟩ := shareUpdate_tickets updated
  obtain ⟨positive, _, out, fits⟩ := shareCheck_isSome.mp passes
  refine ⟨granting.balanced.granted away free positive fits entries, ?_⟩
  obtain ⟨pid, whole⟩ := findMaster_some found
  have busy : (s.proc p).state ≠ .unused := by
    intro unused
    rw [unused] at started
    contradiction
  have leads : Leads s master := ⟨whole, fun unused => granting.vacated master p unused busy pid⟩
  have own : ∀ e', (t.sTable e').state = .used → e' ≠ e → e' ≠ 0 →
      (s.sTable e').state = .used ∧ (t.sTable e').pid = (s.sTable e').pid := by
    intro e' used other first
    rw [entries] at used ⊢
    unfold System.granted at used ⊢
    simp only [Function.update_of_ne other, Function.update_of_ne first] at used ⊢
    exact ⟨used, trivial⟩
  intro e' first used
  by_cases here : e' = e
  · have slot := slots master
    rw [if_pos rfl] at slot
    have filled : (t.sTable e).pid = (s.proc master).pid := by
      rw [entries]
      unfold System.granted
      simp only [Function.update_of_ne away, Function.update_self]
    refine ⟨master, ⟨⟨slot.2.1.trans leads.1, ?_⟩, fun p' call => ?_⟩, ?_, slot.2.2.2.1, by rw [here]; exact slot.2.2.2.2⟩
    · rw [slot.2.2.1]
      exact leads.2
    · rw [(Sorted.shareUpdate updated).call] at call
      refine granting.lonely p' master call p ?_ busy pid.symm
      rintro rfl
      rw [(granting.lineage.forking p' p call).2.1] at started
      contradiction
    · rw [here, filled]
      exact slot.1
  · obtain ⟨before, same⟩ := own e' used here first
    obtain ⟨m, installed, mine, stride, points⟩ := granting.owned e' first before
    have slot := slots m
    have apart : (s.proc m).pid ≠ (s.proc master).pid := by
      intro equal
      have sort := granting.classed.agree m p installed.1 busy (pid.symm.trans equal.symm)
      exact out (sort.schedstate.trans stride)
    rw [if_neg apart] at slot
    refine ⟨m, ?_, ?_, ?_, ?_⟩
    · unfold Installed Leads
      rw [slot.2.2.2, (Sorted.shareUpdate updated).call]
      exact installed
    · rw [slot.2.2.2, same]
      exact mine
    · rw [slot.2.2.2]
      exact stride
    · rw [slot.2.2.2]
      exact points

/-- Every step in which the checks still hold keeps the tickets and their owners. -/
theorem Granting.step (granting : Granting s) (taken : checkedStep s event t) : Granting t := by
  obtain ⟨taken, checked⟩ := taken
  have lineage := granting.lineage
  have ranked := granting.follows.ranked lineage
  have effect := step_effect taken
  have tables := step_tables ranked effect
  have moves : MovesGroup s event := by
    intro p master inquire minPass update started call
    obtain ⟨found, _⟩ := checked p master inquire minPass update call
    rw [(findMaster_some found).1]
    refine ranked.positive p fun unused => ?_
    rw [unused] at started
    contradiction
  obtain ⟨queues, classed⟩ := granting.classed.step granting.queues ranked moves tables
  have both : Balanced t ∧ Owners t := by
    have plain : Balanced t → event.reaping = false → (∀ p, event ≠ .shareUpdate p) → Balanced t ∧ Owners t :=
      fun balanced quiet other => ⟨balanced, granting.owners taken quiet other⟩
    have reaped : ∀ {u : System}, Reaps s u → Balanced u ∧ Owners u := fun reaps =>
      ⟨granting.balanced.reaps reaps granting.classed granting.queues ranked,
        granting.owned.reaps reaps granting.classed ranked⟩
    cases effect with
    | calm _ calm => exact ⟨granting.balanced.of_eq calm.classes.sTable, granting.owned.calm calm⟩
    | reaps p _ _ _ reaps => exact reaped reaps
    | exit p _ u _ _ reaps _ after =>
      obtain ⟨balanced, owned⟩ := reaped reaps
      exact ⟨balanced.of_eq after.classes.sTable, (owned.zombie p).calm after⟩
    | shareUpdate p master inquire minPass running call updated =>
      obtain ⟨found, passes⟩ := checked p master inquire minPass rfl call
      obtain ⟨balanced, owned⟩ := granting.grant (System.started_of_running running) found passes updated
      exact ⟨balanced.of_eq rfl, owned.calm (.setCall rfl)⟩
    | _ => exact plain (granting.balanced.congr (tables.shares_same rfl nofun)) rfl nofun
  exact ⟨lineage.step taken, granting.follows.step lineage taken, granting.lonely.step lineage taken,
    granting.vacated.step granting.lonely lineage taken, queues, classed, both.1, both.2⟩

/-- The entries of the first process. -/
theorem userinit_entries (d : Nat) :
    (∀ e, e ≠ 0 → (System.userinit d).sTable e = ⟨0, 0, 0, 0, false, .empty⟩) ∧
      ((System.userinit d).sTable 0).tickets = 100 ∧ ((System.userinit d).sTable 0).stride = stride1.tdiv 100 ∧
      ((System.userinit d).sTable 0).pass = 0 := by
  obtain ⟨founds, _⟩ := allocproc_founds Grouped.emptyTables.fresh 0
  have entries : (System.userinit d).sTable = Function.update ((System.emptyTables.takeSlot 0).initSlot 0).sTable 0
      { ((System.emptyTables.takeSlot 0).initSlot 0).sTable 0 with
        isMLFQ := true, state := .used, tickets := 100, stride := stride1.tdiv 100 } := by
    unfold System.userinit
    rw [allocproc_first]
    rfl
  rw [entries, founds.sTable]
  refine ⟨fun e other => ?_, ?_, ?_, ?_⟩
  · rw [Function.update_of_ne other]
    rfl
  · rw [Function.update_self]
  · rw [Function.update_self]
  · rw [Function.update_self]
    rfl

/-- All tickets are in the first entry. -/
theorem Granting.userinit (d : Nat) : Granting (System.userinit d) := by
  obtain ⟨others, tickets, stride, _⟩ := userinit_entries d
  have unused : ∀ e, e ≠ 0 → ((System.userinit d).sTable e).state ≠ .used := by
    intro e other used
    rw [others e other] at used
    cases used
  have assigned : (System.userinit d).assigned = 0 := by
    rw [assigned_eq_sum]
    exact Finset.sum_eq_zero fun e _ => if_neg fun counted => unused e counted.1 counted.2
  refine ⟨.userinit d, .userinit d, .userinit d, .userinit d, .userinit d, .userinit d, ?_,
    fun e other used => absurd used (unused e other)⟩
  refine ⟨?_, ?_, ?_, fun e other used => absurd used (unused e other), fun e other _ => ?_⟩
  · rw [tickets, assigned]
    rfl
  · rw [assigned]
    decide
  · rw [stride, tickets]
  · rw [others e other]

/-- A group owns one used entry at most. -/
theorem Granting.single (granting : Granting s) {e e' : Entry} (first : e ≠ 0) (second : e' ≠ 0)
    (used : (s.sTable e).state = .used) (used' : (s.sTable e').state = .used)
    (same : (s.sTable e).pid = (s.sTable e').pid) : e = e' := by
  obtain ⟨m, installed, pid, _, points⟩ := granting.owned e first used
  obtain ⟨m', installed', pid', _, points'⟩ := granting.owned e' second used'
  have ranked := granting.follows.ranked granting.lineage
  rw [ranked.masters m m' installed.1 installed'.1 (pid.trans (same.trans pid'.symm)), points'] at points
  exact (Option.some.inj points).symm

end Granting

end Xv6
