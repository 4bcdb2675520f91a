import Mathlib.Data.Finset.Card
import Xv6.Verif.Shares

/-!
# The search of `set_cpu_share`

`set_cpu_share` looks for an empty entry of `s_table` after the first one. As long as its checks hold
when it takes the tickets, every used entry belongs to a master in the stride class, so the search ends
in the table unless every other slot is such a master.
-/

namespace Xv6

/-- A map between two sets of one size that misses no element of the second one. -/
theorem exists_of_injective {n : Nat} {a b : Fin n} (f : Fin n → Fin n) (into : ∀ i, i ≠ a → f i ≠ b)
    (injective : ∀ i, i ≠ a → ∀ j, j ≠ a → f i = f j → i = j) {q : Fin n} (other : q ≠ b) : ∃ i, i ≠ a ∧ f i = q := by
  have subset : (Finset.univ.erase a).image f ⊆ Finset.univ.erase b := by
    intro j member
    obtain ⟨i, there, rfl⟩ := Finset.mem_image.mp member
    exact Finset.mem_erase.mpr ⟨into i (Finset.ne_of_mem_erase there), Finset.mem_univ _⟩
  have count : ((Finset.univ.erase a).image f).card = (Finset.univ.erase a).card := by
    refine Finset.card_image_of_injOn fun i first j second => ?_
    exact injective i (Finset.ne_of_mem_erase first) j (Finset.ne_of_mem_erase second)
  have size : (Finset.univ.erase b).card ≤ ((Finset.univ.erase a).image f).card := by
    rw [count, Finset.card_erase_of_mem (Finset.mem_univ a), Finset.card_erase_of_mem (Finset.mem_univ b)]
  have here : q ∈ (Finset.univ.erase a).image f := by
    rw [Finset.eq_of_subset_of_card_le subset size]
    exact Finset.mem_erase.mpr ⟨other, Finset.mem_univ q⟩
  obtain ⟨i, there, same⟩ := Finset.mem_image.mp here
  exact ⟨i, Finset.ne_of_mem_erase there, same⟩

/-- Every entry is used or empty. -/
def Filed (s : System) : Prop := ∀ e, (s.sTable e).state = .used ∨ (s.sTable e).state = .empty

/-- Every slot but one is the master of a group in the stride class. -/
def Crowded (s : System) (p : Lwp) : Prop := ∀ q, q ≠ p → Leads s q ∧ (s.proc q).schedstate = .stride

section Filing

variable {s t u : System} {p : Lwp} {event : Event}

/-- The same states. -/
theorem Filed.congr (filed : Filed s) (same : ∀ e, (t.sTable e).state = (s.sTable e).state) : Filed t := by
  intro e
  rw [same e]
  exact filed e

/-- The same entries. -/
theorem Filed.of_eq (filed : Filed s) (same : t.sTable = s.sTable) : Filed t := by
  intro e
  rw [same]
  exact filed e

/-- An entry is given back. -/
theorem Filed.returned (filed : Filed s) {e : Entry} (entries : t.sTable = s.returned e) : Filed t := by
  intro e'
  rw [entries]
  unfold System.returned
  by_cases here : e' = e
  · rw [here]
    simp only [Function.update_self]
    exact .inr trivial
  · by_cases zero : e' = 0
    · rw [zero] at here ⊢
      simp only [Function.update_of_ne here, Function.update_self]
      exact filed 0
    · simp only [Function.update_of_ne here, Function.update_of_ne zero]
      exact filed e'

/-- An entry is filled. -/
theorem Filed.granted (filed : Filed s) {e : Entry} (other : e ≠ 0) {pid : Nat} {inquire minPass : Int}
    (entries : t.sTable = s.granted e pid inquire minPass) : Filed t := by
  intro e'
  rw [entries]
  unfold System.granted
  by_cases zero : e' = 0
  · rw [zero]
    simp only [Function.update_self, Function.update_of_ne (Ne.symm other)]
    exact filed 0
  · by_cases here : e' = e
    · rw [here]
      simp only [Function.update_of_ne other, Function.update_self]
      exact .inl trivial
    · simp only [Function.update_of_ne zero, Function.update_of_ne here]
      exact filed e'

/-- Zombies are deleted. -/
theorem Filed.reaps (reaps : Reaps s t) (filed : Filed s) : Filed t := by
  induction reaps with
  | calm calm => exact filed.of_eq calm.classes.sTable
  | reap q before _ deleted _ ih =>
    refine ih ?_
    have kept := filed.of_eq before.classes.sTable
    rcases deleteThread_tickets deleted with same | ⟨e, _, _, _, entries⟩
    · exact kept.of_eq same
    · exact kept.returned entries

/-- Every step keeps the entries used or empty. -/
theorem Filed.step (filed : Filed s) (tables : TableStep s event t) : Filed t := by
  cases tables with
  | kept _ retains => exact filed.of_eq retains.sTable
  | reaps _ _ _ reaps retains => exact (filed.reaps reaps).of_eq retains.sTable
  | founds _ _ _ _ calm founds _ retains _ =>
    exact filed.of_eq ((retains.sTable.trans founds.sTable).trans calm.classes.sTable)
  | creates _ _ _ _ creates => exact filed.of_eq creates.sTable
  | shares _ _ _ _ _ _ _ updated retains =>
    obtain ⟨e, away, _, entries, _⟩ := shareUpdate_tickets updated
    exact (filed.granted away entries).of_eq retains.sTable
  | ticks _ _ _ charges requeues =>
    refine filed.congr fun e => ?_
    rw [requeues.sTable]
    exact (charges.entry e).1

/-- The entries of the first process. -/
theorem Filed.userinit (d : Nat) : Filed (System.userinit d) := by
  intro e
  by_cases zero : e = 0
  · rw [zero]
    exact .inl (Classed.userinit d).first
  · rw [(userinit_entries d).1 e zero]
    exact .inr rfl

/-- The search for an entry ends in the table when one after the first is not used. -/
theorem Filed.emptyEntry (filed : Filed s) : s.emptyEntry.isSome = true ↔ ∃ e, e ≠ 0 ∧ (s.sTable e).state ≠ .used := by
  unfold System.emptyEntry firstSlot
  rw [List.find?_isSome]
  constructor
  · rintro ⟨e, _, wanted⟩
    rw [Bool.and_eq_true, decide_eq_true_eq, beq_iff_eq] at wanted
    refine ⟨e, wanted.1, ?_⟩
    rw [wanted.2]
    exact StrideState.noConfusion
  · rintro ⟨e, other, unused⟩
    refine ⟨e, List.mem_finRange e, ?_⟩
    rw [Bool.and_eq_true, decide_eq_true_eq, beq_iff_eq]
    exact ⟨other, (filed e).resolve_left unused⟩

/-- The search of a caller outside of the stride class leaves the table exactly when every other slot
is a master in the stride class. -/
theorem Granting.search_iff (granting : Granting s) (filed : Filed s) (out : (s.proc p).schedstate ≠ .stride) :
    s.emptyEntry.isSome = true ↔ ¬Crowded s p := by
  have ranked := granting.follows.ranked granting.lineage
  rw [filed.emptyEntry]
  constructor
  · rintro ⟨e, other, unused⟩ crowded
    have charged : ∀ q, ∃ e', q ≠ p → e' ≠ 0 ∧ (s.sTable e').state = .used ∧ (s.sTable e').pid = (s.proc q).pid := by
      intro q
      by_cases here : q = p
      · exact ⟨0, fun away => absurd here away⟩
      · obtain ⟨leads, stride⟩ := crowded q here
        obtain ⟨e', away, _, used, pid⟩ := granting.classed.entry q leads stride
        exact ⟨e', fun _ => ⟨away, used, pid⟩⟩
    choose entry known using charged
    have distinct : ∀ q, q ≠ p → ∀ q', q' ≠ p → entry q = entry q' → q = q' := by
      intro q away q' away' same
      refine ranked.masters q q' (crowded q away).1 (crowded q' away').1 ?_
      rw [← (known q away).2.2, same, (known q' away').2.2]
    obtain ⟨q, away, rfl⟩ := exists_of_injective entry (fun q away => (known q away).1) distinct other
    exact unused (known q away).2.1
  · intro free
    by_contra full
    refine free fun q away => ?_
    have owned : ∀ e, ∃ m, e ≠ 0 → Leads s m ∧ (s.proc m).schedstate = .stride ∧ (s.proc m).pstride = some e := by
      intro e
      by_cases zero : e = 0
      · exact ⟨p, fun other => absurd zero other⟩
      · have used : (s.sTable e).state = .used := by
          by_contra unused
          exact full ⟨e, zero, unused⟩
        obtain ⟨m, installed, _, stride, points⟩ := granting.owned e zero used
        exact ⟨m, fun _ => ⟨installed.1, stride, points⟩⟩
    choose owner known using owned
    have apart : ∀ e, e ≠ 0 → owner e ≠ p := fun e other same => out (same ▸ (known e other).2.1)
    have distinct : ∀ e, e ≠ 0 → ∀ e', e' ≠ 0 → owner e = owner e' → e = e' := by
      intro e other e' other' same
      have points := (known e other).2.2
      rw [same, (known e' other').2.2] at points
      exact (Option.some.inj points).symm
    obtain ⟨e, other, rfl⟩ := exists_of_injective owner apart distinct away
    exact ⟨(known e other).1, (known e other).2.1⟩

/-- What the search finds is an empty entry after the first one. -/
theorem emptyEntry_some {e : Entry} (found : s.emptyEntry = some e) : e ≠ 0 ∧ (s.sTable e).state = .empty := by
  have wanted := firstSlot_some found
  rw [Bool.and_eq_true, decide_eq_true_eq, beq_iff_eq] at wanted
  exact wanted

/-- In runs whose `set_cpu_share` checks still hold when they take the tickets: a caller whose checks
pass finds an empty entry after the first one if and only if some other slot than its own is no master
in the stride class. -/
theorem share_search_iff {d : Nat} {events : List Event} (run : Run checkedStep (System.userinit d) events t)
    {inquire : Int} (passes : (t.shareCheck p inquire).isSome = true) :
    (∃ e, t.emptyEntry = some e ∧ e ≠ 0 ∧ (t.sTable e).state = .empty) ↔ ¬Crowded t p := by
  have kept := run.invariant (fun s => Granting s ∧ Filed s) (fun s event u held taken => ?_)
    ⟨.userinit d, .userinit d⟩
  · obtain ⟨granting, filed⟩ := kept
    rw [← granting.search_iff filed (shareCheck_isSome.mp passes).2.2.1, Option.isSome_iff_exists]
    exact ⟨fun ⟨e, found, _⟩ => ⟨e, found⟩, fun ⟨e, found⟩ => ⟨e, found, emptyEntry_some found⟩⟩
  · have ranked := held.1.follows.ranked held.1.lineage
    exact ⟨held.1.step taken, held.2.step (step_tables ranked (step_effect taken.1))⟩

end Filing

/-- A child of the first process takes a ticket, and another one finds an entry. -/
theorem share_search_second : ∃ t, Run checkedStep (System.userinit 0) [.run 0, .fork 0 true, .forkCopy 0 (.copied 1),
    .run 1, .shareCheck 1 1, .shareUpdate 1] t ∧ ∃ e, t.emptyEntry = some e ∧ e ≠ 0 ∧ (t.sTable e).state = .empty := by
  have run : ∃ t, Run checkedStep (System.userinit 0) [.run 0, .fork 0 true, .forkCopy 0 (.copied 1), .run 1,
      .shareCheck 1 1, .shareUpdate 1] t ∧ (t.shareCheck 0 1).isSome = true ∧ (t.proc 2).state = .unused := by
    refine ⟨_, .cons (checkedStep_of_step nofun rfl) (.cons (checkedStep_of_step nofun rfl)
      (.cons (checkedStep_of_step nofun rfl) (.cons (checkedStep_of_step nofun rfl)
      (.cons (checkedStep_of_step nofun rfl) (.cons ⟨rfl, ?_⟩ (.nil _)))))), ?_, ?_⟩
    · intro p master inquire minPass same call
      cases same
      obtain ⟨rfl, rfl, _⟩ := Call.setCpuShare.inj call
      decide +kernel
    · decide +kernel
    · decide +kernel
  obtain ⟨t, run, passes, unused⟩ := run
  refine ⟨t, run, (share_search_iff run passes).mpr fun crowded => ?_⟩
  exact (crowded 2 (by decide)).1.2 unused

/-- The first process forks 63 children, each of which takes one ticket. -/
def crowd : List Event :=
  .run 0 :: (List.range 63).flatMap fun i =>
    [.fork 0 true, .forkCopy 0 (.copied (i + 1)), .run (Fin.ofNat NPROC (i + 1)), .shareCheck (Fin.ofNat NPROC (i + 1)) 1,
      .shareUpdate (Fin.ofNat NPROC (i + 1))]

/-- The first process passes the checks for one ticket, and no entry is empty. -/
theorem share_search_leaves : ∃ t, Run (fun s event t => s.step event = some t) (System.userinit 0) crowd t ∧
    (t.shareCheck 0 1).isSome = true ∧ t.emptyEntry = none := by
  have outcome : ((Run.exec System.step crowd (System.userinit 0)).map fun t =>
      ((t.shareCheck 0 1).isSome, t.emptyEntry)) = some (true, none) := by
    decide +kernel
  obtain ⟨t, executed, summary⟩ := Option.map_eq_some_iff.mp outcome
  exact ⟨t, Run.of_exec executed, (Prod.mk.inj summary).1, (Prod.mk.inj summary).2⟩

end Xv6
