import Xv6.Verif.Kin

/-!
# Who is reached when a group ends

`kill` stops at the first slot with the pid, and the loop of `exit` wakes by channel. Both reach every
LWP of the group exactly when the ones they pass over need not be woken.
-/

namespace Xv6

/-- The LWP is killed and does not sleep. -/
def Proc.Stopping (q : Proc) : Prop := q.killed = true ∧ q.state ≠ .sleeping

/-- The LWP is another one of the group that has not exited. -/
def System.Remains (s : System) (p q : Lwp) : Prop :=
  q ≠ p ∧ (s.proc q).master = (s.proc p).master ∧ (s.proc q).state.live = true

/-- What the loop of `exit` does with the remaining LWPs at some slots of the table. -/
structure Swept (s : System) (p : Lwp) (slots : List Lwp) (t : System) : Prop where
  /-- The same LWPs remain. -/
  remains : ∀ q, t.Remains p q ↔ s.Remains p q
  /-- They sleep on the same channels. -/
  chan : ∀ q, s.Remains p q → (t.proc q).chan = (s.proc q).chan
  /-- Those at the slots are killed. -/
  killed : ∀ q, s.Remains p q → ((t.proc q).killed = true ↔ (s.proc q).killed = true ∨ q ∈ slots)
  /-- Those that sleep on one of them are woken. -/
  asleep : ∀ q, s.Remains p q → ((t.proc q).state = .sleeping ↔
    (s.proc q).state = .sleeping ∧ ∀ r ∈ slots, s.Remains p r → (s.proc q).chan ≠ some (.proc r))

section Sweeps

variable {s t u : System} {p q r : Lwp} {slots rest : List Lwp}

/-- Nothing is swept. -/
theorem Swept.nil (s : System) (p : Lwp) : Swept s p [] s := by
  refine ⟨fun _ => Iff.rfl, fun _ _ => rfl, fun q _ => ?_, fun q _ => ?_⟩
  · simp
  · simp

/-- A slot of an LWP that does not remain. -/
theorem Swept.skip (away : ¬s.Remains p r) : Swept s p [r] s := by
  refine ⟨fun _ => Iff.rfl, fun _ _ => rfl, fun q here => ?_, fun q _ => ?_⟩
  · have other : q ∉ [r] := fun member => away (List.mem_singleton.mp member ▸ here)
    exact ⟨.inl, fun killed => killed.resolve_right other⟩
  · refine ⟨fun asleep => ⟨asleep, fun r' member there => ?_⟩, And.left⟩
    exact absurd (List.mem_singleton.mp member ▸ there) away

/-- Some slots after others. -/
theorem Swept.trans (first : Swept s p slots t) (second : Swept t p rest u) : Swept s p (slots ++ rest) u := by
  refine ⟨fun q => (second.remains q).trans (first.remains q), fun q here => ?_, fun q here => ?_, fun q here => ?_⟩
  · exact (second.chan q ((first.remains q).mpr here)).trans (first.chan q here)
  · rw [second.killed q ((first.remains q).mpr here), first.killed q here, List.mem_append, or_assoc]
  · rw [second.asleep q ((first.remains q).mpr here), first.asleep q here, first.chan q here]
    constructor
    · rintro ⟨⟨asleep, early⟩, late⟩
      refine ⟨asleep, fun r member there => ?_⟩
      rcases List.mem_append.mp member with before | after
      · exact early r before there
      · exact late r after ((first.remains r).mpr there)
    · rintro ⟨asleep, never⟩
      refine ⟨⟨asleep, fun r member => never r (List.mem_append_left _ member)⟩, fun r member there => ?_⟩
      exact never r (List.mem_append_right _ member) ((first.remains r).mp there)

/-- A zombie is deleted. -/
theorem Swept.delete (zombie : (s.proc r).state = .zombie) (other : r ≠ p) (deleted : s.deleteThread r = some t) :
    Swept s p [r] t := by
  have gone : ¬s.Remains p r := by
    rintro ⟨_, _, live⟩
    rw [zombie] at live
    contradiction
  have kept : ∀ q, q ≠ r → ∃ stack, t.proc q = { s.proc q with stack } := fun q => System.deleteThread_other deleted
  obtain ⟨_, master⟩ := kept p (Ne.symm other)
  have apart : ∀ q, s.Remains p q → q ≠ r := fun q here same => gone (same ▸ here)
  refine ⟨fun q => ?_, fun q here => ?_, fun q here => ?_, fun q here => ?_⟩
  · unfold System.Remains
    by_cases same : q = r
    · subst same
      rw [(System.deleteThread_self deleted).1, zombie]
      exact ⟨fun here => (nomatch here.2.2), fun here => (nomatch here.2.2)⟩
    · obtain ⟨_, slot⟩ := kept q same
      rw [slot, master]
  · obtain ⟨_, slot⟩ := kept q (apart q here)
    rw [slot]
  · obtain ⟨_, slot⟩ := kept q (apart q here)
    rw [slot, List.mem_singleton]
    exact ⟨.inl, fun killed => killed.resolve_right (apart q here)⟩
  · obtain ⟨_, slot⟩ := kept q (apart q here)
    rw [slot]
    refine ⟨fun asleep => ⟨asleep, fun r' member there => ?_⟩, And.left⟩
    exact absurd (List.mem_singleton.mp member ▸ there) gone

/-- The slot of `wakeup1` after one that is killed. -/
theorem killed_slot (s : System) (r q : Lwp) :
    ((s.setProc r { s.proc r with killed := true }).wakeup1 (some (.proc r))).proc q = { s.proc q with
      killed := (s.proc q).killed || decide (q = r),
      state := if (s.proc q).state = .sleeping ∧ (s.proc q).chan = some (.proc r) then .runnable
        else (s.proc q).state } := by
  unfold System.wakeup1 System.mapProc
  dsimp only
  by_cases here : q = r
  · subst here
    rw [System.setProc_self]
    split <;> simp [*]
  · rw [System.setProc_other _ _ here]
    split <;> simp [*]

/-- An LWP that remains is killed, and who sleeps on it is woken. -/
theorem Swept.kill (here : s.Remains p r) :
    Swept s p [r] ((s.setProc r { s.proc r with killed := true }).wakeup1 (some (.proc r))) := by
  refine ⟨fun q => ?_, fun q _ => ?_, fun q _ => ?_, fun q _ => ?_⟩
  · unfold System.Remains
    rw [killed_slot, killed_slot]
    dsimp only
    by_cases woken : (s.proc q).state = .sleeping ∧ (s.proc q).chan = some (.proc r)
    · rw [if_pos woken, woken.1]
      exact Iff.rfl
    · rw [if_neg woken]
  · rw [killed_slot]
  · rw [killed_slot]
    simp
  · rw [killed_slot]
    dsimp only
    by_cases woken : (s.proc q).state = .sleeping ∧ (s.proc q).chan = some (.proc r)
    · rw [if_pos woken]
      exact ⟨nofun, fun ⟨_, never⟩ => absurd woken.2 (never r (List.mem_singleton_self r) here)⟩
    · rw [if_neg woken]
      refine ⟨fun asleep => ⟨asleep, fun r' member _ same => ?_⟩, And.left⟩
      rw [List.mem_singleton.mp member] at same
      exact woken ⟨asleep, same⟩

/-- One slot of the loop of `exit`. -/
theorem endLwp_swept {kids kids' : Nat} (taken : System.endLwp p (s, kids) r = some (t, kids')) : Swept s p [r] t := by
  simp only [System.endLwp] at taken
  split at taken
  · rename_i passed
    cases taken
    refine .skip fun kin => ?_
    rcases passed with stranger | self
    · exact stranger kin.2.1
    · exact kin.1 self
  · rename_i mine
    rw [not_or, not_not] at mine
    split at taken
    · rename_i zombie
      obtain ⟨v, deleted, result⟩ := Option.map_eq_some_iff.mp taken
      cases result
      exact .delete zombie mine.2 deleted
    · rename_i alive
      split at taken
      · rename_i unused
        cases taken
        refine .skip fun kin => ?_
        have live := kin.2.2
        rw [unused] at live
        contradiction
      · rename_i used
        have live : (s.proc r).state.live = true := by
          revert alive used
          cases (s.proc r).state <;> simp [RunState.live]
        cases taken
        exact .kill ⟨mine.2, mine.1, live⟩

/-- The loop of `exit`. -/
theorem endLwps_swept {kids kids' : Nat} (taken : slots.foldlM (System.endLwp p) (s, kids) = some (t, kids')) :
    Swept s p slots t := by
  induction slots generalizing s kids with
  | nil =>
    cases taken
    exact .nil _ _
  | cons r rest ih =>
    rw [List.foldlM_cons] at taken
    obtain ⟨⟨v, middle⟩, first, later⟩ := Option.bind_eq_some_iff.mp taken
    exact (endLwp_swept first).trans (ih later)

/-- A pass of the loop of `exit` after which the LWP sleeps. -/
theorem exitPass_swept (passed : s.exitPass p = some t) (asleep : (t.proc p).state = .sleeping) :
    ∃ u, Swept s p (List.finRange NPROC) u ∧ t = (u.sleep p (.proc p)).setCall p .exit := by
  unfold System.exitPass at passed
  split at passed
  · contradiction
  · rename_i u kids loop
    split at passed
    · cases passed
      exact ⟨u, endLwps_swept loop, rfl⟩
    · cases passed
      have ended : ((u.endExit p).proc p).state = .zombie := by
        rcases endExit_slot u p p with ⟨other, _⟩ | ⟨_, steady⟩
        · exact absurd rfl other
        · exact (steady.state_iff rfl).mpr rfl
      rw [ended] at asleep
      contradiction

/-- When the LWP goes to sleep, the remaining LWPs are killed and awake if and only if each one that
slept did so on one of them. -/
theorem exitPass_stops_iff (passed : s.exitPass p = some t) (asleep : (t.proc p).state = .sleeping) :
    (∀ q, t.Remains p q → (t.proc q).Stopping) ↔
      ∀ q, s.Remains p q → (s.proc q).state = .sleeping → ∃ r, s.Remains p r ∧ (s.proc q).chan = some (.proc r) := by
  obtain ⟨u, swept, rfl⟩ := exitPass_swept passed asleep
  have slot : ∀ q, q ≠ p → ((u.sleep p (.proc p)).setCall p .exit).proc q = u.proc q := fun q other =>
    System.setProc_other _ _ other
  have master : (((u.sleep p (.proc p)).setCall p .exit).proc p).master = (u.proc p).master := by
    show ((u.sleep p (.proc p)).proc p).master = _
    unfold System.sleep
    rw [System.setProc_self]
  have remains : ∀ q, ((u.sleep p (.proc p)).setCall p .exit).Remains p q ↔ s.Remains p q := by
    intro q
    rw [← swept.remains q]
    unfold System.Remains
    by_cases other : q = p
    · exact ⟨fun here => absurd other here.1, fun here => absurd other here.1⟩
    · rw [slot q other, master]
  constructor
  · intro stopping q here before
    have awake := (stopping q ((remains q).mpr here)).2
    rw [slot q here.1] at awake
    by_contra alone
    refine awake ((swept.asleep q here).mpr ⟨before, fun r _ there same => alone ⟨r, there, same⟩⟩)
  · intro woken q there
    have here := (remains q).mp there
    rw [slot q here.1]
    refine ⟨(swept.killed q here).mpr (.inr (List.mem_finRange q)), fun still => ?_⟩
    obtain ⟨before, never⟩ := (swept.asleep q here).mp still
    obtain ⟨r, other, same⟩ := woken q here before
    exact never r (List.mem_finRange r) other same

/-- After `kill` the live LWPs with the pid are killed and awake if and only if those after the first
slot with it were before. -/
theorem kill_stops_iff (s : System) (pid : Nat) :
    (∀ q, ((s.kill pid).proc q).pid = pid → ((s.kill pid).proc q).state.live = true → ((s.kill pid).proc q).Stopping) ↔
      ∀ q, firstSlot (fun q => (s.proc q).pid == pid) ≠ some q → (s.proc q).pid = pid → (s.proc q).state.live = true →
        (s.proc q).Stopping := by
  unfold System.kill
  cases first : firstSlot fun q => (s.proc q).pid == pid with
  | none => exact ⟨fun stopping q _ => stopping q, fun stopping q => stopping q nofun⟩
  | some r =>
    dsimp only
    constructor
    · intro stopping q other named live
      have apart : q ≠ r := fun same => other (congrArg some same.symm)
      have after := stopping q
      rw [System.setProc_other _ _ apart] at after
      exact after named live
    · intro stopping q named live
      by_cases same : q = r
      · subst same
        rw [System.setProc_self]
        refine ⟨rfl, ?_⟩
        dsimp only
        split
        · exact RunState.noConfusion
        · assumption
      · rw [System.setProc_other _ _ same] at named live ⊢
        exact stopping q (fun equal => same (Option.some.inj equal).symm) named live

end Sweeps

/-- `kill` reaches the whole group if and only if the live LWPs after the first slot with the pid are
killed and awake already; a pass of `exit` that goes to sleep does so if and only if every remaining LWP
that slept did so on one of the remaining LWPs. -/
theorem termination_reaches_iff (s : System) :
    (∀ pid, (∀ q, ((s.kill pid).proc q).pid = pid → ((s.kill pid).proc q).state.live = true →
        ((s.kill pid).proc q).Stopping) ↔
      ∀ q, firstSlot (fun q => (s.proc q).pid == pid) ≠ some q → (s.proc q).pid = pid → (s.proc q).state.live = true →
        (s.proc q).Stopping) ∧
    ∀ p t, s.exitPass p = some t → (t.proc p).state = .sleeping →
      ((∀ q, t.Remains p q → (t.proc q).Stopping) ↔
        ∀ q, s.Remains p q → (s.proc q).state = .sleeping →
          ∃ r, s.Remains p r ∧ (s.proc q).chan = some (.proc r)) :=
  ⟨kill_stops_iff s, fun _ _ => exitPass_stops_iff⟩

/-- The first process forks a child, which starts an LWP. -/
def secondGroup : List Event :=
  [.run 0, .fork 0 true, .forkCopy 0 (.copied 1), .run 1, .threadChoose 1, .threadCreate 1 .mapped]

/-- The LWP has started, and its master exits: it is killed and awake. -/
theorem termination_reaches_started : ∃ s t, Run.exec System.step secondGroup (System.userinit 0) = some s ∧
    s.exitPass 1 = some t ∧ (t.proc 1).state = .sleeping ∧ ∀ q, t.Remains 1 q → (t.proc q).Stopping := by
  have outcome : ((Run.exec System.step secondGroup (System.userinit 0)).bind fun s => (s.exitPass 1).map fun t =>
      ((t.proc 1).state, (List.finRange NPROC).all fun q => (s.proc q).state ≠ .sleeping)) = some (.sleeping, true) := by
    decide +kernel
  obtain ⟨s, executed, passed⟩ := Option.bind_eq_some_iff.mp outcome
  obtain ⟨t, passed, summary⟩ := Option.map_eq_some_iff.mp passed
  obtain ⟨asleep, awake⟩ := Prod.mk.injEq .. ▸ summary
  refine ⟨s, t, executed, passed, asleep, ((termination_reaches_iff s).2 1 t passed asleep).mpr fun q _ before => ?_⟩
  exact absurd before (of_decide_eq_true (List.all_eq_true.mp awake q (List.mem_finRange q)))

/-- The LWP sleeps on something that is no process. Neither `kill` of its pid nor `exit` of its master
wakes it, and `kill` does not even set its `killed`. -/
theorem termination_misses_sleeper : ∃ s t, Run.exec System.step (secondGroup ++ [.run 2, .sleep 2 5]) (System.userinit 0) =
    some s ∧ ((s.kill 2).proc 2).pid = 2 ∧ ((s.kill 2).proc 2).state.live = true ∧ ¬((s.kill 2).proc 2).Stopping ∧
    s.step (.exit 1) = some t ∧ (t.proc 1).state = .sleeping ∧ t.Remains 1 2 ∧ ¬(t.proc 2).Stopping := by
  have outcome : ((Run.exec System.step (secondGroup ++ [.run 2, .sleep 2 5]) (System.userinit 0)).bind fun s =>
      (s.step (.exit 1)).map fun t => (((s.kill 2).proc 2).pid, ((s.kill 2).proc 2).state, (t.proc 1).state,
        (t.proc 2).master == (t.proc 1).master, (t.proc 2).state)) = some (2, .sleeping, .sleeping, true, .sleeping) := by
    decide +kernel
  obtain ⟨s, executed, passed⟩ := Option.bind_eq_some_iff.mp outcome
  obtain ⟨t, passed, summary⟩ := Option.map_eq_some_iff.mp passed
  simp only [Prod.mk.injEq] at summary
  obtain ⟨pid, killed, asleep, same, state⟩ := summary
  refine ⟨s, t, executed, pid, ?_, fun stopping => stopping.2 killed, passed, asleep, ⟨by decide, beq_iff_eq.mp same, ?_⟩,
    fun stopping => stopping.2 state⟩
  · rw [killed]
    rfl
  · rw [state]
    rfl

end Xv6
