import Mathlib.Logic.Function.Basic

/-!
# Runs of a step relation

A labelled step relation and its finite runs. An invariant kept by every step holds after
every run, a relation kept by matching steps of two systems holds after matching runs, and a
run can be cut at any of its labels. Of a list of labels one can say what holds of all of them
since the last one that is marked.
-/

/-- Runs of a labelled step relation, the labels in order. -/
inductive Run {σ Λ : Type} (step : σ → Λ → σ → Prop) : σ → List Λ → σ → Prop where
  /-- No step. -/
  | nil (s : σ) : Run step s [] s
  /-- One step before a run. -/
  | cons {s t u : σ} {label : Λ} {labels : List Λ} :
      step s label t → Run step t labels u → Run step s (label :: labels) u

namespace Run

variable {σ τ Λ : Type} {step : σ → Λ → σ → Prop} {s t u : σ}

/-- Runs compose. -/
theorem append {before after : List Λ} (first : Run step s before t) (second : Run step t after u) :
    Run step s (before ++ after) u := by
  induction first with
  | nil s => exact second
  | cons taken _ ih => exact .cons taken (ih second)

/-- A run is cut at any point of its labels. -/
theorem split {before after : List Λ} (run : Run step s (before ++ after) u) :
    ∃ t, Run step s before t ∧ Run step t after u := by
  induction before generalizing s with
  | nil => exact ⟨s, .nil s, run⟩
  | cons label before ih =>
    cases run with
    | cons taken rest =>
      obtain ⟨t, first, second⟩ := ih rest
      exact ⟨t, .cons taken first, second⟩

/-- A run and one more step. -/
theorem snoc {labels : List Λ} {label : Λ} (run : Run step s labels t) (taken : step t label u) :
    Run step s (labels ++ [label]) u := run.append (.cons taken (.nil u))

/-- Steps of one relation that are steps of another. -/
theorem mono {step' : σ → Λ → σ → Prop} {labels : List Λ} (run : Run step s labels t)
    (each : ∀ s label t, step s label t → step' s label t) : Run step' s labels t := by
  induction run with
  | nil s => exact .nil s
  | cons taken _ ih => exact .cons (each _ _ _ taken) ih

/-- What every step keeps of the labels so far and the state, every run keeps. -/
theorem history {labels : List Λ} (holds : List Λ → σ → Prop) (start : holds [] s)
    (keeps : ∀ before t label u, Run step s before t → holds before t → step t label u → holds (before ++ [label]) u)
    (run : Run step s labels t) : holds labels t := by
  have extend : ∀ {t u : σ} {before after : List Λ}, Run step s before t → holds before t → Run step t after u →
      holds (before ++ after) u := by
    intro t u before after past known rest
    induction rest generalizing before with
    | nil t =>
      rw [List.append_nil]
      exact known
    | @cons t v u label labels taken _ ih =>
      have next := ih (past.snoc taken) (keeps before t label v past known taken)
      rw [List.append_assoc] at next
      exact next
  exact extend (.nil s) start run

/-- What every step keeps, every run keeps. -/
theorem invariant {labels : List Λ} (holds : σ → Prop)
    (keeps : ∀ s label t, holds s → step s label t → holds t)
    (run : Run step s labels t) (start : holds s) : holds t := by
  induction run with
  | nil s => exact start
  | cons taken _ ih => exact ih (keeps _ _ _ start taken)

/-- A relation between the start and the state after a run, kept step by step. -/
theorem preserves {labels : List Λ} (holds : σ → Prop) (relation : σ → σ → Prop)
    (refl : ∀ s, relation s s) (trans : ∀ s t u, relation s t → relation t u → relation s u)
    (keeps : ∀ s label t, holds s → step s label t → holds t ∧ relation s t)
    (run : Run step s labels t) (start : holds s) : holds t ∧ relation s t := by
  induction run with
  | nil s => exact ⟨start, refl s⟩
  | cons taken _ ih =>
    obtain ⟨next, first⟩ := keeps _ _ _ start taken
    obtain ⟨last, rest⟩ := ih next
    exact ⟨last, trans _ _ _ first rest⟩

/-- Every label of a run was a step between two states of the run. -/
theorem step_of_mem {labels : List Λ} {label : Λ} (run : Run step s labels u)
    (member : label ∈ labels) :
    ∃ before after v w, labels = before ++ label :: after ∧ Run step s before v ∧
      step v label w ∧ Run step w after u := by
  obtain ⟨before, after, rfl⟩ := List.append_of_mem member
  obtain ⟨v, first, rest⟩ := run.split
  cases rest with
  | cons taken second => exact ⟨before, after, v, _, rfl, first, taken, second⟩

/-- Execute labels in order with a partial step function. -/
def exec (next : σ → Λ → Option σ) : List Λ → σ → Option σ
  | [], s => some s
  | label :: labels, s =>
    match next s label with
    | none => none
    | some t => exec next labels t

/-- An execution is a run. -/
theorem of_exec {next : σ → Λ → Option σ} {labels : List Λ} (executed : exec next labels s = some t) :
    Run (fun s label t => next s label = some t) s labels t := by
  induction labels generalizing s with
  | nil =>
    cases executed
    exact .nil _
  | cons label labels ih =>
    simp only [exec] at executed
    cases taken : next s label with
    | none => rw [taken] at executed; contradiction
    | some u =>
      rw [taken] at executed
      exact .cons taken (ih executed)

/-- Steps matched by another system match run by run. -/
theorem simulation {step' : τ → Λ → τ → Prop} {labels : List Λ} (related : σ → τ → Prop)
    (matched : ∀ s label s' t, related s t → step s label s' → ∃ t', step' t label t' ∧ related s' t')
    {s' : σ} {t : τ} (run : Run step s labels s') (start : related s t) :
    ∃ t', Run step' t labels t' ∧ related s' t' := by
  induction run generalizing t with
  | nil s => exact ⟨t, .nil t, start⟩
  | cons taken _ ih =>
    obtain ⟨next, step, related⟩ := matched _ _ _ _ start taken
    obtain ⟨last, rest, final⟩ := ih related
    exact ⟨last, .cons step rest, final⟩

end Run

/-! ## Since the last mark -/

/-- Some label is marked, and every label after the last one that is has the property. -/
def Since {Λ : Type} (mark holds : Λ → Prop) (labels : List Λ) : Prop :=
  ∃ before label after, labels = before ++ label :: after ∧ mark label ∧
    ∀ later ∈ after, ¬ mark later ∧ holds later

namespace Since

variable {Λ : Type} {mark holds : Λ → Prop} {labels : List Λ} {label : Λ}

/-- Nothing has happened since the last label when it is marked. -/
theorem now (marked : mark label) : Since mark holds (labels ++ [label]) :=
  ⟨labels, label, [], rfl, marked, fun _ member => absurd member List.not_mem_nil⟩

/-- One more label that is marked or has the property. -/
theorem snoc (since : Since mark holds labels) (either : ¬ mark label → holds label) :
    Since mark holds (labels ++ [label]) := by
  by_cases marked : mark label
  · exact now marked
  · obtain ⟨before, first, after, split, begun, each⟩ := since
    refine ⟨before, first, after ++ [label], ?_, begun, ?_⟩
    · rw [split, List.append_assoc, List.cons_append]
    · intro later member
      rw [List.mem_append, List.mem_singleton] at member
      rcases member with earlier | last
      · exact each later earlier
      · subst last
        exact ⟨marked, either marked⟩

/-- The last label has the property unless it is marked. -/
theorem last (since : Since mark holds (labels ++ [label])) (unmarked : ¬ mark label) :
    holds label ∧ Since mark holds labels := by
  obtain ⟨before, first, after, split, begun, each⟩ := since
  rcases List.eq_nil_or_concat after with none | ⟨earlier, final, rfl⟩
  · subst none
    have ends : label = first := by simpa using (List.append_inj' split rfl).2
    rw [ends] at unmarked
    exact absurd begun unmarked
  · rw [List.concat_eq_append] at split each
    rw [← List.cons_append, ← List.append_assoc] at split
    obtain ⟨front, ends⟩ := List.append_inj' split rfl
    injection ends with ends
    subst ends
    refine ⟨(each label (by simp)).2, before, first, earlier, front, begun, ?_⟩
    intro later member
    exact each later (List.mem_append_left _ member)

end Since
