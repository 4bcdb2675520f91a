import Xv6.Lib.Program

/-!
# Interrupted runs of programs

The states in which the run of a program may be interrupted: those after any number of its
requests. Where every operation relates the states before and after it, so does a run up to where it is
interrupted, and a simulation carries over to interrupted runs.
-/

namespace Program

variable {S : Signature} {ε α β σ τ : Type}

/-- The run of the program from the first state passes through the second one. -/
inductive Interrupted (handler : Handler S σ ε) : Program S ε α → σ → σ → Prop where
  /-- Before its first request. -/
  | now (p : Program S ε α) (s : σ) : Interrupted handler p s s
  /-- After a request that is answered. -/
  | later {op : S.Op} {next : S.Answer op → Program S ε α} {answer : S.Answer op} {s t u : σ} :
      handler op s = .ok (answer, t) → Interrupted handler (next answer) t u →
        Interrupted handler (.call op next) s u

namespace Interrupted

variable {handler : Handler S σ ε} {s u : σ}

/-- A run that returns passes through related states only, and from each of them it goes on to
its result. -/
theorem onwards (related : σ → σ → Prop) (refl : ∀ s, related s s)
    (trans : ∀ s t u, related s t → related t u → related s u)
    (each : ∀ op s answer t, handler op s = .ok (answer, t) → related s t)
    {p : Program S ε α} (passes : Interrupted handler p s u) {value : α} {t : σ}
    (returned : run handler p s = .ok (value, t)) : related s u ∧ related u t := by
  have whole : ∀ (p : Program S ε α) (s : σ), run handler p s = .ok (value, t) → related s t := by
    intro p
    induction p with
    | done result =>
      intro s returned
      cases returned
      exact refl t
    | stop reason =>
      intro s returned
      contradiction
    | call op rest ih =>
      intro s returned
      simp only [run] at returned
      cases first : handler op s with
      | error reason => rw [first] at returned; contradiction
      | ok answered =>
        rw [first] at returned
        exact trans _ _ _ (each _ _ _ _ first) (ih answered.1 answered.2 returned)
  induction passes with
  | now p s => exact ⟨refl s, whole p s returned⟩
  | later answered _ ih =>
    simp only [run, answered] at returned
    obtain ⟨before, after⟩ := ih returned
    exact ⟨trans _ _ _ (each _ _ _ _ answered) before, after⟩

/-- A simulation carries over, unless the second handler stops for a reason in `gap`. -/
theorem simulates {concrete : Handler S σ ε} {ideal : Handler S τ ε}
    (related : σ → τ → Prop) (gap : ε → Prop)
    (each : ∀ op s t answer s', related s t → concrete op s = .ok (answer, s') →
      (∃ t', ideal op t = .ok (answer, t') ∧ related s' t') ∨
        ∃ reason, ideal op t = .error reason ∧ gap reason)
    {p : Program S ε α} {s u : σ} (passes : Interrupted concrete p s u) {t : τ} (start : related s t) :
    (∃ v, Interrupted ideal p t v ∧ related u v) ∨ ∃ reason, run ideal p t = .error reason ∧ gap reason := by
  induction passes generalizing t with
  | now p s => exact .inl ⟨t, .now p t, start⟩
  | later answered _ ih =>
    rcases each _ _ _ _ _ start answered with ⟨t', ideally, next⟩ | ⟨reason, stopped, inGap⟩
    · rcases ih next with ⟨v, passes, final⟩ | ⟨reason, stopped, inGap⟩
      · exact .inl ⟨v, .later ideally passes, final⟩
      · refine .inr ⟨reason, ?_, inGap⟩
        simp only [run, ideally]
        exact stopped
    · refine .inr ⟨reason, ?_, inGap⟩
      simp only [run, stopped]

end Interrupted

end Program
