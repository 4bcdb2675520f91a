import Mathlib.Logic.Function.Basic

/-!
# Programs over uninterpreted operations

A program is a tree of operation calls, so one text of the code can be executed by several
handlers: an idealized store, a bounded cache, a machine that may refuse. Weakest
preconditions are those of the run under one handler, with a separate condition on the
reason a run stops. A simulation between two handlers, given operation by operation, carries
over to every program.
-/

/-- Operations and the type in which each one answers. -/
structure Signature where
  /-- Operation requests, with their arguments. -/
  Op : Type
  /-- The answer to one request. -/
  Answer : Op → Type

/-- A sequential program that may return, stop for a reason, or call an operation. -/
inductive Program (S : Signature) (ε α : Type) : Type where
  /-- Return a value. -/
  | done (value : α)
  /-- Stop for good. -/
  | stop (reason : ε)
  /-- Request one operation and continue with its answer. -/
  | call (op : S.Op) (next : S.Answer op → Program S ε α)

/-- One operation executed on a state. -/
abbrev Handler (S : Signature) (σ ε : Type) : Type :=
  (op : S.Op) → σ → Except ε (S.Answer op × σ)

namespace Program

variable {S : Signature} {ε α β σ τ : Type}

/-- Sequential composition grafts the continuation at every return. -/
def bind : Program S ε α → (α → Program S ε β) → Program S ε β
  | done value, next => next value
  | stop reason, _ => stop reason
  | call op rest, next => call op fun answer => (rest answer).bind next

instance : Monad (Program S ε) where
  pure := done
  bind := bind

/-- A single operation, returning its answer. -/
def perform (op : S.Op) : Program S ε (S.Answer op) := call op done

/-- Execute a program from a state. -/
def run (handler : Handler S σ ε) : Program S ε α → σ → Except ε (α × σ)
  | done value, s => .ok (value, s)
  | stop reason, _ => .error reason
  | call op next, s =>
    match handler op s with
    | .ok (answer, t) => (next answer).run handler t
    | .error reason => .error reason

section Equations

variable {handler : Handler S σ ε}

@[simp] theorem run_pure (value : α) (s : σ) :
    run handler (pure value : Program S ε α) s = .ok (value, s) := rfl

@[simp] theorem run_stop (reason : ε) (s : σ) :
    run handler (stop reason : Program S ε α) s = .error reason := rfl

@[simp] theorem run_perform (op : S.Op) (s : σ) :
    run handler (perform op) s = handler op s := by
  simp only [perform, run]
  cases handler op s <;> rfl

/-- A composition runs its second part from the state the first part ends in. -/
theorem run_bind (p : Program S ε α) (next : α → Program S ε β) (s : σ) :
    run handler (p >>= next) s =
      match run handler p s with
      | .ok (value, t) => run handler (next value) t
      | .error reason => .error reason := by
  change run handler (p.bind next) s = _
  induction p generalizing s with
  | done value => rfl
  | stop reason => rfl
  | call op rest ih =>
    simp only [bind, run]
    cases handler op s with
    | error reason => rfl
    | ok answered => exact ih answered.1 answered.2

/-- Running the second part after a first part that returned. -/
theorem run_bind_ok {p : Program S ε α} {next : α → Program S ε β} {s t : σ} {value : α}
    (first : run handler p s = .ok (value, t)) :
    run handler (p >>= next) s = run handler (next value) t := by
  rw [run_bind, first]

/-- A composition whose first part stops. -/
theorem run_bind_error {p : Program S ε α} {next : α → Program S ε β} {s : σ} {reason : ε}
    (first : run handler p s = .error reason) : run handler (p >>= next) s = .error reason := by
  rw [run_bind, first]

/-- A composition that returned passed through a state in between. -/
theorem run_bind_eq_ok {p : Program S ε α} {next : α → Program S ε β} {s : σ}
    {result : β × σ} (h : run handler (p >>= next) s = .ok result) :
    ∃ value t, run handler p s = .ok (value, t) ∧ run handler (next value) t = .ok result := by
  rw [run_bind] at h
  cases first : run handler p s with
  | error reason => rw [first] at h; contradiction
  | ok passed => rw [first] at h; exact ⟨passed.1, passed.2, rfl, h⟩

/-- Sequential composition is associative. -/
theorem bind_assoc {γ : Type} (p : Program S ε α) (next : α → Program S ε β)
    (last : β → Program S ε γ) :
    (p >>= next) >>= last = p >>= fun value => next value >>= last := by
  show (p.bind next).bind last = p.bind fun value => (next value).bind last
  induction p with
  | done value => rfl
  | stop reason => rfl
  | call op rest ih =>
    simp only [bind]
    congr 1
    funext answer
    exact ih answer

/-- A composition returns exactly when its parts do. -/
theorem run_bind_eq_ok_iff {p : Program S ε α} {next : α → Program S ε β} {s : σ}
    {result : β × σ} : run handler (p >>= next) s = .ok result ↔
      ∃ value t, run handler p s = .ok (value, t) ∧ run handler (next value) t = .ok result := by
  constructor
  · exact run_bind_eq_ok
  · rintro ⟨value, t, first, second⟩
    exact (run_bind_ok first).trans second

/-- A call that returned passed through the state its handler left. -/
theorem run_perform_bind (op : S.Op) (next : S.Answer op → Program S ε β) (s : σ) :
    run handler (perform op >>= next) s =
      match handler op s with
      | .ok (answer, t) => run handler (next answer) t
      | .error reason => .error reason := by
  rw [run_bind, run_perform]
  cases handler op s <;> rfl

end Equations

/-- Weakest precondition of a run: `post` for a return, `halt` for a stop. -/
def wp (handler : Handler S σ ε) (p : Program S ε α) (post : α → σ → Prop) (halt : ε → Prop)
    (s : σ) : Prop :=
  match run handler p s with
  | .ok (value, t) => post value t
  | .error reason => halt reason

section Rules

variable {handler : Handler S σ ε} {post post' : α → σ → Prop} {halt halt' : ε → Prop} {s : σ}

@[simp] theorem wp_pure (value : α) :
    wp handler (pure value) post halt s ↔ post value s := Iff.rfl

@[simp] theorem wp_stop (reason : ε) :
    wp handler (stop reason : Program S ε α) post halt s ↔ halt reason := Iff.rfl

/-- A request that is answered continues with the answer. -/
theorem wp_perform_ok {op : S.Op} {next : S.Answer op → Program S ε β}
    {after : β → σ → Prop} {answer : S.Answer op} {t : σ} (answered : handler op s = .ok (answer, t)) :
    wp handler (perform op >>= next) after halt s ↔ wp handler (next answer) after halt t := by
  simp only [wp, run_perform_bind, answered]

/-- A request that stops must stop for an allowed reason. -/
theorem wp_perform_error {op : S.Op} {next : S.Answer op → Program S ε β}
    {after : β → σ → Prop} {reason : ε} (stopped : handler op s = .error reason) :
    wp handler (perform op >>= next) after halt s ↔ halt reason := by
  simp only [wp, run_perform_bind, stopped]

/-- Sequential composition. -/
theorem wp_bind {p : Program S ε α} {next : α → Program S ε β} {after : β → σ → Prop} :
    wp handler (p >>= next) after halt s ↔
      wp handler p (fun value t => wp handler (next value) after halt t) halt s := by
  simp only [wp, run_bind]
  cases run handler p s <;> rfl

/-- Consequence. -/
theorem wp_mono {p : Program S ε α} (h : wp handler p post halt s)
    (weaker : ∀ value t, post value t → post' value t)
    (allowed : ∀ reason, halt reason → halt' reason) : wp handler p post' halt' s := by
  simp only [wp] at h ⊢
  cases result : run handler p s with
  | error reason => rw [result] at h; exact allowed _ h
  | ok passed => rw [result] at h; exact weaker _ _ h

/-- Two preconditions of one run. -/
theorem wp_and {p : Program S ε α} (h : wp handler p post halt s) (h' : wp handler p post' halt' s) :
    wp handler p (fun value t => post value t ∧ post' value t) (fun reason => halt reason ∧ halt' reason) s := by
  simp only [wp] at h h' ⊢
  cases result : run handler p s with
  | error reason =>
    rw [result] at h h'
    exact ⟨h, h'⟩
  | ok passed =>
    rw [result] at h h'
    exact ⟨h, h'⟩

/-- A run that returned is in its postcondition. -/
theorem wp_ok {p : Program S ε α} (h : wp handler p post halt s) {value : α} {t : σ}
    (returned : run handler p s = .ok (value, t)) : post value t := by
  simpa only [wp, returned] using h

/-- A run that returned what the postcondition says. -/
theorem wp_of_run {p : Program S ε α} {value : α} {t : σ} (returned : run handler p s = .ok (value, t))
    (holds : post value t) : wp handler p post halt s := by
  simpa only [wp, returned] using holds

/-- A run that stopped did so for an allowed reason. -/
theorem wp_error {p : Program S ε α} (h : wp handler p post halt s) {reason : ε}
    (stopped : run handler p s = .error reason) : halt reason := by
  simpa only [wp, stopped] using h

/-- A run returns a result exactly when that result is its postcondition. -/
theorem run_eq_ok_iff {p : Program S ε α} {value : α} {t : σ} :
    run handler p s = .ok (value, t) ↔
      wp handler p (fun value' t' => value' = value ∧ t' = t) (fun _ => False) s := by
  unfold wp
  cases result : run handler p s with
  | error reason => simp
  | ok passed => simp [Prod.ext_iff]

/-- A run with no allowed reason to stop returns. -/
theorem wp_returns {p : Program S ε α} (h : wp handler p post (fun _ => False) s) :
    ∃ value t, run handler p s = .ok (value, t) ∧ post value t := by
  cases result : run handler p s with
  | error reason => exact (wp_error h result).elim
  | ok passed => exact ⟨passed.1, passed.2, rfl, wp_ok h result⟩

end Rules

/-- Handlers related operation by operation return related results on every program, unless
the second one stops for a reason in `gap`. -/
theorem run_simulates {concrete : Handler S σ ε} {ideal : Handler S τ ε}
    (related : σ → τ → Prop) (gap : ε → Prop)
    (simulates : ∀ op s t answer s', related s t → concrete op s = .ok (answer, s') →
      (∃ t', ideal op t = .ok (answer, t') ∧ related s' t') ∨
        ∃ reason, ideal op t = .error reason ∧ gap reason)
    (p : Program S ε α) {s : σ} {t : τ} (start : related s t) {value : α} {s' : σ}
    (returned : run concrete p s = .ok (value, s')) :
    (∃ t', run ideal p t = .ok (value, t') ∧ related s' t') ∨
      ∃ reason, run ideal p t = .error reason ∧ gap reason := by
  induction p generalizing s t with
  | done result =>
    cases returned
    exact .inl ⟨t, rfl, start⟩
  | stop reason => contradiction
  | call op rest ih =>
    simp only [run] at returned ⊢
    cases first : concrete op s with
    | error reason => rw [first] at returned; contradiction
    | ok answered =>
      rw [first] at returned
      rcases simulates op s t answered.1 answered.2 start first with
        ⟨t', ideally, next⟩ | ⟨reason, stopped, inGap⟩
      · rw [ideally]
        exact ih answered.1 next returned
      · rw [stopped]
        exact .inr ⟨reason, rfl, inGap⟩

/-- A run to its end in which the environment may act before any operation. -/
inductive RunsAmid (handler : Handler S σ ε) (interferes : σ → σ → Prop) :
    Program S ε α → σ → α → σ → Prop where
  /-- The program has returned. -/
  | done (value : α) (s : σ) : RunsAmid handler interferes (.done value) s value s
  /-- The program requests an operation that is answered. -/
  | call {op : S.Op} {next : S.Answer op → Program S ε α} {answer : S.Answer op} {s t u : σ}
      {value : α} : handler op s = .ok (answer, t) →
        RunsAmid handler interferes (next answer) t value u →
          RunsAmid handler interferes (.call op next) s value u
  /-- The environment acts. -/
  | interfere {p : Program S ε α} {s t u : σ} {value : α} : interferes s t →
      RunsAmid handler interferes p t value u → RunsAmid handler interferes p s value u

/-- A run without interference is a run amid any. -/
theorem RunsAmid.of_run {handler : Handler S σ ε} {interferes : σ → σ → Prop} (p : Program S ε α)
    {s t : σ} {value : α} (returned : run handler p s = .ok (value, t)) :
    RunsAmid handler interferes p s value t := by
  induction p generalizing s with
  | done result =>
    cases returned
    exact .done _ _
  | stop reason => contradiction
  | call op rest ih =>
    simp only [run] at returned
    cases first : handler op s with
    | error reason => rw [first] at returned; contradiction
    | ok answered =>
      rw [first] at returned
      exact .call first (ih answered.1 returned)

/-- Whatever every operation and the environment keep, every program keeps. -/
theorem RunsAmid.invariant {handler : Handler S σ ε} {interferes : σ → σ → Prop}
    (invariant : σ → Prop)
    (keeps : ∀ op s answer t, invariant s → handler op s = .ok (answer, t) → invariant t)
    (absorbed : ∀ s t, invariant s → interferes s t → invariant t) {p : Program S ε α} {s t : σ}
    {value : α} (amid : RunsAmid handler interferes p s value t) (start : invariant s) :
    invariant t := by
  induction amid with
  | done value s => exact start
  | call first _ ih => exact ih (keeps _ _ _ _ start first)
  | interfere acts _ ih => exact ih (absorbed _ _ start acts)

/-- Related handlers return related results amid interference that the relation absorbs, unless
the second one stops for a reason in `gap`. -/
theorem RunsAmid.simulates {concrete : Handler S σ ε} {ideal : Handler S τ ε}
    {interferes : σ → σ → Prop} (related : σ → τ → Prop) (gap : ε → Prop)
    (simulates : ∀ op s t answer s', related s t → concrete op s = .ok (answer, s') →
      (∃ t', ideal op t = .ok (answer, t') ∧ related s' t') ∨
        ∃ reason, ideal op t = .error reason ∧ gap reason)
    (absorbed : ∀ s s' t, related s t → interferes s s' → related s' t)
    {p : Program S ε α} {s s' : σ} {value : α}
    (amid : RunsAmid concrete interferes p s value s') {t : τ} (start : related s t) :
    (∃ t', run ideal p t = .ok (value, t') ∧ related s' t') ∨
      ∃ reason, run ideal p t = .error reason ∧ gap reason := by
  induction amid generalizing t with
  | done value s => exact .inl ⟨t, rfl, start⟩
  | call first _ ih =>
    simp only [run]
    rcases simulates _ _ _ _ _ start first with ⟨t', ideally, next⟩ | ⟨reason, stopped, inGap⟩
    · rw [ideally]
      exact ih next
    · rw [stopped]
      exact .inr ⟨reason, rfl, inGap⟩
  | interfere acts _ ih => exact ih (absorbed _ _ _ start acts)

end Program
