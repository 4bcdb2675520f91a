import Xv6.Lib.Program

/-!
# Programs that follow a protocol

A protocol is a transition relation on abstract states labelled with operations. A program
follows it when every operation it may call is allowed, whatever the earlier answers were. A
handler that keeps a relation with the protocol for every allowed operation then keeps it for
the program, and the program stops only for reasons allowed for single operations.
-/

namespace Program

variable {S : Signature} {ε α β σ Q : Type} {next : Q → S.Op → Q → Prop}

/-- Every path of the program follows the protocol and returns in a final state. -/
def Follows (next : Q → S.Op → Q → Prop) (final : α → Q → Prop) : Program S ε α → Q → Prop
  | done value, q => final value q
  | stop _, _ => False
  | call op rest, q => ∃ r, next q op r ∧ ∀ answer, (rest answer).Follows next final r

/-- An allowed operation before a program that follows the protocol. -/
theorem follows_perform {final : β → Q → Prop} {op : S.Op} {rest : S.Answer op → Program S ε β}
    {q r : Q} (allowed : next q op r) (later : ∀ answer, Follows next final (rest answer) r) :
    Follows next final (perform op >>= rest) q := ⟨r, allowed, later⟩

/-- Sequential composition. -/
theorem follows_bind {middle : α → Q → Prop} {final : β → Q → Prop} {p : Program S ε α}
    {rest : α → Program S ε β} {q : Q} (first : Follows next middle p q)
    (later : ∀ value r, middle value r → Follows next final (rest value) r) :
    Follows next final (p >>= rest) q := by
  change Follows next final (p.bind rest) q
  induction p generalizing q with
  | done value => exact later value q first
  | stop reason => exact first.elim
  | call op continue_ ih =>
    obtain ⟨r, allowed, each⟩ := first
    exact ⟨r, allowed, fun answer => ih answer (each answer)⟩

/-- Consequence. -/
theorem follows_mono {final final' : α → Q → Prop} {p : Program S ε α} {q : Q}
    (first : Follows next final p q) (weaker : ∀ value r, final value r → final' value r) :
    Follows next final' p q := by
  induction p generalizing q with
  | done value => exact weaker value q first
  | stop reason => exact first.elim
  | call op continue_ ih =>
    obtain ⟨r, allowed, each⟩ := first
    exact ⟨r, allowed, fun answer => ih answer (each answer)⟩

/-- A handler that keeps the relation for allowed operations keeps it for a program that
follows the protocol. -/
theorem Follows.wp (handler : Handler S σ ε) (related : Q → σ → Prop) (halt : ε → Prop)
    (step : ∀ q op r s, related q s → next q op r →
      match handler op s with
      | .ok (_, t) => related r t
      | .error reason => halt reason)
    {final : α → Q → Prop} {p : Program S ε α} {q : Q} {s : σ} (follows : Follows next final p q)
    (start : related q s) :
    wp handler p (fun value t => ∃ r, final value r ∧ related r t) halt s := by
  induction p generalizing q s with
  | done value => exact ⟨q, follows, start⟩
  | stop reason => exact follows.elim
  | call op continue_ ih =>
    obtain ⟨r, allowed, each⟩ := follows
    have one := step q op r s start allowed
    unfold Program.wp run
    cases answered : handler op s with
    | error reason =>
      rw [answered] at one
      exact one
    | ok passed =>
      rw [answered] at one
      exact ih passed.1 (each passed.1) one

end Program
