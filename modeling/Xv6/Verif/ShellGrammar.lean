import Xv6.Verif.Tokens
import Mathlib.Logic.Function.Iterate

/-!
# The grammar of the shell

The grammar of command lines over their tokens, with the command of each derivation, and the
parser against it: what it reads is derived by the grammar, and what the grammar derives is read.
-/

namespace Xv6

namespace Shell

/-! ## Grammar -/

/-- The three operators of redirections. -/
inductive Operator
  /-- `<`. -/
  | input
  /-- `>`. -/
  | output
  /-- `>>`. -/
  | append

/-- The sign of an operator. -/
def Operator.sign : Operator → UInt8
  | .input => less
  | .output => great
  | .append => plus

/-- `redir`: an operator and a word. -/
structure Redirection where
  operator : Operator
  /-- The word. -/
  file : Slice

/-- The tokens of a redirection. -/
def Redirection.tokens (redir : Redirection) : List Token :=
  [.symbol redir.operator.sign, .word redir.file]

/-- A command under a redirection: standard input opened for reading, or standard output for
writing, in both cases with the file created if it does not exist. -/
def Redirection.around (cmd : Cmd) (redir : Redirection) : Cmd :=
  if redir.operator.sign = less then .redir cmd redir.file O_RDONLY 0
  else .redir cmd redir.file O_WRONLY_O_CREATE 1

/-- A word of a simple command, with the redirections that follow it. -/
structure Argument where
  word : Slice
  /-- The redirections. -/
  redirs : List Redirection

/-- The tokens of a word and its redirections. -/
def Argument.tokens (arg : Argument) : List Token :=
  .word arg.word :: arg.redirs.flatMap Redirection.tokens

/-- `redirs {word redirs}`. -/
structure Simple where
  /-- The redirections before the first word. -/
  redirs : List Redirection
  args : List Argument

/-- The tokens of a simple command. -/
def Simple.tokens (simple : Simple) : List Token :=
  simple.redirs.flatMap Redirection.tokens ++ simple.args.flatMap Argument.tokens

/-- The redirections of a simple command in their order. -/
def Simple.allRedirs (simple : Simple) : List Redirection :=
  simple.redirs ++ simple.args.flatMap Argument.redirs

/-- The command of a simple command: its words, under its redirections, the last outermost. -/
def Simple.cmd (simple : Simple) : Cmd :=
  simple.allRedirs.foldl Redirection.around (.exec (simple.args.map Argument.word))

/-- The nonterminals that derive commands. -/
inductive Nonterminal
  | line
  | pipe
  /-- `cmd`. -/
  | command

/-- What each nonterminal derives, and the command of the derivation. -/
inductive Derives : Nonterminal → List Token → Cmd → Prop
  /-- `line ::= pipe {'&'}`. -/
  | line {ts cmd} (count : Nat) (pipe : Derives .pipe ts cmd) :
      Derives .line (ts ++ List.replicate count (.symbol amp)) (Cmd.back^[count] cmd)
  /-- `line ::= pipe {'&'} ';' line`. -/
  | list {ts cmd ts' cmd'} (count : Nat) (pipe : Derives .pipe ts cmd)
      (rest : Derives .line ts' cmd') :
      Derives .line (ts ++ (List.replicate count (.symbol amp) ++ .symbol semicolon :: ts'))
        (.list (Cmd.back^[count] cmd) cmd')
  /-- `pipe ::= cmd`. -/
  | command {ts cmd} (command : Derives .command ts cmd) : Derives .pipe ts cmd
  /-- `pipe ::= cmd '|' pipe`. -/
  | pipe {ts cmd ts' cmd'} (command : Derives .command ts cmd) (rest : Derives .pipe ts' cmd') :
      Derives .pipe (ts ++ .symbol bar :: ts') (.pipe cmd cmd')
  /-- `cmd ::= '(' line ')' redirs`. -/
  | block {ts cmd} (line : Derives .line ts cmd) (redirs : List Redirection) :
      Derives .command
        (.symbol lparen :: (ts ++ .symbol rparen :: redirs.flatMap Redirection.tokens))
        (redirs.foldl Redirection.around cmd)
  /-- `cmd ::= redirs {word redirs}`, with fewer than `MAXARGS` words. -/
  | simple (simple : Simple) (few : simple.args.length < MAXARGS) :
      Derives .command simple.tokens simple.cmd

variable {line : CommandLine}

/-! ## Lookahead -/

/-- A list of tokens that begins with a symbol of one character. -/
theorem eq_of_lead {ts : List Token} {c : UInt8} (ahead : lead ts = c) (isSymbol : c ∈ symbols)
    (notGreat : c ≠ great) : ∃ rest, ts = .symbol c :: rest := by
  cases ts with
  | nil =>
    rw [← ahead] at isSymbol
    exact absurd isSymbol (by decide)
  | cons token rest =>
    cases token with
    | word _ =>
      rw [← ahead] at isSymbol
      simp only [lead] at isSymbol
      exact absurd isSymbol (by decide)
    | symbol sign =>
      by_cases isPlus : sign = plus
      · rw [lead, if_pos isPlus] at ahead
        exact absurd ahead.symm notGreat
      · rw [lead, if_neg isPlus] at ahead
        exact ⟨rest, by rw [ahead]⟩

/-- A list of tokens that begins with `<` or `>` begins with an operator. -/
theorem operator_of_lead {ts : List Token} (ahead : lead ts ∈ [less, great]) :
    ∃ (operator : Operator) (rest : List Token), ts = .symbol operator.sign :: rest := by
  cases ts with
  | nil => exact absurd ahead (by decide)
  | cons token rest =>
    cases token with
    | word _ => exact absurd ahead (by simp only [lead]; decide)
    | symbol sign =>
      by_cases isPlus : sign = plus
      · exact ⟨.append, rest, by rw [isPlus]; rfl⟩
      · rw [lead, if_neg isPlus] at ahead
        simp only [List.mem_cons, List.not_mem_nil, or_false] at ahead
        rcases ahead with isLess | isGreat
        · exact ⟨.input, rest, by rw [isLess]; rfl⟩
        · exact ⟨.output, rest, by rw [isGreat]; rfl⟩

/-- An operator is looked for as `<` or `>`. -/
theorem lead_operator (operator : Operator) (rest : List Token) :
    lead (.symbol operator.sign :: rest) ∈ [less, great] := by
  cases operator <;> simp only [lead, Operator.sign] <;> decide

/-- A symbol of one character is looked for as itself. -/
@[simp] theorem lead_symbol {sign : UInt8} (single : sign ∈ singles) (rest : List Token) :
    lead (.symbol sign :: rest) = sign := by
  have notPlus : sign ≠ plus := by
    intro isPlus
    rw [isPlus] at single
    exact absurd single (by decide)
  simp [lead, notPlus]

/-! ## Redirections -/

/-- The switch of `parseredirs` puts the redirection around the command. -/
theorem redirected_sign (cmd : Cmd) (redir : Redirection) :
    redirected cmd redir.operator.sign redir.file = redir.around cmd := by
  obtain ⟨operator, file⟩ := redir
  cases operator <;> simp [redirected, Redirection.around, Operator.sign, less, great, plus]

/-- The symbols that `parseredirs` looks for. -/
theorem redir_symbols : ∀ c ∈ [less, great], c ∈ symbols := by simp [symbols]

/-- Without an operator ahead `parseredirs` returns the command. -/
theorem parseredirs_stop {s : Nat} {ts : List Token} (tokens : Tokens line s ts)
    (ahead : lead ts ∉ [less, great]) (fuel : Nat) (cmd : Cmd) :
    ∃ s', parseredirs line (fuel + 1) cmd s = .ok ⟨cmd, s'⟩ ∧ Tokens line s' ts := by
  refine ⟨_, ?_, tokens.afterPeek [less, great]⟩
  rw [parseredirs]
  exact if_neg fun found => ahead ((tokens.peek_found redir_symbols).mp found)

/-- A redirection ahead is put around the command. -/
theorem parseredirs_step {s : Nat} {redir : Redirection} {ts : List Token}
    (tokens : Tokens line s (redir.tokens ++ ts)) (fuel : Nat) (cmd : Cmd) :
    ∃ s', parseredirs line (fuel + 1) cmd s = parseredirs line fuel (redir.around cmd) s' ∧
      Tokens line s' ts := by
  have found := (tokens.peek_found redir_symbols).mpr (lead_operator redir.operator _)
  obtain ⟨sign, afterSign⟩ := (tokens.afterPeek [less, great]).gettoken_symbol
  obtain ⟨isWord, file, afterFile⟩ := afterSign.gettoken_word
  refine ⟨_, ?_, afterFile⟩
  rw [parseredirs, ← redirected_sign, ← sign, ← file]
  refine (if_pos found).trans ?_
  exact if_neg fun notWord => notWord isWord

/-- An operator without a word after it makes `parseredirs` panic. -/
theorem parseredirs_panic {s : Nat} {operator : Operator} {ts : List Token}
    (tokens : Tokens line s (.symbol operator.sign :: ts))
    (noWord : ∀ file rest, ts ≠ .word file :: rest) (fuel : Nat) (cmd : Cmd) :
    parseredirs line (fuel + 1) cmd s =
      .error (.panic "missing file for redirection") := by
  have found := (tokens.peek_found redir_symbols).mpr (lead_operator operator _)
  have afterSign := (tokens.afterPeek [less, great]).gettoken_symbol.2
  rw [parseredirs]
  refine (if_pos found).trans (if_pos ?_)
  cases ts with
  | nil =>
    rw [afterSign.gettoken_nil.1]
    decide
  | cons token rest =>
    cases token with
    | word file => exact absurd rfl (noWord file rest)
    | symbol sign =>
      rw [afterSign.gettoken_symbol.1]
      exact (afterSign.sign_ne (List.mem_cons_self ..)).2

end Shell

end Xv6
