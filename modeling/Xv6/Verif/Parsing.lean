import Xv6.Verif.ShellGrammar

/-!
# The parser of the shell against its grammar

What each function of the parser does where the tokens ahead are known, that every command it
returns is derived from what it has read, that it reads everything the grammar derives, and that it
comes to an end.
-/

namespace Xv6

namespace Shell

variable {line : CommandLine}

/-! ## Outcomes -/

/-- A parser that comes to an end if there is `enough` fuel, and whose result satisfies `post`. -/
structure Meets (enough : Prop) (post : Parsed → Prop) (outcome : Except Halt Parsed) : Prop where
  /-- What holds of its result. -/
  result : ∀ parsed, outcome = .ok parsed → post parsed
  /-- It does not run out of fuel. -/
  ends : enough → outcome ≠ .error .unfinished

/-- A parser that returns. -/
theorem Meets.ok {enough : Prop} {post : Parsed → Prop} {parsed : Parsed} (holds : post parsed) :
    Meets enough post (.ok parsed) := by
  refine ⟨fun parsed' same => ?_, fun _ => by simp⟩
  rw [← Except.ok.inj same]
  exact holds

/-- A parser that panics. -/
theorem Meets.panic {enough : Prop} {post : Parsed → Prop} {text : String} :
    Meets enough post (.error (.panic text)) :=
  ⟨fun _ same => by simp at same, fun _ => by simp⟩

/-- A parser without fuel. -/
theorem Meets.unfinished {enough : Prop} {post : Parsed → Prop} (short : ¬ enough) :
    Meets enough post (.error .unfinished) :=
  ⟨fun _ same => by simp at same, fun fuelled => absurd fuelled short⟩

/-- One parser after another. -/
theorem Meets.bind {enough : Prop} {post post' : Parsed → Prop} {outcome : Except Halt Parsed}
    {next : Parsed → Except Halt Parsed} (first : Meets enough post outcome)
    (second : ∀ parsed, post parsed → Meets enough post' (next parsed)) :
    Meets enough post' (outcome >>= next) := by
  cases outcome with
  | error halt =>
    refine ⟨fun _ same => by simp [Bind.bind, Except.bind] at same, fun fuelled => ?_⟩
    exact fun same => first.ends fuelled (by simpa [Bind.bind, Except.bind] using same)
  | ok parsed => exact second parsed (first.result parsed rfl)

/-- Less fuel may be known to be enough, and more of the result. -/
theorem Meets.weaken {enough enough' : Prop} {post post' : Parsed → Prop}
    {outcome : Except Halt Parsed} (meets : Meets enough' post' outcome)
    (fuelled : enough → enough') (holds : ∀ parsed, post' parsed → post parsed) :
    Meets enough post outcome :=
  ⟨fun parsed same => holds parsed (meets.result parsed same),
    fun given => meets.ends (fuelled given)⟩

/-! ## Redirections -/

/-- `parseredirs` puts the redirections it reads around the command. -/
theorem parseredirs_sound (fuel : Nat) {s : Nat} {ts : List Token} (tokens : Tokens line s ts)
    (cmd : Cmd) :
    Meets (ts.length < fuel)
      (fun parsed => ∃ (redirs : List Redirection) (rest : List Token),
        ts = redirs.flatMap Redirection.tokens ++ rest ∧
          parsed.cmd = redirs.foldl Redirection.around cmd ∧ Tokens line parsed.s rest)
      (parseredirs line fuel cmd s) := by
  induction fuel generalizing s ts cmd with
  | zero => exact .unfinished (Nat.not_lt_zero _)
  | succ fuel ih =>
    by_cases ahead : lead ts ∈ [less, great]
    · obtain ⟨operator, rest, rfl⟩ := operator_of_lead ahead
      by_cases hasWord : ∃ file after, rest = .word file :: after
      · obtain ⟨file, after, rfl⟩ := hasWord
        obtain ⟨s₁, same, tokens₁⟩ :=
          parseredirs_step (show Tokens line s (Redirection.tokens ⟨operator, file⟩ ++ after) from
            tokens) fuel cmd
        rw [same]
        refine (ih tokens₁ _).weaken (fun fuelled => ?_) ?_
        · simp only [List.length_cons] at fuelled
          omega
        · rintro parsed ⟨redirs, rest, rfl, built, tokens₂⟩
          exact ⟨⟨operator, file⟩ :: redirs, rest, rfl, built, tokens₂⟩
      · have noWord : ∀ file after, rest ≠ .word file :: after := fun file after same =>
          hasWord ⟨file, after, same⟩
        rw [parseredirs_panic tokens noWord]
        exact .panic
    · obtain ⟨s₁, same, tokens₁⟩ := parseredirs_stop tokens ahead fuel cmd
      rw [same]
      exact .ok ⟨[], ts, rfl, rfl, tokens₁⟩

/-- There are no more redirections than tokens of them. -/
theorem redirs_length_le (redirs : List Redirection) :
    redirs.length ≤ (redirs.flatMap Redirection.tokens).length := by
  induction redirs with
  | nil => exact Nat.le_refl 0
  | cons redir redirs ih =>
    simp only [List.flatMap_cons, List.length_append, List.length_cons, Redirection.tokens,
      List.length_nil]
    omega

/-- `parseredirs` reads all redirections that are ahead. -/
theorem parseredirs_complete (redirs : List Redirection) {fuel s : Nat} {rest : List Token}
    (tokens : Tokens line s (redirs.flatMap Redirection.tokens ++ rest))
    (ahead : lead rest ∉ [less, great]) (enough : redirs.length < fuel) (cmd : Cmd) :
    ∃ s₁, parseredirs line fuel cmd s = .ok ⟨redirs.foldl Redirection.around cmd, s₁⟩ ∧
      Tokens line s₁ rest := by
  induction redirs generalizing fuel s cmd with
  | nil =>
    obtain ⟨fuel, rfl⟩ := Nat.exists_eq_succ_of_ne_zero (Nat.ne_of_gt enough)
    exact parseredirs_stop tokens ahead fuel cmd
  | cons redir redirs ih =>
    obtain ⟨fuel, rfl⟩ := Nat.exists_eq_succ_of_ne_zero (Nat.ne_zero_of_lt enough)
    rw [List.flatMap_cons, List.append_assoc] at tokens
    obtain ⟨s₁, same, tokens₁⟩ := parseredirs_step tokens fuel cmd
    obtain ⟨s₂, result, tokens₂⟩ := ih tokens₁ (by simpa using enough) (redir.around cmd)
    exact ⟨s₂, same.trans result, tokens₂⟩

/-! ## Words -/

/-- The symbols that end a simple command. -/
def ends : List UInt8 := [bar, rparen, amp, semicolon]

/-- They are symbols. -/
theorem ends_symbols : ∀ c ∈ ends, c ∈ symbols := by simp [ends, symbols]

/-- The `execcmd` of the words under the redirections. -/
def simpleCmd (redirs : List Redirection) (words : List Slice) : Cmd :=
  redirs.foldl Redirection.around (.exec words)

/-- A word is written into the `execcmd` under its redirections. -/
theorem simpleCmd_push (redirs : List Redirection) (words : List Slice) (word : Slice) :
    (simpleCmd redirs words).push word = simpleCmd redirs (words ++ [word]) := by
  have under : ∀ cmd : Cmd, (redirs.foldl Redirection.around cmd).push word =
      redirs.foldl Redirection.around (cmd.push word) := by
    induction redirs with
    | nil => exact fun _ => rfl
    | cons redir redirs ih =>
      intro cmd
      have one : (redir.around cmd).push word = redir.around (cmd.push word) := by
        simp only [Redirection.around]
        split <;> rfl
      rw [List.foldl_cons, List.foldl_cons, ih, one]
  exact under _

/-- More redirections go around those that are there. -/
theorem simpleCmd_around (redirs more : List Redirection) (words : List Slice) :
    more.foldl Redirection.around (simpleCmd redirs words) = simpleCmd (redirs ++ more) words := by
  rw [simpleCmd, simpleCmd, List.foldl_append]

/-- At the end and before a symbol that ends a simple command, the loop over words stops. -/
theorem parseargs_stop {s : Nat} {ts : List Token} (tokens : Tokens line s ts)
    (ahead : ts = [] ∨ lead ts ∈ ends) (fuel : Nat) (cmd : Cmd) (argc : Nat) :
    ∃ s₁, parseargs line (fuel + 1) cmd argc s = .ok ⟨cmd, s₁⟩ ∧ Tokens line s₁ ts := by
  rw [parseargs]
  by_cases found : lead ts ∈ ends
  · exact ⟨_, if_pos ((tokens.peek_found ends_symbols).mpr found), tokens.afterPeek ends⟩
  · have nothing : ts = [] := ahead.resolve_right found
    rw [nothing] at tokens found ⊢
    obtain ⟨zero, after⟩ := (tokens.afterPeek ends).gettoken_nil
    refine ⟨_, ?_, after⟩
    refine (if_neg fun isFound => found ((tokens.peek_found ends_symbols).mp isFound)).trans ?_
    exact if_pos zero

/-- A word ahead is an argument, unless there are too many. -/
theorem parseargs_step {s : Nat} {word : Slice} {ts : List Token}
    (tokens : Tokens line s (.word word :: ts)) {argc : Nat} (few : argc + 1 < MAXARGS)
    (fuel : Nat) (cmd : Cmd) :
    ∃ s₁, parseargs line (fuel + 1) cmd argc s =
        (do
          let ret ← parseredirs line fuel (cmd.push word) s₁
          parseargs line fuel ret.cmd (argc + 1) ret.s) ∧
      Tokens line s₁ ts := by
  have notFound : ¬ (peek line s ends).found = true := by
    rw [tokens.peek_found ends_symbols]
    exact (by decide : lowerA ∉ ends)
  obtain ⟨isWord, slice, after⟩ := (tokens.afterPeek ends).gettoken_word
  refine ⟨_, ?_, after⟩
  rw [parseargs, ← slice]
  refine (if_neg notFound).trans ?_
  refine (if_neg ?_).trans ((if_neg ?_).trans (if_neg (Nat.not_le.mpr few)))
  · exact fun isZero => absurd (isWord.symm.trans isZero) (by decide)
  · exact fun notWord => notWord isWord

/-- A word too many, and a symbol that does not end the command, make the loop panic. -/
theorem parseargs_panic {s : Nat} {token : Token} {ts : List Token}
    (tokens : Tokens line s (token :: ts)) (ahead : lead (token :: ts) ∉ ends) {argc : Nat}
    (bad : ∀ word, token = .word word → MAXARGS ≤ argc + 1) (fuel : Nat) (cmd : Cmd) :
    ∃ text, parseargs line (fuel + 1) cmd argc s = .error (.panic text) := by
  have notFound : ¬ (peek line s ends).found = true := by
    rw [tokens.peek_found ends_symbols]
    exact ahead
  rw [parseargs]
  cases token with
  | word word =>
    obtain ⟨isWord, slice, after⟩ := (tokens.afterPeek ends).gettoken_word
    refine ⟨"too many args", (if_neg notFound).trans ?_⟩
    refine (if_neg ?_).trans ((if_neg ?_).trans (if_pos (bad word rfl)))
    · exact fun isZero => absurd (isWord.symm.trans isZero) (by decide)
    · exact fun notWord => notWord isWord
  | symbol sign =>
    have returned := (tokens.afterPeek ends).gettoken_symbol.1
    obtain ⟨notZero, notLetter⟩ := tokens.sign_ne (List.mem_cons_self ..)
    refine ⟨"syntax", (if_neg notFound).trans ?_⟩
    refine (if_neg ?_).trans (if_pos ?_)
    · exact fun isZero => notZero (returned.symm.trans isZero)
    · exact fun isLetter => notLetter (returned.symm.trans isLetter)

/-- The loop over words adds the words and redirections that it reads to the command. -/
theorem parseargs_sound (fuel : Nat) {s : Nat} {ts : List Token} (tokens : Tokens line s ts)
    (redirs : List Redirection) (words : List Slice) (few : words.length < MAXARGS) :
    Meets (ts.length < fuel)
      (fun parsed => ∃ (args : List Argument) (rest : List Token),
        ts = args.flatMap Argument.tokens ++ rest ∧ words.length + args.length < MAXARGS ∧
          parsed.cmd = simpleCmd (redirs ++ args.flatMap Argument.redirs)
            (words ++ args.map Argument.word) ∧
          Tokens line parsed.s rest)
      (parseargs line fuel (simpleCmd redirs words) words.length s) := by
  induction fuel generalizing s ts redirs words with
  | zero => exact .unfinished (Nat.not_lt_zero _)
  | succ fuel ih =>
    by_cases stops : ts = [] ∨ lead ts ∈ ends
    · obtain ⟨s₁, same, tokens₁⟩ :=
        parseargs_stop tokens stops fuel (simpleCmd redirs words) words.length
      rw [same]
      exact .ok ⟨[], ts, rfl, few, by simp, tokens₁⟩
    · obtain ⟨someToken, ahead⟩ := not_or.mp stops
      obtain ⟨token, rest, rfl⟩ := List.exists_cons_of_ne_nil someToken
      by_cases reads : (∃ word, token = .word word) ∧ words.length + 1 < MAXARGS
      · obtain ⟨⟨word, rfl⟩, more⟩ := reads
        obtain ⟨s₁, same, tokens₁⟩ :=
          parseargs_step tokens more fuel (simpleCmd redirs words)
        rw [same, simpleCmd_push]
        refine Meets.bind ((parseredirs_sound fuel tokens₁ _).weaken (fun fuelled => ?_)
          fun _ holds => holds) ?_
        · simp only [List.length_cons] at fuelled
          omega
        · rintro parsed ⟨these, after, rfl, built, tokens₂⟩
          rw [built, simpleCmd_around]
          have next := ih tokens₂ (redirs ++ these) (words ++ [word]) (by simpa using more)
          rw [List.length_append, List.length_singleton] at next
          refine next.weaken (fun fuelled => ?_) ?_
          · simp only [List.length_cons, List.length_append] at fuelled
            omega
          · rintro result ⟨args, left, rfl, fewer, final, tokens₃⟩
            refine ⟨⟨word, these⟩ :: args, left, ?_, ?_, ?_, tokens₃⟩
            · simp [Argument.tokens]
            · simp only [List.length_cons]
              omega
            · rw [final]
              simp
      · obtain ⟨text, same⟩ := parseargs_panic tokens ahead
          (fun word isWord => Nat.le_of_not_lt fun more => reads ⟨⟨word, isWord⟩, more⟩) fuel
          (simpleCmd redirs words)
        rw [same]
        exact .panic

/-- After a word with its redirections comes no redirection. -/
theorem lead_args (args : List Argument) {rest : List Token}
    (stops : rest = [] ∨ lead rest ∈ ends) :
    lead (args.flatMap Argument.tokens ++ rest) ∉ [less, great] := by
  cases args with
  | nil =>
    rcases stops with rfl | ahead
    · decide
    · intro operator
      rw [List.flatMap_nil, List.nil_append] at operator
      generalize lead rest = c at ahead operator
      simp only [ends, List.mem_cons, List.not_mem_nil, or_false] at ahead
      obtain rfl | rfl | rfl | rfl := ahead <;> exact absurd operator (by decide)
  | cons arg args => exact (by decide : lowerA ∉ [less, great])

/-- The loop over words reads all words and redirections that are ahead. -/
theorem parseargs_complete (args : List Argument) {fuel s : Nat} {rest : List Token}
    (tokens : Tokens line s (args.flatMap Argument.tokens ++ rest))
    (stops : rest = [] ∨ lead rest ∈ ends) (redirs : List Redirection) (words : List Slice)
    (few : words.length + args.length < MAXARGS)
    (enough : (args.flatMap Argument.tokens).length < fuel) :
    ∃ s₁, parseargs line fuel (simpleCmd redirs words) words.length s =
        .ok ⟨simpleCmd (redirs ++ args.flatMap Argument.redirs) (words ++ args.map Argument.word),
          s₁⟩ ∧
      Tokens line s₁ rest := by
  induction args generalizing fuel s redirs words with
  | nil =>
    obtain ⟨fuel, rfl⟩ := Nat.exists_eq_succ_of_ne_zero (Nat.ne_zero_of_lt enough)
    simpa using parseargs_stop tokens stops fuel (simpleCmd redirs words) words.length
  | cons arg args ih =>
    obtain ⟨fuel, rfl⟩ := Nat.exists_eq_succ_of_ne_zero (Nat.ne_zero_of_lt enough)
    simp only [List.length_cons] at few
    have shape : (arg :: args).flatMap Argument.tokens ++ rest =
        .word arg.word :: (arg.redirs.flatMap Redirection.tokens ++
          (args.flatMap Argument.tokens ++ rest)) := by
      simp [Argument.tokens]
    rw [shape] at tokens
    have count := redirs_length_le arg.redirs
    simp only [List.flatMap_cons, List.length_append, Argument.tokens, List.length_cons] at enough
    obtain ⟨s₁, same, tokens₁⟩ :=
      parseargs_step tokens (show words.length + 1 < MAXARGS by omega) fuel (simpleCmd redirs words)
    have fuelRedirs : arg.redirs.length < fuel := by omega
    have fuelArgs : (args.flatMap Argument.tokens).length < fuel := by omega
    obtain ⟨s₂, redirected, tokens₂⟩ := parseredirs_complete arg.redirs tokens₁
      (lead_args args stops) fuelRedirs ((simpleCmd redirs words).push arg.word)
    obtain ⟨s₃, result, tokens₃⟩ := ih tokens₂ (redirs ++ arg.redirs) (words ++ [arg.word])
      (by rw [List.length_append, List.length_singleton]; omega) fuelArgs
    refine ⟨s₃, ?_, tokens₃⟩
    rw [same, redirected, simpleCmd_push, simpleCmd_around]
    rw [List.length_append, List.length_singleton] at result
    refine result.trans ?_
    simp

/-! ## Background signs -/

/-- The symbol after which a command runs in the background. -/
theorem back_symbols : ∀ c ∈ [amp], c ∈ symbols := by simp [symbols]

/-- Each `&` ahead makes the command a `backcmd`. -/
theorem parsebacks_step {s : Nat} {ts : List Token} (tokens : Tokens line s (.symbol amp :: ts))
    (fuel : Nat) (cmd : Cmd) :
    ∃ s₁, parsebacks line (fuel + 1) cmd s = parsebacks line fuel (.back cmd) s₁ ∧
      Tokens line s₁ ts := by
  have found := (tokens.peek_found back_symbols).mpr (by rw [lead_symbol (by decide)]; decide)
  refine ⟨_, ?_, (tokens.afterPeek [amp]).gettoken_symbol.2⟩
  rw [parsebacks]
  exact if_pos found

/-- Without an `&` ahead the command stays as it is. -/
theorem parsebacks_stop {s : Nat} {ts : List Token} (tokens : Tokens line s ts)
    (ahead : lead ts ≠ amp) (fuel : Nat) (cmd : Cmd) :
    ∃ s₁, parsebacks line (fuel + 1) cmd s = .ok ⟨cmd, s₁⟩ ∧ Tokens line s₁ ts := by
  refine ⟨_, ?_, tokens.afterPeek [amp]⟩
  rw [parsebacks]
  exact if_neg fun found =>
    ahead (List.mem_singleton.mp ((tokens.peek_found back_symbols).mp found))

/-- The loop over `&` makes a `backcmd` for each that it reads. -/
theorem parsebacks_sound (fuel : Nat) {s : Nat} {ts : List Token} (tokens : Tokens line s ts)
    (cmd : Cmd) :
    Meets (ts.length < fuel)
      (fun parsed => ∃ (count : Nat) (rest : List Token),
        ts = List.replicate count (.symbol amp) ++ rest ∧ parsed.cmd = Cmd.back^[count] cmd ∧
          Tokens line parsed.s rest)
      (parsebacks line fuel cmd s) := by
  induction fuel generalizing s ts cmd with
  | zero => exact .unfinished (Nat.not_lt_zero _)
  | succ fuel ih =>
    by_cases ahead : lead ts = amp
    · obtain ⟨rest, rfl⟩ := eq_of_lead ahead (by decide) (by decide)
      obtain ⟨s₁, same, tokens₁⟩ := parsebacks_step tokens fuel cmd
      rw [same]
      refine (ih tokens₁ _).weaken (fun fuelled => ?_) ?_
      · simp only [List.length_cons] at fuelled
        omega
      · rintro parsed ⟨count, after, rfl, built, tokens₂⟩
        exact ⟨count + 1, after, rfl, built, tokens₂⟩
    · obtain ⟨s₁, same, tokens₁⟩ := parsebacks_stop tokens ahead fuel cmd
      rw [same]
      exact .ok ⟨0, ts, rfl, rfl, tokens₁⟩

/-- The loop over `&` reads all that are ahead. -/
theorem parsebacks_complete (count : Nat) {fuel s : Nat} {rest : List Token}
    (tokens : Tokens line s (List.replicate count (.symbol amp) ++ rest))
    (ahead : lead rest ≠ amp) (enough : count < fuel) (cmd : Cmd) :
    ∃ s₁, parsebacks line fuel cmd s = .ok ⟨Cmd.back^[count] cmd, s₁⟩ ∧ Tokens line s₁ rest := by
  induction count generalizing fuel s cmd with
  | zero =>
    obtain ⟨fuel, rfl⟩ := Nat.exists_eq_succ_of_ne_zero (Nat.ne_zero_of_lt enough)
    exact parsebacks_stop tokens ahead fuel cmd
  | succ count ih =>
    obtain ⟨fuel, rfl⟩ := Nat.exists_eq_succ_of_ne_zero (Nat.ne_zero_of_lt enough)
    obtain ⟨s₁, same, tokens₁⟩ := parsebacks_step tokens fuel cmd
    obtain ⟨s₂, result, tokens₂⟩ := ih tokens₁ (Nat.lt_of_succ_lt_succ enough) (.back cmd)
    exact ⟨s₂, same.trans result, tokens₂⟩

/-! ## Nonterminals -/

/-- A parser has read tokens that the nonterminal derives, with the command of the derivation. -/
def Reads (line : CommandLine) (nonterminal : Nonterminal) (ts : List Token) (parsed : Parsed) :
    Prop :=
  ∃ used rest, ts = used ++ rest ∧ Derives nonterminal used parsed.cmd ∧
    Tokens line parsed.s rest

/-- What the four parsers of commands read with some fuel. -/
structure Sound (line : CommandLine) (fuel : Nat) : Prop where
  /-- `parseline`. -/
  ofLine : ∀ {s ts}, Tokens line s ts →
    Meets (4 * ts.length + 4 ≤ fuel) (Reads line .line ts) (parseline line fuel s)
  /-- `parsepipe`. -/
  ofPipe : ∀ {s ts}, Tokens line s ts →
    Meets (4 * ts.length + 3 ≤ fuel) (Reads line .pipe ts) (parsepipe line fuel s)
  /-- `parseexec`. -/
  ofCommand : ∀ {s ts}, Tokens line s ts →
    Meets (4 * ts.length + 2 ≤ fuel) (Reads line .command ts) (parseexec line fuel s)
  /-- `parseblock`. -/
  ofBlock : ∀ {s ts}, Tokens line s ts →
    Meets (4 * ts.length + 1 ≤ fuel) (Reads line .command ts) (parseblock line fuel s)

/-- A symbol that is looked for alone is found where it is the next token. -/
theorem Tokens.peek_one {s : Nat} {ts : List Token} (tokens : Tokens line s ts) {c : UInt8}
    (isSymbol : c ∈ symbols) : (peek line s [c]).found = true ↔ lead ts = c := by
  rw [tokens.peek_found (by simpa using isSymbol), List.mem_singleton]

/-- Such a symbol is passed by looking for it and getting it. -/
theorem Tokens.pass {s : Nat} {sign : UInt8} {ts : List Token}
    (tokens : Tokens line s (.symbol sign :: ts)) :
    Tokens line (gettoken line (peek line s [sign]).s).s ts :=
  (tokens.afterPeek [sign]).gettoken_symbol.2

/-- `parseline` in terms of the parsers it calls. -/
theorem parseline_sound {fuel : Nat} (sound : Sound line fuel) {s : Nat} {ts : List Token}
    (tokens : Tokens line s ts) :
    Meets (4 * ts.length + 4 ≤ fuel + 1) (Reads line .line ts) (parseline line (fuel + 1) s) := by
  rw [parseline]
  refine Meets.bind ((sound.ofPipe tokens).weaken (fun fuelled => by omega) fun _ h => h) ?_
  rintro pipe ⟨used, rest, rfl, derived, tokens₁⟩
  rw [List.length_append]
  refine Meets.bind ((parsebacks_sound fuel tokens₁ pipe.cmd).weaken (fun fuelled => by omega)
    fun _ h => h) ?_
  rintro backs ⟨count, rest, rfl, built, tokens₂⟩
  by_cases ahead : lead rest = semicolon
  · obtain ⟨after, rfl⟩ := eq_of_lead ahead (by decide) (by decide)
    simp only [(tokens₂.peek_one (c := semicolon) (by decide)).mpr ahead, if_true]
    refine Meets.bind ((sound.ofLine tokens₂.pass).weaken (fun fuelled => ?_) fun _ h => h) ?_
    · simp only [List.length_append, List.length_cons] at fuelled
      omega
    · rintro next ⟨used', rest', rfl, derived', tokens₃⟩
      have whole := Derives.list count derived derived'
      rw [← built] at whole
      refine .ok ⟨_, rest', ?_, whole, tokens₃⟩
      simp
  · have notFound : ¬ (peek line backs.s [semicolon]).found = true := fun found =>
      ahead ((tokens₂.peek_one (by decide)).mp found)
    simp only [notFound]
    have whole := Derives.line count derived
    rw [← built] at whole
    refine .ok ⟨_, rest, ?_, whole, tokens₂.afterPeek [semicolon]⟩
    simp

/-- `parsepipe` in terms of the parsers it calls. -/
theorem parsepipe_sound {fuel : Nat} (sound : Sound line fuel) {s : Nat} {ts : List Token}
    (tokens : Tokens line s ts) :
    Meets (4 * ts.length + 3 ≤ fuel + 1) (Reads line .pipe ts) (parsepipe line (fuel + 1) s) := by
  rw [parsepipe]
  refine Meets.bind ((sound.ofCommand tokens).weaken (fun fuelled => by omega) fun _ h => h) ?_
  rintro cmd ⟨used, rest, rfl, derived, tokens₁⟩
  by_cases ahead : lead rest = bar
  · obtain ⟨after, rfl⟩ := eq_of_lead ahead (by decide) (by decide)
    simp only [(tokens₁.peek_one (c := bar) (by decide)).mpr ahead, if_true]
    refine Meets.bind ((sound.ofPipe tokens₁.pass).weaken (fun fuelled => ?_) fun _ h => h) ?_
    · simp only [List.length_append, List.length_cons] at fuelled
      omega
    · rintro next ⟨used', rest', rfl, derived', tokens₂⟩
      refine .ok ⟨_, rest', ?_, .pipe derived derived', tokens₂⟩
      simp
  · have notFound : ¬ (peek line cmd.s [bar]).found = true := fun found =>
      ahead ((tokens₁.peek_one (by decide)).mp found)
    simp only [notFound]
    exact .ok ⟨used, rest, rfl, .command derived, tokens₁.afterPeek [bar]⟩

/-- `parseblock` in terms of the parsers it calls. -/
theorem parseblock_sound {fuel : Nat} (sound : Sound line fuel) {s : Nat} {ts : List Token}
    (tokens : Tokens line s ts) :
    Meets (4 * ts.length + 1 ≤ fuel + 1) (Reads line .command ts)
      (parseblock line (fuel + 1) s) := by
  rw [parseblock]
  by_cases opens : lead ts = lparen
  · obtain ⟨inside, rfl⟩ := eq_of_lead opens (by decide) (by decide)
    simp only [(tokens.peek_one (c := lparen) (by decide)).mpr opens, if_true]
    refine Meets.bind ((sound.ofLine tokens.pass).weaken (fun fuelled => ?_) fun _ h => h) ?_
    · simp only [List.length_cons] at fuelled
      omega
    · rintro cmd ⟨used, rest, rfl, derived, tokens₁⟩
      by_cases closes : lead rest = rparen
      · obtain ⟨after, rfl⟩ := eq_of_lead closes (by decide) (by decide)
        simp only [(tokens₁.peek_one (c := rparen) (by decide)).mpr closes, if_true]
        refine (parseredirs_sound fuel tokens₁.pass cmd.cmd).weaken (fun fuelled => ?_) ?_
        · simp only [List.length_cons, List.length_append] at fuelled
          omega
        · rintro next ⟨redirs, rest', rfl, built, tokens₂⟩
          have whole := Derives.block derived redirs
          rw [← built] at whole
          refine ⟨_, rest', ?_, whole, tokens₂⟩
          simp
      · have notFound : ¬ (peek line cmd.s [rparen]).found = true := fun found =>
          closes ((tokens₁.peek_one (by decide)).mp found)
        simp only [notFound]
        exact .panic
  · have notFound : ¬ (peek line s [lparen]).found = true := fun found =>
      opens ((tokens.peek_one (by decide)).mp found)
    simp only [notFound]
    exact .panic

/-- `parseexec` in terms of the parsers it calls. -/
theorem parseexec_sound {fuel : Nat} (sound : Sound line fuel) {s : Nat} {ts : List Token}
    (tokens : Tokens line s ts) :
    Meets (4 * ts.length + 2 ≤ fuel + 1) (Reads line .command ts)
      (parseexec line (fuel + 1) s) := by
  rw [parseexec]
  by_cases opens : lead ts = lparen
  · simp only [(tokens.peek_one (c := lparen) (by decide)).mpr opens, if_true]
    exact (sound.ofBlock (tokens.afterPeek [lparen])).weaken (fun fuelled => by omega)
      fun _ h => h
  · have notFound : ¬ (peek line s [lparen]).found = true := fun found =>
      opens ((tokens.peek_one (by decide)).mp found)
    simp only [notFound]
    refine Meets.bind ((parseredirs_sound fuel (tokens.afterPeek [lparen]) (.exec [])).weaken
      (fun fuelled => by omega) fun _ h => h) ?_
    rintro ret ⟨redirs, rest, rfl, built, tokens₁⟩
    have words := parseargs_sound fuel tokens₁ redirs [] (by decide)
    rw [built]
    refine words.weaken (fun fuelled => ?_) ?_
    · simp only [List.length_append] at fuelled
      omega
    · rintro parsed ⟨args, rest', rfl, few, final, tokens₂⟩
      rw [List.length_nil, Nat.zero_add] at few
      have whole : Derives .command (Simple.tokens ⟨redirs, args⟩) parsed.cmd := by
        rw [final]
        exact .simple ⟨redirs, args⟩ few
      refine ⟨_, rest', ?_, whole, tokens₂⟩
      simp [Simple.tokens]

/-- What the parsers return is derived from what they have read, and they come to an end. -/
theorem sound (line : CommandLine) (fuel : Nat) : Sound line fuel := by
  induction fuel with
  | zero =>
    constructor
    · exact fun _ => by rw [parseline]; exact .unfinished (by omega)
    · exact fun _ => by rw [parsepipe]; exact .unfinished (by omega)
    · exact fun _ => by rw [parseexec]; exact .unfinished (by omega)
    · exact fun _ => by rw [parseblock]; exact .unfinished (by omega)
  | succ fuel ih =>
    exact ⟨parseline_sound ih, parsepipe_sound ih, parseexec_sound ih, parseblock_sound ih⟩

/-! ## Everything derived is read -/

/-- The parser of a nonterminal. -/
def parser (line : CommandLine) : Nonterminal → Nat → Nat → Except Halt Parsed
  | .line => parseline line
  | .pipe => parsepipe line
  | .command => parseexec line

/-- The symbols that may follow what a nonterminal derives. -/
def Nonterminal.follow : Nonterminal → List UInt8
  | .line => [rparen]
  | .pipe => [amp, semicolon, rparen]
  | .command => [bar, amp, semicolon, rparen]

/-- How many calls there are from a nonterminal's parser down to `parseblock`, at most. -/
def Nonterminal.depth : Nonterminal → Nat
  | .line => 4
  | .pipe => 3
  | .command => 2

/-- The tokens ahead may follow what the nonterminal derives. -/
def Follows (nonterminal : Nonterminal) (rest : List Token) : Prop :=
  rest = [] ∨ lead rest ∈ nonterminal.follow

/-- Whatever else is looked for is not ahead. -/
theorem Follows.lead_ne {nonterminal : Nonterminal} {rest : List Token}
    (follows : Follows nonterminal rest) {c : UInt8} (other : c ∉ nonterminal.follow)
    (nonzero : c ≠ 0) : lead rest ≠ c := by
  intro ahead
  rcases follows with rfl | follow
  · exact nonzero ahead.symm
  · rw [ahead] at follow
    exact other follow

/-- What may follow a line may follow a pipe. -/
theorem Follows.pipe {rest : List Token} (follows : Follows .line rest) : Follows .pipe rest := by
  refine follows.imp_right fun ahead => ?_
  simp only [Nonterminal.follow, List.mem_cons, List.not_mem_nil, or_false] at ahead ⊢
  exact Or.inr (Or.inr ahead)

/-- What may follow a pipe may follow a command. -/
theorem Follows.command {rest : List Token} (follows : Follows .pipe rest) :
    Follows .command rest := by
  refine follows.imp_right fun ahead => ?_
  simp only [Nonterminal.follow, List.mem_cons, List.not_mem_nil, or_false] at ahead ⊢
  exact Or.inr ahead

/-- The symbols that may follow a command end a simple command. -/
theorem Follows.ends {rest : List Token} (follows : Follows .command rest) :
    rest = [] ∨ lead rest ∈ ends := by
  refine follows.imp_right fun ahead => ?_
  simp only [Nonterminal.follow, Shell.ends, List.mem_cons, List.not_mem_nil, or_false] at ahead ⊢
  tauto

/-- A symbol that may follow may be ahead. -/
theorem Follows.symbol {nonterminal : Nonterminal} {sign : UInt8} (single : sign ∈ singles)
    (member : sign ∈ nonterminal.follow) (rest : List Token) :
    Follows nonterminal (.symbol sign :: rest) := by
  right
  rw [lead_symbol single]
  exact member

/-- Signs `&` may follow a pipe. -/
theorem Follows.amps {rest : List Token} (follows : Follows .pipe rest) (count : Nat) :
    Follows .pipe (List.replicate count (.symbol amp) ++ rest) := by
  cases count with
  | zero => exact follows
  | succ count => exact .symbol (by decide) (by decide) _

/-- `parseline` reads a pipe and the signs `&` after it. -/
theorem parseline_backs {fuel s s₁ : Nat} {cmd : Cmd} {count : Nat} {rest : List Token}
    (pipe : parsepipe line fuel s = .ok ⟨cmd, s₁⟩)
    (tokens : Tokens line s₁ (List.replicate count (.symbol amp) ++ rest))
    (ahead : lead rest ≠ amp) (enough : count < fuel) :
    ∃ s₂, Tokens line s₂ rest ∧ parseline line (fuel + 1) s =
      if (peek line s₂ [semicolon]).found then do
        let next ← parseline line fuel (gettoken line (peek line s₂ [semicolon]).s).s
        return ⟨.list (Cmd.back^[count] cmd) next.cmd, next.s⟩
      else .ok ⟨Cmd.back^[count] cmd, (peek line s₂ [semicolon]).s⟩ := by
  obtain ⟨s₂, backs, tokens₁⟩ := parsebacks_complete count tokens ahead enough cmd
  refine ⟨s₂, tokens₁, ?_⟩
  rw [parseline, pipe]
  change (parsebacks line fuel cmd s₁ >>= _) = _
  rw [backs]
  rfl

/-- The parser of a nonterminal reads these tokens, wherever they may stand, with this command. -/
def ReadBy (line : CommandLine) (nonterminal : Nonterminal) (used : List Token) (cmd : Cmd) :
    Prop :=
  ∀ (fuel s : Nat) (rest : List Token), Tokens line s (used ++ rest) → Follows nonterminal rest →
    4 * (used.length + rest.length) + nonterminal.depth ≤ fuel →
    ∃ s₁, parser line nonterminal fuel s = .ok ⟨cmd, s₁⟩ ∧ Tokens line s₁ rest

/-- `pipe {'&'}` is read. -/
theorem ReadBy.backs {ts : List Token} {cmd : Cmd} (pipe : ReadBy line .pipe ts cmd)
    (count : Nat) :
    ReadBy line .line (ts ++ List.replicate count (.symbol amp)) (Cmd.back^[count] cmd) := by
  intro fuel s rest tokens follows enough
  obtain ⟨fuel, rfl⟩ := Nat.exists_eq_succ_of_ne_zero (Nat.ne_zero_of_lt enough)
  simp only [List.append_assoc, List.length_append, List.length_replicate, Nonterminal.depth]
    at tokens enough
  obtain ⟨s₁, parsed, tokens₁⟩ := pipe fuel s _ tokens (follows.pipe.amps count) (by
    simp only [List.length_append, List.length_replicate, Nonterminal.depth]
    omega)
  have noAmp : lead rest ≠ amp := follows.lead_ne (by decide) (by decide)
  have noSemicolon : lead rest ≠ semicolon := follows.lead_ne (by decide) (by decide)
  obtain ⟨s₂, tokens₂, same⟩ := parseline_backs parsed tokens₁ noAmp (by omega)
  refine ⟨_, same.trans (if_neg fun found => ?_), tokens₂.afterPeek [semicolon]⟩
  exact noSemicolon ((tokens₂.peek_one (by decide)).mp found)

/-- `pipe {'&'} ';' line` is read. -/
theorem ReadBy.list {ts ts' : List Token} {cmd cmd' : Cmd} (pipe : ReadBy line .pipe ts cmd)
    (count : Nat) (next : ReadBy line .line ts' cmd') :
    ReadBy line .line (ts ++ (List.replicate count (.symbol amp) ++ .symbol semicolon :: ts'))
      (.list (Cmd.back^[count] cmd) cmd') := by
  intro fuel s rest tokens follows enough
  obtain ⟨fuel, rfl⟩ := Nat.exists_eq_succ_of_ne_zero (Nat.ne_zero_of_lt enough)
  simp only [List.append_assoc, List.cons_append, List.length_append, List.length_cons,
    List.length_replicate, Nonterminal.depth] at tokens enough
  have ahead : lead (.symbol semicolon :: (ts' ++ rest)) = semicolon :=
    lead_symbol (by decide) _
  have followsPipe : Follows .pipe (.symbol semicolon :: (ts' ++ rest)) :=
    .symbol (by decide) (by decide) _
  obtain ⟨s₁, parsed, tokens₁⟩ := pipe fuel s _ tokens (followsPipe.amps count) (by
    simp only [List.length_append, List.length_cons, List.length_replicate, Nonterminal.depth]
    omega)
  obtain ⟨s₂, tokens₂, same⟩ :=
    parseline_backs parsed tokens₁ (by rw [ahead]; decide) (by omega)
  obtain ⟨s₃, parsed', tokens₃⟩ := next fuel _ rest tokens₂.pass follows (by
    simp only [Nonterminal.depth]
    omega)
  refine ⟨s₃, same.trans ?_, tokens₃⟩
  rw [if_pos ((tokens₂.peek_one (by decide)).mpr ahead), show parseline line fuel _ = _ from parsed']
  rfl

/-- `cmd` is read as a pipe. -/
theorem ReadBy.command {ts : List Token} {cmd : Cmd} (command : ReadBy line .command ts cmd) :
    ReadBy line .pipe ts cmd := by
  intro fuel s rest tokens follows enough
  obtain ⟨fuel, rfl⟩ := Nat.exists_eq_succ_of_ne_zero (Nat.ne_zero_of_lt enough)
  obtain ⟨s₁, parsed, tokens₁⟩ := command fuel s rest tokens follows.command (by
    simp only [Nonterminal.depth] at enough ⊢
    omega)
  have noBar : lead rest ≠ bar := follows.lead_ne (by decide) (by decide)
  refine ⟨_, ?_, tokens₁.afterPeek [bar]⟩
  change parsepipe line (fuel + 1) s = _
  rw [parsepipe, show parseexec line fuel s = _ from parsed]
  exact if_neg fun found => noBar ((tokens₁.peek_one (by decide)).mp found)

/-- `cmd '|' pipe` is read. -/
theorem ReadBy.pipe {ts ts' : List Token} {cmd cmd' : Cmd}
    (command : ReadBy line .command ts cmd) (next : ReadBy line .pipe ts' cmd') :
    ReadBy line .pipe (ts ++ .symbol bar :: ts') (.pipe cmd cmd') := by
  intro fuel s rest tokens follows enough
  obtain ⟨fuel, rfl⟩ := Nat.exists_eq_succ_of_ne_zero (Nat.ne_zero_of_lt enough)
  simp only [List.append_assoc, List.cons_append, List.length_append, List.length_cons,
    Nonterminal.depth] at tokens enough
  have ahead : lead (.symbol bar :: (ts' ++ rest)) = bar := lead_symbol (by decide) _
  obtain ⟨s₁, parsed, tokens₁⟩ := command fuel s _ tokens (.symbol (by decide) (by decide) _) (by
    simp only [List.length_append, List.length_cons, Nonterminal.depth]
    omega)
  obtain ⟨s₂, parsed', tokens₂⟩ := next fuel _ rest tokens₁.pass follows (by
    simp only [Nonterminal.depth]
    omega)
  refine ⟨s₂, ?_, tokens₂⟩
  change parsepipe line (fuel + 1) s = _
  rw [parsepipe, show parseexec line fuel s = _ from parsed]
  refine (if_pos ((tokens₁.peek_one (by decide)).mpr ahead)).trans ?_
  rw [show parsepipe line fuel _ = _ from parsed']
  rfl

/-- `'(' line ')' redirs` is read. -/
theorem ReadBy.block {ts : List Token} {cmd : Cmd} (inside : ReadBy line .line ts cmd)
    (redirs : List Redirection) :
    ReadBy line .command
      (.symbol lparen :: (ts ++ .symbol rparen :: redirs.flatMap Redirection.tokens))
      (redirs.foldl Redirection.around cmd) := by
  intro fuel s rest tokens follows enough
  obtain ⟨fuel, rfl⟩ := Nat.exists_eq_succ_of_ne_zero (Nat.ne_zero_of_lt enough)
  simp only [List.append_assoc, List.cons_append, List.length_append, List.length_cons,
    Nonterminal.depth] at tokens enough
  obtain ⟨fuel, rfl⟩ := Nat.exists_eq_succ_of_ne_zero (show fuel ≠ 0 by omega)
  have opens : lead (.symbol lparen ::
      (ts ++ .symbol rparen :: (redirs.flatMap Redirection.tokens ++ rest))) = lparen :=
    lead_symbol (by decide) _
  have closes : lead (.symbol rparen :: (redirs.flatMap Redirection.tokens ++ rest)) = rparen :=
    lead_symbol (by decide) _
  have tokens₁ := tokens.afterPeek [lparen]
  obtain ⟨s₁, parsed, tokens₂⟩ := inside fuel _ _ tokens₁.pass
    (.symbol (by decide) (by decide) _) (by
      simp only [List.length_append, List.length_cons, Nonterminal.depth]
      omega)
  have count := redirs_length_le redirs
  obtain ⟨s₂, redirected, tokens₃⟩ := parseredirs_complete redirs tokens₂.pass
    (by simpa using lead_args [] follows.ends) (show redirs.length < fuel by omega) cmd
  refine ⟨s₂, ?_, tokens₃⟩
  change parseexec line (fuel + 1 + 1) s = _
  rw [parseexec]
  refine (if_pos ((tokens.peek_one (by decide)).mpr opens)).trans ?_
  rw [parseblock]
  refine (if_pos ((tokens₁.peek_one (by decide)).mpr opens)).trans ?_
  rw [show parseline line fuel _ = _ from parsed]
  refine (if_pos ((tokens₂.peek_one (by decide)).mpr closes)).trans ?_
  exact redirected

/-- A simple command does not begin with a parenthesis. -/
theorem Simple.lead_ne (simple : Simple) {rest : List Token} (follows : Follows .command rest) :
    lead (simple.tokens ++ rest) ≠ lparen := by
  obtain ⟨redirs, args⟩ := simple
  cases redirs with
  | cons redir redirs =>
    obtain ⟨tail, same⟩ : ∃ tail, Simple.tokens ⟨redir :: redirs, args⟩ ++ rest =
        .symbol redir.operator.sign :: tail :=
      ⟨_, by
        simp only [Simple.tokens, List.flatMap_cons, Redirection.tokens, List.cons_append]
        rfl⟩
    intro opens
    have operator := lead_operator redir.operator tail
    rw [← same, opens] at operator
    exact absurd operator (by decide)
  | nil =>
    cases args with
    | nil => exact follows.lead_ne (by decide) (by decide)
    | cons arg args => exact (by decide : lowerA ≠ lparen)

/-- `redirs {word redirs}` is read. -/
theorem ReadBy.simple (simple : Simple) (few : simple.args.length < MAXARGS) :
    ReadBy line .command simple.tokens simple.cmd := by
  intro fuel s rest tokens follows enough
  obtain ⟨fuel, rfl⟩ := Nat.exists_eq_succ_of_ne_zero (Nat.ne_zero_of_lt enough)
  have notFound : ¬ (peek line s [lparen]).found = true := fun found =>
    simple.lead_ne follows ((tokens.peek_one (by decide)).mp found)
  have tokens₁ := tokens.afterPeek [lparen]
  simp only [Simple.tokens, List.append_assoc, List.length_append, Nonterminal.depth]
    at tokens₁ enough
  have count := redirs_length_le simple.redirs
  obtain ⟨s₁, redirected, tokens₂⟩ := parseredirs_complete simple.redirs tokens₁
    (lead_args simple.args follows.ends) (show simple.redirs.length < fuel by omega) (.exec [])
  obtain ⟨s₂, words, tokens₃⟩ := parseargs_complete simple.args tokens₂
    follows.ends simple.redirs [] (by simpa using few)
    (show (simple.args.flatMap Argument.tokens).length < fuel by omega)
  refine ⟨s₂, ?_, tokens₃⟩
  change parseexec line (fuel + 1) s = _
  rw [parseexec]
  refine (if_neg notFound).trans ?_
  rw [redirected]
  exact words

/-- What a nonterminal derives is read by its parser. -/
theorem Derives.readBy {nonterminal : Nonterminal} {used : List Token} {cmd : Cmd}
    (derived : Derives nonterminal used cmd) : ReadBy line nonterminal used cmd := by
  induction derived with
  | line count _ pipe => exact ReadBy.backs pipe count
  | list count _ _ pipe next => exact ReadBy.list pipe count next
  | command _ command => exact ReadBy.command command
  | pipe _ _ command next => exact ReadBy.pipe command next
  | block _ redirs inside => exact ReadBy.block inside redirs
  | simple simple few => exact .simple simple few

end Shell

end Xv6
