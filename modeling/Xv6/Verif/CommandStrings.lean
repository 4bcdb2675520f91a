import Xv6.Verif.Parsing

/-!
# The commands that the shell parses

`parsecmd` accepts the lines of the grammar, with the command of the derivation, and `nulterminate`
makes each of its pointers a string: the word it points to.
-/

namespace Xv6

namespace Shell

variable {line : CommandLine}

/-! ## Strings of a command -/

/-- The words of a command: its arguments and its file names, in the order in which `nulterminate`
comes to them. -/
def Cmd.words : Cmd → List Slice
  | .exec argv => argv
  | .redir cmd file _ _ => cmd.words ++ [file]
  | .pipe left right => left.words ++ right.words
  | .list left right => left.words ++ right.words
  | .back cmd => cmd.words

/-- The text of a part of the line. -/
def CommandLine.slice (line : CommandLine) (word : Slice) : List UInt8 :=
  (line.text.drop word.q).take (word.eq - word.q)

/-- A NUL written at each of the places. -/
def terminated (places : List Nat) (buf : List UInt8) : List UInt8 :=
  places.foldl (fun buf place => buf.set place 0) buf

/-- `nulterminate` writes a NUL after each word, and nothing else. -/
theorem nulterminate_eq (cmd : Cmd) (buf : List UInt8) :
    nulterminate cmd buf = terminated (cmd.words.map Slice.eq) buf := by
  induction cmd generalizing buf with
  | exec argv => rw [nulterminate, Cmd.words, terminated, List.foldl_map]
  | redir cmd file mode fd ih =>
    rw [nulterminate, ih, Cmd.words, List.map_append, terminated, terminated, List.foldl_append]
    rfl
  | pipe left right ihLeft ihRight =>
    rw [nulterminate, ihLeft, ihRight, Cmd.words, List.map_append, terminated, terminated,
      terminated, List.foldl_append]
  | list left right ihLeft ihRight =>
    rw [nulterminate, ihLeft, ihRight, Cmd.words, List.map_append, terminated, terminated,
      terminated, List.foldl_append]
  | back cmd ih => exact ih buf

/-- The other places keep their characters. -/
theorem terminated_other {places : List Nat} {j : Nat} (other : j ∉ places) (buf : List UInt8) :
    (terminated places buf)[j]? = buf[j]? := by
  induction places generalizing buf with
  | nil => rfl
  | cons place places ih =>
    rw [List.mem_cons, not_or] at other
    have later := ih other.2 (buf.set place 0)
    rw [List.getElem?_set_ne (Ne.symm other.1)] at later
    exact later

/-- A place that gets a NUL has it in the end. -/
theorem terminated_place {places : List Nat} {j : Nat} (member : j ∈ places) {buf : List UInt8}
    (inside : j < buf.length) : (terminated places buf)[j]? = some 0 := by
  induction places generalizing buf with
  | nil => exact absurd member (List.not_mem_nil)
  | cons place places ih =>
    have inside' : j < (buf.set place 0).length := by rwa [List.length_set]
    by_cases later : j ∈ places
    · exact ih later inside'
    · have here : j = place := (List.mem_cons.mp member).resolve_right later
      have kept := terminated_other later (buf.set place 0)
      rw [here, List.getElem?_set_self (here ▸ inside)] at kept
      rw [here]
      exact kept

/-- What stands before the first NUL of a list. -/
theorem takeWhile_ne_zero {buf : List UInt8} (count : Nat)
    (chars : ∀ i, i < count → ∃ c, buf[i]? = some c ∧ c ≠ 0) (stop : buf[count]? = some 0) :
    buf.takeWhile (· ≠ 0) = buf.take count := by
  induction count generalizing buf with
  | zero =>
    cases buf with
    | nil => rfl
    | cons c rest =>
      have isNul : c = 0 := by simpa using stop
      simp [isNul]
  | succ count ih =>
    cases buf with
    | nil => simp at stop
    | cons c rest =>
      obtain ⟨first, here, nonzero⟩ := chars 0 (Nat.succ_pos count)
      have isFirst : c = first := by simpa using here
      have tail : rest.takeWhile (· ≠ 0) = rest.take count :=
        ih (fun i below => by simpa using chars (i + 1) (by omega)) (by simpa using stop)
      have passes : decide (c ≠ 0) = true := by simpa [isFirst] using nonzero
      rw [List.takeWhile_cons, if_pos passes, tail, List.take_succ_cons]

/-- After `nulterminate` the string at a word is the text of the word: the NULs are written where
words end, and no word ends within another. -/
theorem stringAt_word {words : List Slice} (areWords : ∀ word ∈ words, IsWord line word)
    {word : Slice} (member : word ∈ words) :
    stringAt (terminated (words.map Slice.eq) line.buf) word.q = line.slice word := by
  have isWord := areWords word member
  have within : word.eq ≤ line.text.length := isWord.run.within
  have kept : ∀ i, i < word.eq - word.q →
      (terminated (words.map Slice.eq) line.buf)[word.q + i]? = line.text[word.q + i]? := by
    intro i below
    have inside : word.q + i < line.text.length := by omega
    have notPlace : word.q + i ∉ words.map Slice.eq := by
      intro place
      obtain ⟨other, otherMember, same⟩ := List.mem_map.mp place
      have stops := (areWords other otherMember).run.longest (by
        rw [same]
        exact inside)
      rw [same, isWord.run.chars _ (by omega) (by omega)] at stops
      exact Bool.noConfusion stops
    rw [terminated_other notPlace, CommandLine.buf, List.getElem?_append_left inside]
  have nul : (terminated (words.map Slice.eq) line.buf)[word.eq]? = some 0 := by
    apply terminated_place (List.mem_map_of_mem member)
    rw [CommandLine.buf, List.length_append, List.length_singleton]
    omega
  have nonempty := isWord.nonempty
  rw [stringAt, takeWhile_ne_zero (word.eq - word.q), CommandLine.slice]
  · apply List.ext_getElem?
    intro i
    rw [List.getElem?_take, List.getElem?_take]
    by_cases below : i < word.eq - word.q
    · rw [if_pos below, if_pos below, List.getElem?_drop, List.getElem?_drop, kept i below]
    · rw [if_neg below, if_neg below]
  · intro i below
    have inside : word.q + i < line.text.length := by omega
    rw [List.getElem?_drop, kept i below, List.getElem?_eq_getElem inside]
    exact ⟨_, rfl, line.noNul _ (List.getElem_mem inside)⟩
  · rw [List.getElem?_drop, Nat.add_sub_cancel' (Nat.le_of_lt nonempty)]
    exact nul

/-! ## Words of a derivation -/

/-- A redirection adds its file name. -/
theorem Redirection.words_around (cmd : Cmd) (redir : Redirection) :
    (redir.around cmd).words = cmd.words ++ [redir.file] := by
  rw [Redirection.around]
  split <;> rfl

/-- Redirections add their file names. -/
theorem words_foldl_around (redirs : List Redirection) (cmd : Cmd) :
    (redirs.foldl Redirection.around cmd).words = cmd.words ++ redirs.map Redirection.file := by
  induction redirs generalizing cmd with
  | nil => exact (List.append_nil _).symm
  | cons redir redirs ih =>
    rw [List.foldl_cons, ih, Redirection.words_around, List.append_assoc, List.map_cons]
    rfl

/-- The file name of a redirection is one of its tokens. -/
theorem file_mem_tokens {redirs : List Redirection} {redir : Redirection}
    (member : redir ∈ redirs) :
    Token.word redir.file ∈ redirs.flatMap Redirection.tokens :=
  List.mem_flatMap.mpr ⟨redir, member, by simp [Redirection.tokens]⟩

/-- The words of a simple command are among its tokens. -/
theorem Simple.words_mem (simple : Simple) {word : Slice} (member : word ∈ simple.cmd.words) :
    Token.word word ∈ simple.tokens := by
  rw [Simple.cmd, words_foldl_around, Cmd.words, Simple.allRedirs, List.map_append,
    List.mem_append, List.mem_append] at member
  rw [Simple.tokens, List.mem_append]
  rcases member with argument | first | later
  · obtain ⟨arg, argMember, rfl⟩ := List.mem_map.mp argument
    exact Or.inr (List.mem_flatMap.mpr ⟨arg, argMember, List.mem_cons_self ..⟩)
  · obtain ⟨redir, redirMember, rfl⟩ := List.mem_map.mp first
    exact Or.inl (file_mem_tokens redirMember)
  · obtain ⟨redir, redirMember, rfl⟩ := List.mem_map.mp later
    obtain ⟨arg, argMember, ofArg⟩ := List.mem_flatMap.mp redirMember
    exact Or.inr (List.mem_flatMap.mpr
      ⟨arg, argMember, List.mem_cons_of_mem _ (file_mem_tokens ofArg)⟩)

/-- The signs `&` add no words. -/
theorem words_back (count : Nat) (cmd : Cmd) : (Cmd.back^[count] cmd).words = cmd.words := by
  induction count generalizing cmd with
  | zero => rfl
  | succ count ih => exact ih (.back cmd)

/-- The words of a derived command are among the tokens it is derived from. -/
theorem Derives.words_mem {nonterminal : Nonterminal} {ts : List Token} {cmd : Cmd}
    (derived : Derives nonterminal ts cmd) {word : Slice} (member : word ∈ cmd.words) :
    Token.word word ∈ ts := by
  induction derived with
  | line count _ ih =>
    rw [words_back] at member
    exact List.mem_append_left _ (ih member)
  | list count _ _ ih ihRest =>
    rw [Cmd.words, words_back, List.mem_append] at member
    rcases member with left | right
    · exact List.mem_append_left _ (ih left)
    · exact List.mem_append_right _
        (List.mem_append_right _ (List.mem_cons_of_mem _ (ihRest right)))
  | command _ ih => exact ih member
  | pipe _ _ ih ihRest =>
    rcases List.mem_append.mp member with left | right
    · exact List.mem_append_left _ (ih left)
    · exact List.mem_append_right _ (List.mem_cons_of_mem _ (ihRest right))
  | block _ redirs ih =>
    rw [words_foldl_around, List.mem_append] at member
    apply List.mem_cons_of_mem
    rcases member with inside | file
    · exact List.mem_append_left _ (ih inside)
    · obtain ⟨redir, redirMember, rfl⟩ := List.mem_map.mp file
      exact List.mem_append_right _ (List.mem_cons_of_mem _ (file_mem_tokens redirMember))
  | simple simple _ => exact simple.words_mem member

/-! ## `parsecmd` -/

/-- What is to hold of the outcome of parsing a line. -/
structure AcceptsGrammar (line : CommandLine) (outcome : Except Halt ParsedCommand) : Prop where
  /-- The parser comes to an end. -/
  ends : outcome ≠ .error .unfinished
  /-- The line has just one list of tokens. -/
  tokens : ∃ ts, ∀ ts', Tokens line 0 ts' ↔ ts' = ts
  /-- The parser returns a command just if the grammar derives the tokens, with that command. -/
  grammar : ∀ ts, Tokens line 0 ts → ∀ cmd,
    (∃ buf, outcome = .ok ⟨cmd, buf⟩) ↔ Derives .line ts cmd
  /-- Each argument and file name is a word among the tokens, and its string is the word's text. -/
  strings : ∀ ts, Tokens line 0 ts → ∀ result, outcome = .ok result → ∀ word ∈ result.cmd.words,
    .word word ∈ ts ∧ IsWord line word ∧ stringAt result.buf word.q = line.slice word

/-- The place before no more tokens is reached when the blanks are skipped. -/
theorem Tokens.skip_nil {s : Nat} (tokens : Tokens line s []) : scan blank line s = line.es := by
  have skipped := tokens.skipBlanks
  have noBlank := (scan_isRun blank line s tokens.within).longest
  generalize scan blank line s = q at skipped noBlank ⊢
  cases skipped with
  | done => rfl
  | space before isBlank _ => simp [noBlank before] at isBlank

/-- Nothing is ahead of the end. -/
theorem Tokens.of_skip {s : Nat} {ts : List Token} (tokens : Tokens line s ts)
    (atEnd : scan blank line s = line.es) : ts = [] := by
  have skipped := tokens.skipBlanks
  rw [atEnd] at skipped
  exact skipped.unique .done

/-- `parsecmd` returns what `parseline` returns if it has read all tokens. -/
theorem parsecmd_ok_iff {fuel : Nat} {ts : List Token} (tokens : Tokens line 0 ts)
    {result : ParsedCommand} :
    parsecmd line fuel = .ok result ↔
      ∃ s, parseline line fuel 0 = .ok ⟨result.cmd, s⟩ ∧ Tokens line s [] ∧
        result.buf = nulterminate result.cmd line.buf := by
  constructor
  · intro returned
    rw [parsecmd] at returned
    cases parsed : parseline line fuel 0 with
    | error halt => simp [parsed, Bind.bind, Except.bind] at returned
    | ok pair =>
      rw [parsed] at returned
      obtain ⟨used, rest, _, _, tokens'⟩ := ((sound line fuel).ofLine tokens).result pair parsed
      by_cases atEnd : (peek line pair.s []).s = line.es
      · have same : (⟨pair.cmd, nulterminate pair.cmd line.buf⟩ : ParsedCommand) = result :=
          Except.ok.inj ((if_neg (not_not.mpr atEnd)).symm.trans returned)
        have nothing := tokens'.of_skip atEnd
        rw [nothing] at tokens'
        rw [← same]
        exact ⟨pair.s, rfl, tokens', rfl⟩
      · have panics := (if_pos atEnd).symm.trans returned
        simp at panics
  · rintro ⟨s, parsed, tokens', written⟩
    rw [parsecmd, parsed]
    refine (if_neg (not_not.mpr tokens'.skip_nil)).trans ?_
    rw [← written]
    rfl

/-- The parser of the shell comes to an end on every line and accepts just the lines of its
grammar. It returns the command of the derivation, and after `nulterminate` each argument and file
name is the text of its word. -/
theorem parsecmd_accepts_grammar (line : CommandLine) (fuel : Nat)
    (enough : 4 * line.es + 4 ≤ fuel) : AcceptsGrammar line (parsecmd line fuel) := by
  obtain ⟨ts, tokens⟩ := tokens_exist line (Nat.zero_le line.es)
  have count := tokens.length_le
  have parsed := (sound line fuel).ofLine tokens
  have derivedOf : ∀ {result}, parsecmd line fuel = .ok result → Derives .line ts result.cmd ∧
      result.buf = nulterminate result.cmd line.buf := by
    intro result returned
    obtain ⟨s, read, tokens', written⟩ := (parsecmd_ok_iff tokens).mp returned
    obtain ⟨used, rest, split, derived, tokens''⟩ := parsed.result _ read
    rw [tokens''.unique tokens', List.append_nil] at split
    exact ⟨split ▸ derived, written⟩
  refine ⟨?_, ⟨ts, fun ts' => ⟨fun other => other.unique tokens, fun same => same ▸ tokens⟩⟩,
    ?_, ?_⟩
  · intro ranOut
    apply parsed.ends (by omega)
    rw [parsecmd] at ranOut
    cases read : parseline line fuel 0 with
    | error halt => simpa [read, Bind.bind, Except.bind] using ranOut
    | ok pair =>
      rw [read] at ranOut
      by_cases atEnd : (peek line pair.s []).s = line.es
      · have returns := (if_neg (not_not.mpr atEnd)).symm.trans ranOut
        simp [Pure.pure, Except.pure] at returns
      · have panics := (if_pos atEnd).symm.trans ranOut
        simp at panics
  · intro ts' tokens' cmd
    rw [tokens'.unique tokens]
    constructor
    · rintro ⟨buf, returned⟩
      exact (derivedOf returned).1
    · intro derived
      have ahead : Tokens line 0 (ts ++ []) := (List.append_nil ts).symm ▸ tokens
      obtain ⟨s, read, atEnd⟩ := derived.readBy fuel 0 [] ahead (Or.inl rfl) (by
        simp only [List.length_nil, Nonterminal.depth]
        omega)
      exact ⟨nulterminate cmd line.buf, (parsecmd_ok_iff tokens).mpr ⟨s, read, atEnd, rfl⟩⟩
  · intro ts' tokens' result returned word member
    rw [tokens'.unique tokens]
    obtain ⟨derived, written⟩ := derivedOf returned
    have areWords : ∀ word ∈ result.cmd.words, IsWord line word := fun word member =>
      tokens.isWord (derived.words_mem member)
    refine ⟨derived.words_mem member, areWords word member, ?_⟩
    rw [written, nulterminate_eq]
    exact stringAt_word areWords member

/-- The line `ls>x`. -/
def redirectedLine : CommandLine := ⟨[108, 115, 62, 120], by simp⟩

/-- Its parser needs no more than twenty rounds. -/
theorem parsecmd_accepts_grammar_redirected :
    4 * redirectedLine.es + 4 ≤ 20 ∧ AcceptsGrammar redirectedLine (parsecmd redirectedLine 20) :=
  ⟨by decide, parsecmd_accepts_grammar redirectedLine 20 (by decide)⟩

end Shell

end Xv6
