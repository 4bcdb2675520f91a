import Xv6.Shell

/-!
# Tokens of a command line

The tokens that a line consists of, said by a relation between places of the line and lists of
tokens, and what `peek` and `gettoken` do where the tokens ahead are known.
-/

namespace Xv6

namespace Shell

/-- A token: a word with its place, or the sign that `gettoken` returns for a symbol. -/
inductive Token
  | word (slice : Slice)
  | symbol (sign : UInt8)
  deriving DecidableEq

/-- A longest run of characters that pass a test. -/
structure IsRun (test : UInt8 → Bool) (line : CommandLine) (s stop : Nat) : Prop where
  /-- It ends at or after its beginning. -/
  reached : s ≤ stop
  /-- It ends within the line. -/
  within : stop ≤ line.es
  /-- Its characters. -/
  chars : ∀ j, s ≤ j → j < stop → test (line.char j) = true
  /-- It goes as far as it can. -/
  longest : stop < line.es → test (line.char stop) = false

/-- A word: a longest run, not an empty one, of characters that are neither blanks nor symbols. -/
structure IsWord (line : CommandLine) (slice : Slice) : Prop where
  /-- It is not empty. -/
  nonempty : slice.q < slice.eq
  run : IsRun wordChar line slice.q slice.eq

/-- The tokens of a line from a place on. -/
inductive Tokens (line : CommandLine) : Nat → List Token → Prop
  /-- There are none at the end. -/
  | done : Tokens line line.es []
  /-- A blank is not part of a token. -/
  | space {s ts} (before : s < line.es) (isBlank : blank (line.char s) = true)
      (rest : Tokens line (s + 1) ts) : Tokens line s ts
  /-- A symbol of one character. -/
  | single {s ts} (before : s < line.es) (single : line.char s ∈ singles)
      (rest : Tokens line (s + 1) ts) : Tokens line s (.symbol (line.char s) :: ts)
  /-- A `>` alone. -/
  | greater {s ts} (before : s < line.es) (first : line.char s = great)
      (second : line.char (s + 1) ≠ great) (rest : Tokens line (s + 1) ts) :
      Tokens line s (.symbol great :: ts)
  /-- A `>>`. -/
  | append {s ts} (before : s < line.es) (first : line.char s = great)
      (second : line.char (s + 1) = great) (rest : Tokens line (s + 2) ts) :
      Tokens line s (.symbol plus :: ts)
  | word {slice ts} (isWord : IsWord line slice) (rest : Tokens line slice.eq ts) :
      Tokens line slice.q (.word slice :: ts)

variable {line : CommandLine}

/-! ## Characters -/

/-- The character at the end is the NUL. -/
theorem CommandLine.char_es (line : CommandLine) : line.char line.es = 0 := by
  simp [CommandLine.char, CommandLine.es]

/-- No character of the line is the NUL. -/
theorem CommandLine.char_ne_zero (line : CommandLine) {s : Nat} (before : s < line.es) :
    line.char s ≠ 0 := by
  have inside : s < line.text.length := before
  have value : line.char s = line.text[s] := by
    simp [CommandLine.char, List.getD, List.getElem?_eq_getElem inside]
  rw [value]
  exact line.noNul _ (List.getElem_mem inside)

/-- A character that is not the NUL is before the end. -/
theorem CommandLine.before_es (line : CommandLine) {s : Nat} (nonzero : line.char s ≠ 0) :
    s < line.es := by
  by_contra past
  apply nonzero
  have outside : line.text.length ≤ s := Nat.le_of_not_lt past
  simp [CommandLine.char, List.getD, List.getElem?_eq_none outside]

/-- A symbol of one character is not a blank. -/
theorem blank_of_single {c : UInt8} (single : c ∈ singles) : blank c = false := by
  simp only [singles, List.mem_cons, List.not_mem_nil, or_false] at single
  obtain rfl | rfl | rfl | rfl | rfl | rfl := single <;> decide

/-- A character of a word is not a blank. -/
theorem blank_of_wordChar {c : UInt8} (isWord : wordChar c = true) : blank c = false := by
  simp only [wordChar, Bool.and_eq_true, decide_eq_true_eq] at isWord
  simp [blank, isWord.1]

/-- A character of a word is no symbol. -/
theorem not_symbol_of_wordChar {c : UInt8} (isWord : wordChar c = true) : c ∉ symbols := by
  simp only [wordChar, Bool.and_eq_true, decide_eq_true_eq] at isWord
  exact isWord.2

/-- The single symbols are symbols. -/
theorem symbol_of_single {c : UInt8} (single : c ∈ singles) : c ∈ symbols := by
  simp only [singles, List.mem_cons, List.not_mem_nil, or_false] at single
  obtain rfl | rfl | rfl | rfl | rfl | rfl := single <;> decide

/-- A character is a blank, a single symbol, `>` or of a word. -/
theorem char_cases (c : UInt8) :
    blank c = true ∨ c ∈ singles ∨ c = great ∨ wordChar c = true := by
  by_cases isBlank : c ∈ whitespace
  · exact Or.inl (by simp [blank, isBlank])
  · by_cases isSymbol : c ∈ symbols
    · simp only [symbols, List.mem_cons, List.not_mem_nil, or_false] at isSymbol
      simp only [singles, List.mem_cons, List.not_mem_nil, or_false]
      tauto
    · exact Or.inr (Or.inr (Or.inr (by simp [wordChar, isBlank, isSymbol])))

/-! ## Scanning loops -/

/-- The loops of the scanner pass a longest run. -/
theorem scan_isRun (test : UInt8 → Bool) (line : CommandLine) (s : Nat) (within : s ≤ line.es) :
    IsRun test line s (scan test line s) := by
  fun_induction scan test line s with
  | case1 s passes ih =>
    have rest := ih passes.1
    refine ⟨by have := rest.reached; omega, rest.within, ?_, rest.longest⟩
    intro j above below
    by_cases first : j = s
    · rw [first]
      exact passes.2
    · exact rest.chars j (by omega) below
  | case2 s stops =>
    refine ⟨Nat.le_refl s, within, by omega, ?_⟩
    intro before
    by_contra passes
    exact stops ⟨before, by simpa using passes⟩

/-- Only one longest run begins at a place. -/
theorem IsRun.unique {test : UInt8 → Bool} {s stop stop' : Nat} (run : IsRun test line s stop)
    (run' : IsRun test line s stop') : stop = stop' := by
  have noShorter : ∀ {a b}, IsRun test line s a → IsRun test line s b → ¬ a < b := by
    intro a b shorter longer less
    have stops := shorter.longest (Nat.lt_of_lt_of_le less longer.within)
    rw [longer.chars a shorter.reached less] at stops
    exact Bool.noConfusion stops
  have := noShorter run run'
  have := noShorter run' run
  omega

/-- The loop over a word passes just the word. -/
theorem IsWord.scan {slice : Slice} (isWord : IsWord line slice) :
    scan wordChar line slice.q = slice.eq := by
  have within : slice.q ≤ line.es := Nat.le_trans isWord.run.reached isWord.run.within
  exact (scan_isRun wordChar line slice.q within).unique isWord.run

/-- A character of a word begins one if none comes before it. -/
theorem isWord_scan {s : Nat} (before : s < line.es) (inWord : wordChar (line.char s) = true) :
    IsWord line ⟨s, Shell.scan wordChar line s⟩ := by
  have run := scan_isRun wordChar line s (Nat.le_of_lt before)
  refine ⟨?_, run⟩
  by_contra empty
  have stopped : Shell.scan wordChar line s = s := by
    have reached := run.reached
    have notLess : ¬ s < Shell.scan wordChar line s := empty
    omega
  have stops := run.longest (by rw [stopped]; exact before)
  rw [stopped, inWord] at stops
  exact Bool.noConfusion stops

/-! ## Blanks -/

/-- The tokens ahead of a blank are those after it. -/
theorem Tokens.skip {s : Nat} {ts : List Token} (tokens : Tokens line s ts) (before : s < line.es)
    (isBlank : blank (line.char s) = true) : Tokens line (s + 1) ts := by
  cases tokens with
  | done => omega
  | space _ _ rest => exact rest
  | single _ single _ => simp [blank_of_single single] at isBlank
  | greater _ first _ _ =>
    rw [first] at isBlank
    exact absurd isBlank (by decide)
  | append _ first _ _ =>
    rw [first] at isBlank
    exact absurd isBlank (by decide)
  | word isWord _ =>
    have first := isWord.run.chars _ (Nat.le_refl _) isWord.nonempty
    simp [blank_of_wordChar first] at isBlank

/-- Skipping blanks changes nothing about the tokens ahead. -/
theorem Tokens.skipBlanks {s : Nat} {ts : List Token} (tokens : Tokens line s ts) :
    Tokens line (scan blank line s) ts := by
  fun_induction scan blank line s with
  | case1 s passes ih => exact ih (tokens.skip passes.1 passes.2)
  | case2 s stops => exact tokens

/-! ## Every line has tokens -/

/-- From every place of a line on there are tokens. -/
theorem tokens_exist (line : CommandLine) {s : Nat} (within : s ≤ line.es) :
    ∃ ts, Tokens line s ts := by
  induction left : line.es - s using Nat.strongRecOn generalizing s with
  | _ left ih =>
    by_cases atEnd : s = line.es
    · exact ⟨[], atEnd ▸ .done⟩
    · have before : s < line.es := by omega
      obtain ⟨ts, next⟩ := ih _ (by omega) (s := s + 1) (by omega) rfl
      obtain isBlank | single | isGreat | inWord := char_cases (line.char s)
      · exact ⟨ts, .space before isBlank next⟩
      · exact ⟨_, .single before single next⟩
      · by_cases second : line.char (s + 1) = great
        · have twice : s + 1 < line.es := line.before_es (by rw [second]; decide)
          obtain ⟨rest, after⟩ := ih _ (by omega) (s := s + 2) (by omega) rfl
          exact ⟨_, .append before isGreat second after⟩
        · exact ⟨_, .greater before isGreat second next⟩
      · have isWord := isWord_scan before inWord
        have nonempty : s < scan wordChar line s := isWord.nonempty
        obtain ⟨rest, after⟩ := ih (line.es - scan wordChar line s) (by omega)
          isWord.run.within rfl
        exact ⟨_, .word isWord after⟩

/-! ## `peek` and `gettoken` -/

/-- The character that a list of tokens begins with, where it is a symbol. -/
def lead : List Token → UInt8
  | [] => 0
  | .word _ :: _ => lowerA
  | .symbol sign :: _ => if sign = plus then great else sign

/-- The tokens ahead of a place without blanks tell its character. -/
theorem Tokens.lead_mem_iff {s : Nat} {ts : List Token} (tokens : Tokens line s ts)
    (noBlank : s < line.es → blank (line.char s) = false) {toks : List UInt8}
    (areSymbols : ∀ c ∈ toks, c ∈ symbols) :
    (line.char s ≠ 0 ∧ line.char s ∈ toks) ↔ lead ts ∈ toks := by
  have notZero : (0 : UInt8) ∉ toks := fun member => absurd (areSymbols 0 member) (by decide)
  cases tokens with
  | done => simp [lead, line.char_es, notZero]
  | space before isBlank _ => simp [noBlank before] at isBlank
  | single before single _ =>
    have notPlus : line.char s ≠ plus := by
      intro isPlus
      rw [isPlus] at single
      exact absurd single (by decide)
    simp [lead, notPlus, line.char_ne_zero before]
  | greater before first _ _ =>
    simp only [lead, first]
    simp [show great ≠ plus by decide, show great ≠ 0 by decide]
  | append before first _ _ =>
    simp only [lead, first]
    simp [show great ≠ 0 by decide]
  | word isWord _ =>
    have first := isWord.run.chars _ (Nat.le_refl _) isWord.nonempty
    have notAhead : line.char _ ∉ toks := fun member =>
      not_symbol_of_wordChar first (areSymbols _ member)
    have notLetter : lowerA ∉ toks := fun member => absurd (areSymbols _ member) (by decide)
    simp [lead, notAhead, notLetter]

/-- A place with tokens ahead is within the line. -/
theorem Tokens.within {s : Nat} {ts : List Token} (tokens : Tokens line s ts) :
    s ≤ line.es := by
  cases tokens with
  | done => exact Nat.le_refl _
  | space before _ _ => exact Nat.le_of_lt before
  | single before _ _ => exact Nat.le_of_lt before
  | greater before _ _ _ => exact Nat.le_of_lt before
  | append before _ _ _ => exact Nat.le_of_lt before
  | word isWord _ => exact Nat.le_trans isWord.run.reached isWord.run.within

/-- `peek` finds what the tokens ahead begin with. -/
theorem Tokens.peek_found {s : Nat} {ts : List Token} (tokens : Tokens line s ts)
    {toks : List UInt8} (areSymbols : ∀ c ∈ toks, c ∈ symbols) :
    (peek line s toks).found = true ↔ lead ts ∈ toks := by
  rw [← tokens.skipBlanks.lead_mem_iff (scan_isRun blank line s tokens.within).longest areSymbols]
  simp [peek]

/-- `peek` leaves the tokens ahead as they are. -/
theorem Tokens.afterPeek {s : Nat} {ts : List Token} (tokens : Tokens line s ts) (toks : List UInt8) :
    Tokens line (peek line s toks).s ts := tokens.skipBlanks

/-! ### `gettoken` -/

/-- At the end `gettoken` returns zero. -/
theorem Tokens.gettoken_nil {s : Nat} (tokens : Tokens line s []) :
    (gettoken line s).ret = 0 ∧ Tokens line (gettoken line s).s [] := by
  have skipped := tokens.skipBlanks
  have noBlank := (scan_isRun blank line s tokens.within).longest
  simp only [gettoken]
  generalize scan blank line s = q at skipped noBlank ⊢
  cases skipped with
  | done =>
    have switched : switchToken line line.es = (0, line.es) := by
      simp [switchToken, line.char_es]
    rw [switched]
    exact ⟨rfl, Tokens.done.skipBlanks⟩
  | space before isBlank _ => simp [noBlank before] at isBlank

/-- At a symbol `gettoken` returns its sign and moves after it. -/
theorem Tokens.gettoken_symbol {s : Nat} {sign : UInt8} {ts : List Token}
    (tokens : Tokens line s (.symbol sign :: ts)) :
    (gettoken line s).ret = sign ∧ Tokens line (gettoken line s).s ts := by
  have skipped := tokens.skipBlanks
  have noBlank := (scan_isRun blank line s tokens.within).longest
  simp only [gettoken]
  generalize scan blank line s = q at skipped noBlank ⊢
  cases skipped with
  | space before isBlank _ => simp [noBlank before] at isBlank
  | single before single rest =>
    have switched : switchToken line q = (line.char q, q + 1) := by
      rw [switchToken, if_neg (line.char_ne_zero before)]
      exact if_pos single
    rw [switched]
    exact ⟨rfl, rest.skipBlanks⟩
  | greater before first second rest =>
    have switched : switchToken line q = (great, q + 1) := by
      simp only [switchToken, first, if_neg second]
      rfl
    rw [switched]
    exact ⟨rfl, rest.skipBlanks⟩
  | append before first second rest =>
    have switched : switchToken line q = (plus, q + 2) := by
      simp only [switchToken, first, second]
      rfl
    rw [switched]
    exact ⟨rfl, rest.skipBlanks⟩

/-- At a word `gettoken` returns `'a'`, gives the word and moves after it. -/
theorem Tokens.gettoken_word {s : Nat} {slice : Slice} {ts : List Token}
    (tokens : Tokens line s (.word slice :: ts)) :
    (gettoken line s).ret = lowerA ∧ (gettoken line s).token = slice ∧
      Tokens line (gettoken line s).s ts := by
  have skipped := tokens.skipBlanks
  have noBlank := (scan_isRun blank line s tokens.within).longest
  simp only [gettoken]
  generalize scan blank line s = q at skipped noBlank ⊢
  cases skipped with
  | space before isBlank _ => simp [noBlank before] at isBlank
  | word isWord rest =>
    have inWord := isWord.run.chars _ (Nat.le_refl _) isWord.nonempty
    have before := Nat.lt_of_lt_of_le isWord.nonempty isWord.run.within
    have noSymbol := not_symbol_of_wordChar inWord
    have switched : switchToken line slice.q = (lowerA, slice.eq) := by
      rw [switchToken, if_neg (line.char_ne_zero before),
        if_neg (fun single => noSymbol (symbol_of_single single)),
        if_neg (fun isGreat => noSymbol (by rw [isGreat]; decide)), isWord.scan]
    rw [switched]
    exact ⟨rfl, rfl, rest.skipBlanks⟩

/-! ### Facts about the tokens -/

/-- The signs of symbols are not the returns for the end and for a word. -/
theorem Tokens.sign_ne {s : Nat} {ts : List Token} (tokens : Tokens line s ts) {sign : UInt8}
    (member : Token.symbol sign ∈ ts) : sign ≠ 0 ∧ sign ≠ lowerA := by
  induction tokens with
  | done => simp at member
  | space _ _ _ ih => exact ih member
  | single before single _ ih =>
    rcases List.mem_cons.mp member with same | later
    · rw [Token.symbol.inj same]
      refine ⟨line.char_ne_zero before, fun isLetter => ?_⟩
      rw [isLetter] at single
      exact absurd single (by decide)
    · exact ih later
  | greater _ _ _ _ ih =>
    rcases List.mem_cons.mp member with same | later
    · rw [Token.symbol.inj same]
      decide
    · exact ih later
  | append _ _ _ _ ih =>
    rcases List.mem_cons.mp member with same | later
    · rw [Token.symbol.inj same]
      decide
    · exact ih later
  | word _ _ ih => exact ih (by simpa using member)

/-- The words among the tokens are words. -/
theorem Tokens.isWord {s : Nat} {ts : List Token} (tokens : Tokens line s ts) {slice : Slice}
    (member : Token.word slice ∈ ts) : IsWord line slice := by
  induction tokens with
  | done => simp at member
  | space _ _ _ ih => exact ih member
  | single _ _ _ ih => exact ih (by simpa using member)
  | greater _ _ _ _ ih => exact ih (by simpa using member)
  | append _ _ _ _ ih => exact ih (by simpa using member)
  | word isWord _ ih =>
    rcases List.mem_cons.mp member with same | later
    · rw [Token.word.inj same]
      exact isWord
    · exact ih later

/-- There are no more tokens than characters left. -/
theorem Tokens.length_le {s : Nat} {ts : List Token} (tokens : Tokens line s ts) :
    s + ts.length ≤ line.es := by
  induction tokens with
  | done => exact Nat.le_refl _
  | space _ _ _ ih => omega
  | single _ _ _ ih => simp only [List.length_cons]; omega
  | greater _ _ _ _ ih => simp only [List.length_cons]; omega
  | append _ _ _ _ ih => simp only [List.length_cons]; omega
  | word isWord _ ih =>
    have nonempty := isWord.nonempty
    simp only [List.length_cons]
    omega

/-- A place of a line determines the tokens from it on. -/
theorem Tokens.unique {s : Nat} {ts ts' : List Token} (tokens : Tokens line s ts)
    (tokens' : Tokens line s ts') : ts = ts' := by
  induction ts generalizing s ts' with
  | nil =>
    have zero := tokens.gettoken_nil.1
    cases ts' with
    | nil => rfl
    | cons token rest =>
      cases token with
      | word _ =>
        rw [tokens'.gettoken_word.1] at zero
        exact absurd zero (by decide)
      | symbol _ =>
        rw [tokens'.gettoken_symbol.1] at zero
        exact absurd zero (tokens'.sign_ne (List.mem_cons_self ..)).1
  | cons token rest ih =>
    cases token with
    | word _ =>
      obtain ⟨letter, slice, after⟩ := tokens.gettoken_word
      cases ts' with
      | nil =>
        rw [tokens'.gettoken_nil.1] at letter
        exact absurd letter (by decide)
      | cons token' rest' =>
        cases token' with
        | word _ =>
          obtain ⟨_, slice', after'⟩ := tokens'.gettoken_word
          rw [← slice, ← slice', ih after after']
        | symbol _ =>
          rw [tokens'.gettoken_symbol.1] at letter
          exact absurd letter (tokens'.sign_ne (List.mem_cons_self ..)).2
    | symbol _ =>
      obtain ⟨returned, after⟩ := tokens.gettoken_symbol
      have notEnd := tokens.sign_ne (List.mem_cons_self ..)
      cases ts' with
      | nil => exact absurd (returned.symm.trans tokens'.gettoken_nil.1) notEnd.1
      | cons token' rest' =>
        cases token' with
        | word _ => exact absurd (returned.symm.trans tokens'.gettoken_word.1) notEnd.2
        | symbol _ =>
          obtain ⟨returned', after'⟩ := tokens'.gettoken_symbol
          rw [← returned, ← returned', ih after after']

end Shell

end Xv6
