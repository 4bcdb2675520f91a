import Xv6.Verif.Matching
import Xv6.Verif.Moves

/-!
# How the input of `grep` is cut

The loop of `grep` on its buffer does to lists of lines what `lineLoop` says: a piece without a
newline is lost with what was left over before it, since `p` then still points at the buffer's
start. The lines are therefore written whatever the cut exactly if every piece ends a line and
the last line is ended.
-/

namespace Xv6

namespace Grep

/-! ## Lines -/

/-- The text of the ended lines `ls` and of the line `last` that is not ended. -/
def textOf (ls : List (List UInt8)) (last : List UInt8) : List UInt8 :=
  (ls.map (· ++ [newline])).flatten ++ last

/-- The first line of a text in front of the others. -/
theorem textOf_cons (l : List UInt8) (ls : List (List UInt8)) (last : List UInt8) :
    textOf (l :: ls) last = l ++ newline :: textOf ls last := by
  simp [textOf]

/-- The ended lines of a text and what stands behind the last newline. -/
def splitText : List UInt8 → List (List UInt8) × List UInt8
  | [] => ([], [])
  | c :: text =>
    let rest := splitText text
    if c = newline then ([] :: rest.1, rest.2)
    else
      match rest.1 with
      | [] => ([], c :: rest.2)
      | l :: ls => ((c :: l) :: ls, rest.2)

/-- A text without a newline has no ended line. -/
theorem splitText_last {last : List UInt8} (unended : newline ∉ last) :
    splitText last = ([], last) := by
  induction last with
  | nil => rfl
  | cons c last step =>
    have different : c ≠ newline := fun same => unended (same ▸ List.mem_cons_self)
    have others : newline ∉ last := fun member => unended (List.mem_cons_of_mem c member)
    simp [splitText, step others, different]

/-- The line up to a newline is the first. -/
theorem splitText_line {l : List UInt8} (text : List UInt8) (inside : newline ∉ l) :
    splitText (l ++ newline :: text) = (l :: (splitText text).1, (splitText text).2) := by
  induction l with
  | nil => simp [splitText]
  | cons c l step =>
    have different : c ≠ newline := fun same => inside (same ▸ List.mem_cons_self)
    have others : newline ∉ l := fun member => inside (List.mem_cons_of_mem c member)
    simp [splitText, step others, different]

/-- The split finds the lines that a text is made of, in front of any other text. -/
theorem splitText_textOf {ls : List (List UInt8)} (last : List UInt8)
    (ended : ∀ l ∈ ls, newline ∉ l) :
    splitText (textOf ls last) = (ls ++ (splitText last).1, (splitText last).2) := by
  induction ls with
  | nil => rfl
  | cons l ls step =>
    have others : ∀ l ∈ ls, newline ∉ l := fun l member => ended l (List.mem_cons_of_mem _ member)
    rw [textOf_cons, splitText_line _ (ended l List.mem_cons_self), step others]
    rfl

/-- Every text is made of its lines. -/
theorem splitText_spec (text : List UInt8) :
    text = textOf (splitText text).1 (splitText text).2 ∧
      (∀ l ∈ (splitText text).1, newline ∉ l) ∧ newline ∉ (splitText text).2 := by
  induction text with
  | nil => simp [splitText, textOf]
  | cons c text step =>
    obtain ⟨whole, ended, unended⟩ := step
    by_cases same : c = newline
    · have split : splitText (c :: text) = ([] :: (splitText text).1, (splitText text).2) := by
        simp [splitText, same]
      rw [split, textOf_cons, ← whole, same]
      refine ⟨rfl, ?_, unended⟩
      intro l member
      cases member with
      | head => simp
      | tail _ member => exact ended l member
    · cases lines : (splitText text).1 with
      | nil =>
        have split : splitText (c :: text) = ([], c :: (splitText text).2) := by
          simp [splitText, same, lines]
        rw [lines] at whole
        rw [split]
        refine ⟨?_, by simp, by simpa [Ne.symm same] using unended⟩
        exact congrArg (c :: ·) whole
      | cons l ls =>
        have split : splitText (c :: text) = ((c :: l) :: ls, (splitText text).2) := by
          simp [splitText, same, lines]
        rw [lines] at whole ended
        rw [split, textOf_cons]
        rw [textOf_cons] at whole
        refine ⟨congrArg (c :: ·) whole, ?_, unended⟩
        intro line member
        cases member with
        | head =>
          have first := ended l List.mem_cons_self
          simpa [Ne.symm same] using first
        | tail _ member => exact ended line (List.mem_cons_of_mem _ member)

/-- A text is split by splitting its beginning first. -/
theorem splitText_append (a b : List UInt8) :
    splitText (a ++ b) = ((splitText a).1 ++ (splitText ((splitText a).2 ++ b)).1,
      (splitText ((splitText a).2 ++ b)).2) := by
  obtain ⟨whole, ended, _⟩ := splitText_spec a
  have joined : a ++ b = textOf (splitText a).1 ((splitText a).2 ++ b) := by
    rw [textOf, ← List.append_assoc, ← textOf, ← whole]
  rw [joined, splitText_textOf _ ended]

/-- A text has an ended line exactly if it has a newline. -/
theorem splitText_nil_iff (text : List UInt8) : (splitText text).1 = [] ↔ newline ∉ text := by
  obtain ⟨whole, _, unended⟩ := splitText_spec text
  constructor
  · intro none
    rw [none] at whole
    rw [whole]
    exact unended
  · intro absent
    rw [splitText_last absent]

/-- The lines of `ls` that match, each with its newline. -/
def matchingLines (pattern : List UInt8) (ls : List (List UInt8)) : List (List UInt8) :=
  (ls.filter (match_ pattern)).map (· ++ [newline])

/-- The matching lines of two texts one after the other. -/
theorem matchingLines_append (pattern : List UInt8) (ls ls' : List (List UInt8)) :
    matchingLines pattern (ls ++ ls') = matchingLines pattern ls ++ matchingLines pattern ls' := by
  simp [matchingLines]

/-! ## Strings in the buffer -/

/-- The bytes of `text` stand at `p`. -/
def HasText (buf : Bytes) (p : Nat) : List UInt8 → Prop
  | [] => True
  | c :: text => buf p = c ∧ HasText buf (p + 1) text

/-- Two texts one after the other. -/
theorem hasText_append (buf : Bytes) (p : Nat) (a b : List UInt8) :
    HasText buf p (a ++ b) ↔ HasText buf p a ∧ HasText buf (p + a.length) b := by
  induction a generalizing p with
  | nil => simp [HasText]
  | cons c a step =>
    rw [List.cons_append, HasText, HasText, step, List.length_cons, and_assoc,
      show p + (a.length + 1) = p + 1 + a.length by omega]

/-- A buffer with the same bytes in the range has the same text. -/
theorem HasText.congr {buf buf' : Bytes} {p : Nat} {text : List UInt8} (has : HasText buf p text)
    (same : ∀ a, p ≤ a → a < p + text.length → buf' a = buf a) : HasText buf' p text := by
  induction text generalizing p with
  | nil => trivial
  | cons c text step =>
    rw [List.length_cons] at same
    constructor
    · rw [same p (by omega) (by omega)]
      exact has.1
    · apply step has.2
      intro a lower upper
      exact same a (by omega) (by omega)

/-- A byte of a text. -/
theorem HasText.byte {buf : Bytes} {p i : Nat} {text : List UInt8} (has : HasText buf p text)
    (inside : i < text.length) : buf (p + i) = text[i] := by
  induction text generalizing p i with
  | nil => cases inside
  | cons c text step =>
    cases i with
    | zero => exact has.1
    | succ i =>
      rw [show p + (i + 1) = p + 1 + i by omega]
      exact step has.2 (Nat.lt_of_succ_lt_succ inside)

/-- A text is there if each of its bytes is. -/
theorem hasText_of_bytes {buf : Bytes} {p : Nat} {text : List UInt8}
    (bytes : ∀ i (inside : i < text.length), buf (p + i) = text[i]) : HasText buf p text := by
  induction text generalizing p with
  | nil => trivial
  | cons c text step =>
    constructor
    · exact bytes 0 (Nat.succ_pos _)
    · apply step
      intro i inside
      have next := bytes (i + 1) (Nat.succ_lt_succ inside)
      rw [show p + (i + 1) = p + 1 + i by omega] at next
      exact next

/-- `write` gets the text that stands there. -/
theorem HasText.bytesAt {buf : Bytes} {p : Nat} {text : List UInt8} (has : HasText buf p text) :
    bytesAt buf p text.length = text := by
  apply List.ext_getElem
  · simp [Grep.bytesAt]
  · intro i _ inside
    simp [Grep.bytesAt, has.byte inside]

/-- What a read returned stands where it was put. -/
theorem fill_hasText (buf : Bytes) (p : Nat) (piece : List UInt8) :
    HasText (fill buf p piece) p piece := by
  apply hasText_of_bytes
  intro i inside
  simp [fill, inside]

/-- The string up to the first NUL. -/
theorem HasText.stringAt {buf : Bytes} {p : Nat} {text : List UInt8} {fuel : Nat}
    (has : HasText buf p (text ++ [0])) (nonzero : 0 ∉ text) (fuelLeft : text.length < fuel) :
    stringAt buf p fuel = text := by
  induction text generalizing p fuel with
  | nil =>
    cases fuel with
    | zero => cases fuelLeft
    | succ fuel => simp [Grep.stringAt, has.1]
  | cons c text step =>
    cases fuel with
    | zero => cases fuelLeft
    | succ fuel =>
      have first : c ≠ 0 := fun zero => nonzero (zero ▸ List.mem_cons_self)
      have others : (0 : UInt8) ∉ text := fun member => nonzero (List.mem_cons_of_mem c member)
      rw [Grep.stringAt, has.1, if_neg first, step has.2 others (Nat.lt_of_succ_lt_succ fuelLeft)]

/-- `strchr` finds a character behind a text without it. -/
theorem HasText.strchr_found {buf : Bytes} {p : Nat} {text : List UInt8} {c : UInt8} {fuel : Nat}
    (has : HasText buf p (text ++ [c])) (nonzero : 0 ∉ text) (character : c ≠ 0)
    (absent : c ∉ text) (fuelLeft : text.length < fuel) :
    strchr buf p c fuel = some (p + text.length) := by
  induction text generalizing p fuel with
  | nil =>
    cases fuel with
    | zero => cases fuelLeft
    | succ fuel => simp [strchr, has.1, character]
  | cons d text step =>
    cases fuel with
    | zero => cases fuelLeft
    | succ fuel =>
      have first : d ≠ 0 := fun zero => nonzero (zero ▸ List.mem_cons_self)
      have other : d ≠ c := fun same => absent (same ▸ List.mem_cons_self)
      rw [strchr, has.1, if_neg first, if_neg other,
        step has.2 (fun member => nonzero (List.mem_cons_of_mem d member))
          (fun member => absent (List.mem_cons_of_mem d member))
          (Nat.lt_of_succ_lt_succ fuelLeft), List.length_cons]
      congr 1
      omega

/-- `strchr` finds nothing in a string without the character. -/
theorem HasText.strchr_none {buf : Bytes} {p : Nat} {text : List UInt8} {c : UInt8} {fuel : Nat}
    (has : HasText buf p (text ++ [0])) (nonzero : 0 ∉ text) (absent : c ∉ text) :
    strchr buf p c fuel = none := by
  induction text generalizing p fuel with
  | nil =>
    cases fuel with
    | zero => rfl
    | succ fuel => simp [strchr, has.1]
  | cons d text step =>
    cases fuel with
    | zero => rfl
    | succ fuel =>
      have first : d ≠ 0 := fun zero => nonzero (zero ▸ List.mem_cons_self)
      have other : d ≠ c := fun same => absent (same ▸ List.mem_cons_self)
      rw [strchr, has.1, if_neg first, if_neg other]
      exact step has.2 (fun member => nonzero (List.mem_cons_of_mem d member))
        (fun member => absent (List.mem_cons_of_mem d member))

/-! ## Inner loop -/

/-- The ended lines stand in front of the last one. -/
theorem textOf_last (ls : List (List UInt8)) (last : List UInt8) :
    textOf ls last = textOf ls [] ++ last := by
  simp [textOf]

/-- A byte stored behind a text completes it. -/
theorem HasText.terminate {buf : Bytes} {p : Nat} {text : List UInt8} (has : HasText buf p text)
    (c : UInt8) : HasText (buf.store (p + text.length) c) p (text ++ [c]) := by
  rw [hasText_append]
  constructor
  · apply has.congr
    intro a _ upper
    exact Bytes.store_other _ _ (by omega)
  · exact ⟨Bytes.store_same _ _ _, trivial⟩

/-- A byte stored in front of a text leaves it. -/
theorem HasText.store_before {buf : Bytes} {p q : Nat} {text : List UInt8}
    (has : HasText buf p text) (c : UInt8) (outside : q < p) : HasText (buf.store q c) p text := by
  apply has.congr
  intro a lower _
  exact Bytes.store_other _ _ (by omega)

/-- The inner loop writes the lines that match, and leaves what stands behind the last newline. -/
theorem grepLines_spec (pattern : List UInt8) {ls : List (List UInt8)} {last : List UInt8}
    {buf : Bytes} {p fuel : Nat} (has : HasText buf p (textOf ls last ++ [0]))
    (nonzero : 0 ∉ textOf ls last) (ended : ∀ l ∈ ls, newline ∉ l) (unended : newline ∉ last)
    (fits : (textOf ls last).length < BUFSIZE) (fuelLeft : ls.length < fuel) :
    ∃ buf', grepLines pattern buf p fuel =
        (buf', p + (textOf ls []).length, matchingLines pattern ls) ∧
      HasText buf' (p + (textOf ls []).length) last := by
  induction ls generalizing buf p fuel with
  | nil =>
    cases fuel with
    | zero => cases fuelLeft
    | succ fuel =>
      have none : strchr buf p newline BUFSIZE = none := has.strchr_none nonzero unended
      rw [grepLines, none]
      exact ⟨buf, rfl, ((hasText_append _ _ _ _).mp has).1⟩
  | cons l ls step =>
    cases fuel with
    | zero => cases fuelLeft
    | succ fuel =>
      rw [textOf_cons] at has nonzero fits
      rw [List.length_append, List.length_cons] at fits
      rw [show l ++ newline :: textOf ls last ++ [0] = (l ++ [newline]) ++ (textOf ls last ++ [0])
        by simp, hasText_append, List.length_append, List.length_singleton] at has
      obtain ⟨line, rest⟩ := has
      have inside : newline ∉ l := ended l List.mem_cons_self
      have others : ∀ l ∈ ls, newline ∉ l := fun l member =>
        ended l (List.mem_cons_of_mem _ member)
      have lineNonzero : (0 : UInt8) ∉ l := fun member =>
        nonzero (List.mem_append_left _ member)
      have restNonzero : (0 : UInt8) ∉ textOf ls last := fun member =>
        nonzero (List.mem_append_right _ (List.mem_cons_of_mem _ member))
      have found := line.strchr_found lineNonzero (by decide) inside
        (show l.length < BUFSIZE by omega)
      have place : p + (textOf (l :: ls) []).length =
          p + l.length + 1 + (textOf ls []).length := by
        rw [textOf_cons, List.length_append, List.length_cons]
        omega
      have terminated := ((hasText_append _ _ _ _).mp line).1.terminate 0
      have string := terminated.stringAt lineNonzero (show l.length < BUFSIZE by omega)
      have behind := rest.store_before (q := p + l.length) 0 (by omega)
      rw [grepLines, found]
      dsimp only
      rw [string, place]
      by_cases matched : match_ pattern l = true
      · rw [if_pos matched]
        have restored := ((hasText_append _ _ _ _).mp terminated).1.terminate newline
        have behind' := behind.store_before (q := p + l.length) newline (by omega)
        obtain ⟨buf', run, left⟩ := step behind' restNonzero others (by omega)
          (Nat.lt_of_succ_lt_succ fuelLeft)
        have written := restored.bytesAt
        rw [List.length_append, List.length_singleton] at written
        refine ⟨buf', ?_, left⟩
        rw [show p + l.length + 1 = p + (l.length + 1) by omega, run, Nat.add_sub_cancel_left,
          written]
        simp [matchingLines, matched]
      · rw [if_neg matched]
        obtain ⟨buf', run, left⟩ := step behind restNonzero others (by omega)
          (Nat.lt_of_succ_lt_succ fuelLeft)
        refine ⟨buf', ?_, left⟩
        rw [show p + l.length + 1 = p + (l.length + 1) by omega, run]
        simp [matchingLines, matched]

/-! ## Outer loop -/

/-- The loop on lists: `carry` is what was left over before the next piece. -/
def lineLoop (pattern carry : List UInt8) : List (List UInt8) → Option (List (List UInt8))
  | [] => some []
  | piece :: pieces =>
    if BUFSIZE - carry.length - 1 = 0 then some []
    else if piece = [] ∨ BUFSIZE - carry.length - 1 < piece.length then none
    else
      let split := splitText (carry ++ piece)
      let next := if newline ∈ piece then split.2 else []
      (lineLoop pattern next pieces).map fun writes => matchingLines pattern split.1 ++ writes

/-- Every ended line takes a byte at least. -/
theorem length_le_textOf (ls : List (List UInt8)) (last : List UInt8) :
    ls.length ≤ (textOf ls last).length := by
  induction ls with
  | nil => exact Nat.zero_le _
  | cons l ls step =>
    rw [textOf_cons, List.length_append, List.length_cons, List.length_cons]
    omega

/-- Moving the rest of the text to the buffer's start. -/
theorem HasText.memmove {buf : Bytes} {p : Nat} {text : List UInt8} (has : HasText buf p text)
    (fits : p + text.length ≤ 2 ^ 32) :
    HasText (Ulib.memmove buf 0 p (text.length : Nat)).1 0 text := by
  apply hasText_of_bytes
  intro i inside
  rw [Ulib.memmove, Int.toNat_natCast]
  dsimp only
  rw [copyUp_below buf (by omega) fits (Nat.zero_le p) inside]
  exact has.byte inside

/-- The loop of `grep` does what the loop on lists does. -/
theorem grepLoop_eq_lineLoop (pattern : List UInt8) {buf : Bytes} {carry : List UInt8}
    {pieces : List (List UInt8)} (has : HasText buf 0 carry) (unended : newline ∉ carry)
    (nonzero : 0 ∉ carry ++ pieces.flatten) (fits : carry.length < BUFSIZE) :
    grepLoop pattern buf carry.length pieces = lineLoop pattern carry pieces := by
  induction pieces generalizing buf carry with
  | nil => rfl
  | cons piece pieces step =>
    rw [grepLoop, lineLoop]
    dsimp only
    by_cases full : BUFSIZE - carry.length - 1 = 0
    · rw [if_pos full, if_pos full]
    · rw [if_neg full, if_neg full]
      by_cases bad : piece = [] ∨ BUFSIZE - carry.length - 1 < piece.length
      · rw [if_pos bad, if_pos bad]
      · rw [if_neg bad, if_neg bad]
        rw [List.flatten_cons, ← List.append_assoc, List.mem_append, not_or] at nonzero
        obtain ⟨whole, ended, last⟩ := splitText_spec (carry ++ piece)
        have noLines := splitText_nil_iff (carry ++ piece)
        generalize splitText (carry ++ piece) = split at whole ended last noLines ⊢
        have lengths := congrArg List.length whole
        rw [textOf_last, List.length_append, List.length_append] at lengths
        have read : HasText ((fill buf carry.length piece).store (carry.length + piece.length) 0)
            0 (textOf split.1 split.2 ++ [0]) := by
          have filled : HasText (fill buf carry.length piece) 0 (carry ++ piece) := by
            rw [hasText_append, Nat.zero_add]
            refine ⟨has.congr ?_, fill_hasText _ _ _⟩
            intro a _ upper
            exact if_neg (by omega)
          have terminated := filled.terminate 0
          rw [Nat.zero_add, List.length_append] at terminated
          rw [← whole]
          exact terminated
        have textNonzero : (0 : UInt8) ∉ textOf split.1 split.2 := whole ▸ nonzero.1
        have textFits : (textOf split.1 split.2).length < BUFSIZE := by
          rw [← whole, List.length_append]
          omega
        have lineCount := length_le_textOf split.1 split.2
        obtain ⟨buf', run, left⟩ := grepLines_spec pattern read textNonzero ended last
          textFits (show split.1.length < BUFSIZE by omega)
        rw [Nat.zero_add] at run left
        rw [run]
        dsimp only
        by_cases brought : newline ∈ piece
        · have some : split.1 ≠ [] := by
            intro none
            exact noLines.mp none (List.mem_append_right _ brought)
          have moved : (textOf split.1 []).length ≠ 0 := by
            have positive := length_le_textOf split.1 []
            have counted := List.length_pos_iff.mpr some
            omega
          rw [if_pos brought, if_neg moved, if_pos (by omega)]
          have size : carry.length + piece.length - (textOf split.1 []).length = split.2.length := by
            omega
          have small : BUFSIZE = 1024 := rfl
          have nextHas := left.memmove (by omega)
          have nextNonzero : (0 : UInt8) ∉ split.2 ++ pieces.flatten := by
            rw [List.mem_append, not_or]
            refine ⟨fun member => textNonzero ?_, nonzero.2⟩
            rw [textOf_last]
            exact List.mem_append_right _ member
          rw [size, step nextHas last nextNonzero (by omega)]
        · have none : split.1 = [] := by
            rw [noLines, List.mem_append, not_or]
            exact ⟨unended, brought⟩
          have start : (textOf split.1 []).length = 0 := by
            rw [none]
            rfl
          rw [if_neg brought, if_pos start, if_neg (Nat.lt_irrefl 0)]
          have nextLoop := step (show HasText buf' 0 [] from trivial) (by simp)
            (by simpa using nonzero.2) (by decide)
          rw [List.length_nil] at nextLoop
          rw [nextLoop]

/-! ## Short lines -/

/-- Every part of the text without a newline is shorter than 1023 bytes. -/
def ShortLines (text : List UInt8) : Prop :=
  ∀ part, part <:+: text → newline ∉ part → part.length < 1023

/-- The lines of a part are short. -/
theorem ShortLines.part {text part : List UInt8} (short : ShortLines text)
    (inside : part <:+: text) : ShortLines part :=
  fun line within => short line (within.trans inside)

/-- A part without a newline stands before the newline or behind it. -/
theorem infix_of_newline {part l text : List UInt8} (within : part <:+: l ++ newline :: text)
    (unended : newline ∉ part) : part <:+: l ∨ part <:+: text := by
  obtain ⟨s, t, joined⟩ := within
  rcases List.append_eq_append_iff.mp joined with ⟨a, before, _⟩ | ⟨a, before, behind⟩
  · left
    exact ⟨s, a, before.symm⟩
  · cases a with
    | nil =>
      left
      rw [List.append_nil] at before
      exact ⟨s, [], by rw [List.append_nil, before]⟩
    | cons c a =>
      obtain ⟨same, rest⟩ := List.cons.inj behind
      rw [← same] at before
      rcases List.append_eq_append_iff.mp before with ⟨b, _, crossing⟩ | ⟨b, _, crossing⟩
      · exact absurd (crossing ▸ List.mem_append_right _ List.mem_cons_self) unended
      · cases b with
        | nil =>
          rw [List.nil_append] at crossing
          exact absurd (crossing ▸ List.mem_cons_self) unended
        | cons d b =>
          right
          have behindPart := (List.cons.inj crossing).2
          exact ⟨b, t, by rw [rest, behindPart]; rfl⟩

/-- A text of short lines. -/
theorem shortLines_textOf {ls : List (List UInt8)} {last : List UInt8}
    (short : ∀ l ∈ last :: ls, l.length < 1023) : ShortLines (textOf ls last) := by
  induction ls with
  | nil =>
    intro part within _
    have shorter := within.length_le
    have bound := short last List.mem_cons_self
    change part.length ≤ last.length at shorter
    omega
  | cons l ls step =>
    intro part within unended
    rw [textOf_cons] at within
    rcases infix_of_newline within unended with inLine | inRest
    · have shorter := inLine.length_le
      have bound := short l (by simp)
      omega
    · apply step _ part inRest unended
      intro line member
      apply short line
      rcases List.mem_cons.mp member with same | other
      · exact same ▸ List.mem_cons_self
      · exact List.mem_cons_of_mem _ (List.mem_cons_of_mem _ other)

/-! ## Cuts that keep every line -/

/-- What is left over behind the last newline is a part of the text. -/
theorem splitText_suffix (text : List UInt8) : (splitText text).2 <:+ text := by
  obtain ⟨whole, _⟩ := splitText_spec text
  rw [textOf_last] at whole
  exact ⟨_, whole.symm⟩

/-- If every piece ends a line, the matching ones of all ended lines are written. -/
theorem lineLoop_ended {pattern carry : List UInt8} {pieces : List (List UInt8)}
    (unended : newline ∉ carry) (short : ShortLines (carry ++ pieces.flatten))
    (served : (lineLoop pattern carry pieces).isSome = true)
    (brought : ∀ piece ∈ pieces, newline ∈ piece) :
    lineLoop pattern carry pieces =
      some (matchingLines pattern (splitText (carry ++ pieces.flatten)).1) := by
  induction pieces generalizing carry with
  | nil =>
    rw [List.flatten_nil, List.append_nil, splitText_last unended]
    rfl
  | cons piece pieces step =>
    have small := short carry ⟨[], (piece :: pieces).flatten, rfl⟩ unended
    have room : ¬BUFSIZE - carry.length - 1 = 0 := by
      have size : BUFSIZE = 1024 := rfl
      omega
    rw [lineLoop, if_neg room] at served ⊢
    by_cases bad : piece = [] ∨ BUFSIZE - carry.length - 1 < piece.length
    · rw [if_pos bad] at served
      cases served
    · rw [if_neg bad] at served ⊢
      dsimp only at served ⊢
      rw [if_pos (brought piece List.mem_cons_self)] at served ⊢
      rw [Option.isSome_map] at served
      obtain ⟨_, _, last⟩ := splitText_spec (carry ++ piece)
      have suffix := splitText_suffix (carry ++ piece)
      have split := splitText_append (carry ++ piece) pieces.flatten
      have restShort : ShortLines ((splitText (carry ++ piece)).2 ++ pieces.flatten) := by
        apply short.part
        obtain ⟨front, whole⟩ := suffix
        refine ⟨front, [], ?_⟩
        rw [List.append_nil, ← List.append_assoc, whole, List.flatten_cons, List.append_assoc]
      have rest := step last restShort served fun next member =>
        brought next (List.mem_cons_of_mem _ member)
      rw [rest, List.flatten_cons, ← List.append_assoc, split, matchingLines_append]
      rfl

/-! ## Cuts that lose a line -/

/-- The empty pattern matches every text. -/
theorem match_empty (text : List UInt8) : match_ [] text = true := by
  have none : ([] : List UInt8).head? ≠ some caret := by simp
  rw [match_, if_neg none]
  cases text <;> simp [matchAnywhere, matchhere]

/-- The empty pattern selects all lines. -/
theorem matchingLines_empty (ls : List (List UInt8)) :
    (matchingLines [] ls).flatten = textOf ls [] := by
  have all : ls.filter (match_ []) = ls := by
    rw [List.filter_eq_self]
    intro l _
    exact match_empty l
  rw [matchingLines, all, textOf, List.append_nil]

/-- If the empty pattern writes as much as was read, every piece ends a line and the last line is
ended. -/
theorem ended_of_length {carry : List UInt8} {pieces writes : List (List UInt8)}
    (unended : newline ∉ carry) (written : lineLoop [] carry pieces = some writes) :
    writes.flatten.length ≤ carry.length + pieces.flatten.length ∧
      (writes.flatten.length = carry.length + pieces.flatten.length →
        (∀ piece ∈ pieces, newline ∈ piece) ∧ (splitText (carry ++ pieces.flatten)).2 = []) := by
  induction pieces generalizing carry writes with
  | nil =>
    cases written
    constructor
    · exact Nat.zero_le _
    · intro all
      have empty : carry = [] := List.length_eq_zero_iff.mp (by simpa using all.symm)
      rw [empty]
      simp [splitText]
  | cons piece pieces step =>
    rw [lineLoop] at written
    by_cases full : BUFSIZE - carry.length - 1 = 0
    · rw [if_pos full] at written
      cases written
      constructor
      · exact Nat.zero_le _
      · intro all
        have size : BUFSIZE = 1024 := rfl
        rw [List.flatten_nil, List.length_nil] at all
        omega
    · rw [if_neg full] at written
      by_cases bad : piece = [] ∨ BUFSIZE - carry.length - 1 < piece.length
      · rw [if_pos bad] at written
        cases written
      · rw [if_neg bad] at written
        dsimp only at written
        rw [Option.map_eq_some_iff] at written
        obtain ⟨rest, loop, joined⟩ := written
        obtain ⟨whole, _, last⟩ := splitText_spec (carry ++ piece)
        have lengths := congrArg List.length whole
        rw [textOf_last, List.length_append, List.length_append] at lengths
        have total : writes.flatten.length =
            (textOf (splitText (carry ++ piece)).1 []).length + rest.flatten.length := by
          rw [← joined, List.flatten_append, List.length_append, matchingLines_empty]
        rw [List.flatten_cons, List.length_append]
        by_cases brought : newline ∈ piece
        · rw [if_pos brought] at loop
          obtain ⟨bound, ended⟩ := step last loop
          constructor
          · omega
          · intro all
            obtain ⟨others, noLast⟩ := ended (by omega)
            constructor
            · intro next member
              rcases List.mem_cons.mp member with same | other
              · exact same ▸ brought
              · exact others next other
            · rw [← List.append_assoc, splitText_append]
              exact noLast
        · rw [if_neg brought] at loop
          -- Nothing is written of this piece, and what was left over before it is gone as well.
          obtain ⟨bound, _⟩ := step (by simp) loop
          have none : (splitText (carry ++ piece)).1 = [] := by
            rw [splitText_nil_iff, List.mem_append, not_or]
            exact ⟨unended, brought⟩
          have nothing : (textOf (splitText (carry ++ piece)).1 []).length = 0 := by
            rw [none]
            rfl
          have positive : 0 < piece.length := by
            apply List.length_pos_iff.mpr
            intro empty
            exact bad (Or.inl empty)
          rw [List.length_nil] at bound
          constructor
          · omega
          · intro all
            omega

/-! ## The program -/

/-- The matching lines of a text: the ended ones with their newlines, and the last one. -/
def matchingText (pattern : List UInt8) (ls : List (List UInt8)) (last : List UInt8) :
    List UInt8 :=
  textOf (ls.filter (match_ pattern)) (if match_ pattern last then last else [])

/-- `grep` on any buffer does what the loop on lists does. -/
theorem grep_eq_lineLoop (pattern : List UInt8) (buf : Bytes) {pieces : List (List UInt8)}
    (nulFree : 0 ∉ pieces.flatten) : grep pattern buf pieces = lineLoop pattern [] pieces :=
  grepLoop_eq_lineLoop pattern (show HasText buf 0 [] from trivial) (by simp) nulFree (by decide)

/-- On input of short lines `grep` writes, for every pattern, the lines that match exactly if
every piece that a read returned has a newline in it and the last line is ended. -/
theorem grep_writes_matching_lines_iff (buf : Bytes) (ls : List (List UInt8)) (last : List UInt8)
    (pieces : List (List UInt8)) (ended : ∀ l ∈ ls, newline ∉ l) (unended : newline ∉ last)
    (nulFree : 0 ∉ textOf ls last) (short : ∀ l ∈ last :: ls, l.length < 1023)
    (stream : pieces.flatten = textOf ls last)
    (served : ∀ pattern, (grep pattern buf pieces).isSome = true) :
    (∀ pattern, (grep pattern buf pieces).map List.flatten =
        some (matchingText pattern ls last)) ↔
      (∀ piece ∈ pieces, newline ∈ piece) ∧ last = [] := by
  have onLists : ∀ pattern, grep pattern buf pieces = lineLoop pattern [] pieces := by
    intro pattern
    apply grep_eq_lineLoop
    rw [stream]
    exact nulFree
  have split : splitText pieces.flatten = (ls, last) := by
    rw [stream, splitText_textOf last ended, splitText_last unended, List.append_nil]
  constructor
  · intro always
    have everything := always []
    rw [onLists] at everything
    obtain ⟨writes, loop, text⟩ := Option.map_eq_some_iff.mp everything
    have all : matchingText [] ls last = textOf ls last := by
      have lines : ls.filter (match_ []) = ls := by
        rw [List.filter_eq_self]
        intro l _
        exact match_empty l
      rw [matchingText, lines, match_empty, if_pos rfl]
    obtain ⟨_, complete⟩ := ended_of_length (by simp) loop
    have counted : writes.flatten.length = ([] : List UInt8).length + pieces.flatten.length := by
      rw [text, all, stream]
      simp
    obtain ⟨brought, none⟩ := complete counted
    rw [List.nil_append, split] at none
    exact ⟨brought, none⟩
  · rintro ⟨brought, none⟩ pattern
    have answered := served pattern
    rw [onLists] at answered ⊢
    have linesShort : ShortLines ([] ++ pieces.flatten) := by
      rw [List.nil_append, stream]
      exact shortLines_textOf short
    rw [lineLoop_ended (by simp) linesShort answered brought, List.nil_append, split, none]
    simp [matchingText, matchingLines, textOf]

/-- The equivalence at three lines of which the second is read in two pieces. -/
theorem grep_writes_matching_lines_iff_whole :
    (∀ pattern, (grep pattern (fun _ => 0) [[97, newline, 98], [99, newline, 100, newline]]).map List.flatten =
        some (matchingText pattern [[97], [98, 99], [100]] [])) ↔
      (∀ piece ∈ [[97, newline, 98], [99, newline, 100, newline]], newline ∈ piece) ∧ ([] : List UInt8) = [] := by
  apply grep_writes_matching_lines_iff (fun _ => 0) [[97], [98, 99], [100]] []
    [[97, newline, 98], [99, newline, 100, newline]] (by decide) (by decide) (by decide) (by simp) (by decide)
  intro pattern
  rw [grep_eq_lineLoop pattern _ (by decide)]
  simp [lineLoop, BUFSIZE, splitText, newline]

/-- A line whose newline comes with the next read is lost. -/
theorem grep_loses_line_cut_before_newline :
    ¬ ∀ (pattern : List UInt8) (buf : Bytes) (ls : List (List UInt8)) (last : List UInt8)
      (pieces : List (List UInt8)), (∀ l ∈ ls, newline ∉ l) → newline ∉ last →
      0 ∉ textOf ls last → (∀ l ∈ last :: ls, l.length < 1023) →
      pieces.flatten = textOf ls last → (grep pattern buf pieces).isSome = true →
      (grep pattern buf pieces).map List.flatten = some (matchingText pattern ls last) := by
  intro always
  have run : grep [97] (fun _ => 0) [[97], [newline]] = some [] := by
    rw [grep_eq_lineLoop _ _ (by decide)]
    simp [lineLoop, splitText, matchingLines, match_, matchAnywhere, matchhere, BUFSIZE, newline,
      caret, dollar]
  have written := always [97] (fun _ => 0) [[97]] [] [[97], [newline]] (by decide) (by decide)
    (by decide) (by simp) (by decide) (by rw [run]; rfl)
  rw [run] at written
  simp [matchingText, textOf, match_, matchAnywhere, matchhere, newline, caret, dollar] at written

end Grep

end Xv6
