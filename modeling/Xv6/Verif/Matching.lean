import Xv6.Grep

/-!
# The language of `grep` patterns

A pattern stands for a language of strings, which the rules below give without reference to the
matcher: they read the pattern from the left, one item at a time. The matcher finds a string of
the language in a text if there is one, and only then.
-/

namespace Xv6

namespace Grep

/-! ## Language -/

/-- Character `c` of a pattern stands for character `t` of a text. -/
def Stands (c t : UInt8) : Prop := c = period ∨ c = t

/-- String `sub`, followed by the text `after`, is in the language of the pattern. -/
inductive InLanguage : List UInt8 → List UInt8 → List UInt8 → Prop
  /-- The empty pattern has the empty string. -/
  | empty (after : List UInt8) : InLanguage [] [] after
  /-- A character with a star stands for any number of repetitions. -/
  | starred (c : UInt8) (re reps sub after : List UInt8) :
    (∀ t ∈ reps, Stands c t) → InLanguage re sub after →
      InLanguage (c :: star :: re) (reps ++ sub) after
  /-- A final dollar stands for the end of the text. -/
  | ending : InLanguage [dollar] [] []
  /-- Any other character stands for one character. -/
  | single (c t : UInt8) (re sub after : List UInt8) :
    re.head? ≠ some star → ¬(c = dollar ∧ re = []) → Stands c t → InLanguage re sub after →
      InLanguage (c :: re) (t :: sub) after

/-- The text begins with a string of the pattern's language. -/
def Begins (re text : List UInt8) : Prop :=
  ∃ sub after, text = sub ++ after ∧ InLanguage re sub after

/-! ## One item of a pattern -/

/-- The empty pattern begins every text. -/
theorem begins_empty (text : List UInt8) : Begins [] text :=
  ⟨[], text, rfl, InLanguage.empty text⟩

/-- A starred character begins a text if the rest of the pattern does, or if it stands for the
first character and begins what follows. -/
theorem begins_starred_iff (c : UInt8) (re text : List UInt8) :
    Begins (c :: star :: re) text ↔
      Begins re text ∨
        ∃ t rest, text = t :: rest ∧ Stands c t ∧ Begins (c :: star :: re) rest := by
  constructor
  · rintro ⟨sub, after, split, inside⟩
    cases inside with
    | starred _ _ reps sub after stands inside =>
      cases reps with
      | nil => exact Or.inl ⟨sub, after, split, inside⟩
      | cons t reps =>
        right
        have first : Stands c t := stands t List.mem_cons_self
        have others : ∀ t ∈ reps, Stands c t := by
          intro t member
          exact stands t (List.mem_cons_of_mem _ member)
        refine ⟨t, reps ++ sub ++ after, split, first, reps ++ sub, after, rfl, ?_⟩
        exact InLanguage.starred c re reps sub after others inside
    | single _ t _ sub after unstarred _ _ _ =>
      exact absurd rfl unstarred
  · rintro (⟨sub, after, split, inside⟩ | ⟨t, rest, split, stands, sub, after, rest_eq, inside⟩)
    · exact ⟨[] ++ sub, after, split, InLanguage.starred c re [] sub after (by simp) inside⟩
    · cases inside with
      | starred _ _ reps sub after others inside =>
        refine ⟨(t :: reps) ++ sub, after, ?_, ?_⟩
        · rw [split, rest_eq]
          rfl
        · apply InLanguage.starred c re (t :: reps) sub after
          · intro u member
            cases member with
            | head => exact stands
            | tail _ member => exact others u member
          · exact inside
      | single _ u _ sub after unstarred _ _ _ =>
        exact absurd rfl unstarred

/-- A final dollar begins the empty text alone. -/
theorem begins_dollar_iff (text : List UInt8) : Begins [dollar] text ↔ text = [] := by
  constructor
  · rintro ⟨sub, after, split, inside⟩
    cases inside with
    | ending => exact split
    | single _ t _ sub after _ notEnding _ _ => exact absurd ⟨rfl, rfl⟩ notEnding
  · intro atEnd
    exact ⟨[], [], atEnd, InLanguage.ending⟩

/-- Any other character begins a text if it stands for the first character and the rest of the
pattern begins what follows. -/
theorem begins_single_iff {c : UInt8} {re : List UInt8} (text : List UInt8)
    (unstarred : re.head? ≠ some star) (notEnding : ¬(c = dollar ∧ re = [])) :
    Begins (c :: re) text ↔ ∃ t rest, text = t :: rest ∧ Stands c t ∧ Begins re rest := by
  constructor
  · rintro ⟨sub, after, split, inside⟩
    cases inside with
    | starred _ re reps sub after _ _ => exact absurd rfl unstarred
    | ending => exact absurd ⟨rfl, rfl⟩ notEnding
    | single _ t _ sub after _ _ stands inside =>
      exact ⟨t, sub ++ after, split, stands, sub, after, rfl, inside⟩
  · rintro ⟨t, rest, split, stands, sub, after, rest_eq, inside⟩
    refine ⟨t :: sub, after, ?_, ?_⟩
    · rw [split, rest_eq]
      rfl
    · exact InLanguage.single c t re sub after unstarred notEnding stands inside

/-! ## Matcher -/

/-- `matchstar` is right if `matchhere` is right for the rest of the pattern. -/
theorem matchstar_iff {c : UInt8} {re : List UInt8}
    (here : ∀ text, matchhere re text = true ↔ Begins re text) (text : List UInt8) :
    matchstar c re text = true ↔ Begins (c :: star :: re) text := by
  induction text with
  | nil =>
    rw [matchstar, begins_starred_iff, ← here]
    simp
  | cons t text step =>
    rw [matchstar, begins_starred_iff, ← here]
    by_cases found : matchhere re (t :: text) = true
    · simp [found]
    · rw [if_neg found]
      by_cases stands : t = c ∨ c = period
      · have reversed : Stands c t := by
          rcases stands with same | any
          · exact Or.inr same.symm
          · exact Or.inl any
        simp [found, stands, step, reversed]
      · have reversed : ¬Stands c t := by
          rintro (any | same)
          · exact stands (Or.inr any)
          · exact stands (Or.inl same.symm)
        simp [found, stands, reversed]

/-- `matchhere` finds a string of the language at the beginning of the text, and only then. -/
theorem matchhere_iff (re text : List UInt8) : matchhere re text = true ↔ Begins re text := by
  -- A starred item drops two characters of the pattern, so the induction is on its length.
  induction size : re.length using Nat.strong_induction_on generalizing re text with
  | h n shorter =>
    cases re with
    | nil =>
      rw [matchhere]
      exact ⟨fun _ => begins_empty text, fun _ => rfl⟩
    | cons c re =>
      rw [matchhere.eq_def]
      dsimp only
      by_cases starred : re.head? = some star
      · rw [if_pos starred]
        cases re with
        | nil => cases starred
        | cons s re =>
          have isStar : s = star := Option.some.inj starred
          rw [isStar, List.tail_cons]
          apply matchstar_iff
          intro text
          apply shorter re.length _ re text rfl
          rw [← size, List.length_cons, List.length_cons]
          omega
      · rw [if_neg starred]
        by_cases final : c = dollar ∧ re = []
        · rw [if_pos final, final.1, final.2, begins_dollar_iff]
          exact List.isEmpty_iff
        · rw [if_neg final, begins_single_iff text starred final]
          have next : ∀ text, matchhere re text = true ↔ Begins re text := by
            intro text
            apply shorter re.length _ re text rfl
            rw [← size, List.length_cons]
            omega
          cases text with
          | nil => simp
          | cons t text =>
            simp only [List.cons.injEq]
            by_cases stands : c = period ∨ c = t
            · simp [stands, next, Stands]
            · simp [stands, Stands]

/-- The loop of `match` tries every suffix. -/
theorem matchAnywhere_iff (re text : List UInt8) :
    matchAnywhere re text = true ↔ ∃ before suffix, text = before ++ suffix ∧ Begins re suffix := by
  induction text with
  | nil =>
    rw [matchAnywhere, matchhere_iff]
    simp
  | cons t text step =>
    rw [matchAnywhere]
    by_cases found : matchhere re (t :: text) = true
    · rw [if_pos found]
      have begins := (matchhere_iff re _).mp found
      exact ⟨fun _ => ⟨[], t :: text, rfl, begins⟩, fun _ => rfl⟩
    · rw [if_neg found, step]
      constructor
      · rintro ⟨before, suffix, split, begins⟩
        exact ⟨t :: before, suffix, by rw [split]; rfl, begins⟩
      · rintro ⟨before, suffix, split, begins⟩
        cases before with
        | nil =>
          rw [List.nil_append] at split
          rw [← split, ← matchhere_iff] at begins
          exact absurd begins found
        | cons u before =>
          have tails : text = before ++ suffix := (List.cons.inj split).2
          exact ⟨before, suffix, tails, begins⟩

/-- The pattern behind a leading caret, which is not part of the language. -/
def unanchored (re : List UInt8) : List UInt8 := if re.head? = some caret then re.tail else re

/-- `match` returns 1 exactly when some part of the text, which has to be a prefix if the pattern
starts with a caret, is in the language of the pattern. -/
theorem matches_iff_part_in_language (re text : List UInt8) :
    match_ re text = true ↔
      ∃ before sub after, text = before ++ sub ++ after ∧
        (re.head? = some caret → before = []) ∧ InLanguage (unanchored re) sub after := by
  unfold match_ unanchored
  by_cases anchored : re.head? = some caret
  · rw [if_pos anchored, if_pos anchored, matchhere_iff]
    constructor
    · rintro ⟨sub, after, split, inside⟩
      exact ⟨[], sub, after, split, fun _ => rfl, inside⟩
    · rintro ⟨before, sub, after, split, prefixed, inside⟩
      rw [prefixed anchored] at split
      exact ⟨sub, after, split, inside⟩
  · rw [if_neg anchored, if_neg anchored, matchAnywhere_iff]
    constructor
    · rintro ⟨before, suffix, split, sub, after, suffix_eq, inside⟩
      refine ⟨before, sub, after, ?_, fun caret => absurd caret anchored, inside⟩
      rw [split, suffix_eq, List.append_assoc]
    · rintro ⟨before, sub, after, split, _, inside⟩
      rw [List.append_assoc] at split
      exact ⟨before, sub ++ after, split, sub, after, rfl, inside⟩

/-- A starred period, a literal star behind a starred item and a final dollar. -/
example : match_ [period, star, star, dollar] [97, star] = true ∧
    match_ [period, star, star, dollar] [star, 97] = false := by
  simp [match_, matchAnywhere, matchhere, matchstar, period, star, dollar, caret]

end Grep

end Xv6
