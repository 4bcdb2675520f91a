import Mathlib.Data.List.Induction
import Xv6.Console
import Xv6.Lib.RingBuffer
import Xv6.Lib.Runs

/-!
# Console line editing

A terminal edits one line and appends it to the committed text when it is ended. The console
does the same with three wrapping indices: the ring holds the committed text that is not yet read
and then the edited line. Over a run the reads use up the committed text in order, and each of
them ends after a line feed, at an end-of-file mark or at its length.
-/

namespace Xv6

/-! ## Terminal -/

/-- The text of a terminal. -/
structure Terminal where
  /-- All text committed so far. -/
  committed : List UInt8
  /-- How much of it has been used up by reads. -/
  used : Nat
  /-- The line being edited. -/
  line : List UInt8

namespace Terminal

/-- The committed text that is not yet read. -/
def unread (t : Terminal) : List UInt8 := t.committed.drop t.used

/-- A key edits the line, and commits it when it ends it or fills the buffer. -/
def key (t : Terminal) (c : UInt8) : Terminal :=
  if c = ctrl 80 then t
  else if c = ctrl 85 then { t with line := [] }
  else if c = ctrl 72 ∨ c = 127 then { t with line := t.line.dropLast }
  else if c ≠ 0 ∧ t.unread.length + t.line.length < INPUT_BUF then
    let line := t.line ++ [Input.typed c]
    if Input.typed c = lineFeed ∨ Input.typed c = ctrlD ∨
        t.unread.length + line.length = INPUT_BUF then
      { t with committed := t.committed ++ line, line := [] }
    else { t with line := line }
  else t

end Terminal

/-- What a step does to the terminal. -/
def ConsoleStep.on (t : Terminal) : ConsoleStep → Terminal
  | .typed keys => keys.foldl Terminal.key t
  | .read _ _ used _ => { t with used := t.used + used }
  | _ => t

/-- The terminal after a run. -/
def terminal (steps : List ConsoleStep) : Terminal := steps.foldl ConsoleStep.on ⟨[], 0, []⟩

/-! ## Ring -/

/-- The console has this unread text and this line. -/
structure Input.Shows (i : Input) (unread line : List UInt8) : Prop where
  /-- The ring holds both. -/
  holds : RingBuffer.Holds i.buf INPUT_BUF (2 ^ 32) i.r i.e (unread ++ line)
  /-- The write index is between them. -/
  write : i.w = (i.r + unread.length) % 2 ^ 32
  /-- The line is not ended. -/
  unended : lineFeed ∉ line

/-- The ring's size divides the range of the indices. -/
theorem inputBuf_dvd : INPUT_BUF ∣ 2 ^ 32 := ⟨2 ^ 25, by decide⟩

/-- The ring is smaller than the range of the indices. -/
theorem inputBuf_lt : INPUT_BUF < 2 ^ 32 := by decide

namespace Input.Shows

variable {i : Input} {unread line : List UInt8} {c : UInt8}

/-- The unread text is between `r` and `w`. -/
theorem readable (shows_ : i.Shows unread line) :
    RingBuffer.Holds i.buf INPUT_BUF (2 ^ 32) i.r i.w unread := by
  rw [shows_.write]
  exact shows_.holds.before

/-- The line is between `w` and `e`. -/
theorem editable (shows_ : i.Shows unread line) :
    RingBuffer.Holds i.buf INPUT_BUF (2 ^ 32) i.w i.e line := by
  rw [shows_.write]
  exact shows_.holds.after

/-- The indices are in order, and at most the buffer's size apart. -/
theorem ordered (shows_ : i.Shows unread line) :
    sub32 i.w i.r ≤ sub32 i.e i.r ∧ sub32 i.e i.r ≤ INPUT_BUF := by
  have whole : sub32 i.e i.r = (unread ++ line).length := shows_.holds.length_eq inputBuf_lt
  have part : sub32 i.w i.r = unread.length := shows_.readable.length_eq inputBuf_lt
  have fits := shows_.holds.fits
  rw [whole, part]
  rw [List.length_append] at *
  omega

/-- The test whether the line is empty. -/
theorem line_empty (shows_ : i.Shows unread line) : i.e = i.w ↔ line = [] := by
  rw [eq_comm]
  exact shows_.editable.head_eq_tail inputBuf_lt

/-- The test whether there is text to read. -/
theorem unread_empty (shows_ : i.Shows unread line) : i.r = i.w ↔ unread = [] :=
  shows_.readable.head_eq_tail inputBuf_lt

/-- Taking `e` back removes the last character of the line. -/
theorem backspace (shows_ : i.Shows unread (line ++ [c])) :
    Input.Shows { i with e := sub32 i.e 1 } unread line where
  holds := by
    have holds := shows_.holds
    rw [← List.append_assoc] at holds
    exact holds.unpush
  write := shows_.write
  unended := fun member => shows_.unended (List.mem_append_left _ member)

/-- Kill line removes the whole line. -/
theorem killLine (shows_ : i.Shows unread line) :
    i.killLine (sub32 i.e i.w) = { i with e := i.w } ∧
      Input.Shows { i with e := i.w } unread [] := by
  have size : sub32 i.e i.w = line.length := shows_.editable.length_eq inputBuf_lt
  rw [size]
  clear size
  induction line using List.reverseRecOn generalizing i with
  | nil =>
    have same := shows_.line_empty.mpr rfl
    have kept : { i with e := i.w } = i := by
      cases i
      cases same
      rfl
    rw [kept]
    exact ⟨rfl, shows_⟩
  | append_singleton line c step =>
    have some : i.e ≠ i.w := by
      intro same
      have empty := shows_.line_empty.mp same
      simp at empty
    have last : i.buf (sub32 i.e 1 % INPUT_BUF) ≠ lineFeed := by
      have stored : i.buf (sub32 i.e 1 % INPUT_BUF) = c := shows_.editable.back
      rw [stored]
      rintro rfl
      exact shows_.unended (List.mem_append_right _ (List.mem_singleton_self _))
    rw [List.length_append, List.length_singleton, Input.killLine, if_pos ⟨some, last⟩]
    exact step shows_.backspace

/-- A character stored at `e` joins the line, or ends and commits it. -/
theorem insert (shows_ : i.Shows unread line) (room : unread.length + line.length < INPUT_BUF)
    (c : UInt8) :
    RingBuffer.Holds (Function.update i.buf (i.e % INPUT_BUF) c) INPUT_BUF (2 ^ 32) i.r
      (add32 i.e 1) (unread ++ (line ++ [c])) := by
  rw [← List.append_assoc]
  exact shows_.holds.push inputBuf_dvd (by rw [List.length_append]; exact room) c

end Input.Shows

/-- The console shows what a terminal has. -/
structure Input.Displays (i : Input) (t : Terminal) : Prop where
  shown : i.Shows t.unread t.line
  /-- Only committed text has been read. -/
  used : t.used ≤ t.committed.length

/-- A key does the same to the console and to the terminal. -/
theorem Input.Displays.key {i : Input} {t : Terminal} (displays : i.Displays t) (c : UInt8) :
    (i.key c).1.Displays (t.key c) := by
  obtain ⟨shown, used⟩ := displays
  unfold Input.key Terminal.key
  by_cases listing : c = ctrl 80
  · rw [if_pos listing, if_pos listing]
    exact ⟨shown, used⟩
  rw [if_neg listing, if_neg listing]
  by_cases kill : c = ctrl 85
  · rw [if_pos kill, if_pos kill]
    obtain ⟨killed, kept⟩ := shown.killLine
    dsimp only
    rw [killed]
    exact ⟨kept, used⟩
  rw [if_neg kill, if_neg kill]
  by_cases erase : c = ctrl 72 ∨ c = 127
  · rw [if_pos erase, if_pos erase]
    by_cases empty : i.e = i.w
    · rw [if_neg (not_not.mpr empty)]
      have none := shown.line_empty.mp empty
      refine ⟨?_, used⟩
      change i.Shows t.unread t.line.dropLast
      rw [none] at shown ⊢
      exact shown
    · rw [if_pos empty]
      have some : t.line ≠ [] := fun none => empty (shown.line_empty.mpr none)
      rw [← List.dropLast_concat_getLast some] at shown
      exact ⟨shown.backspace, used⟩
  rw [if_neg erase, if_neg erase]
  have size : sub32 i.e i.r = t.unread.length + t.line.length := by
    rw [← List.length_append]
    exact shown.holds.length_eq inputBuf_lt
  by_cases taken : c ≠ 0 ∧ t.unread.length + t.line.length < INPUT_BUF
  · rw [if_pos (by rw [size]; exact taken), if_pos taken]
    dsimp only
    have stored := shown.insert taken.2 (Input.typed c)
    have full : add32 i.e 1 = add32 i.r INPUT_BUF ↔
        t.unread.length + (t.line ++ [Input.typed c]).length = INPUT_BUF := by
      rw [← List.length_append]
      exact stored.tail_eq_full inputBuf_lt
    by_cases ends : Input.typed c = lineFeed ∨ Input.typed c = ctrlD ∨
        t.unread.length + (t.line ++ [Input.typed c]).length = INPUT_BUF
    · rw [if_pos (by rw [full]; exact ends), if_pos ends]
      have text : Terminal.unread { t with committed := t.committed ++ (t.line ++ [Input.typed c]), line := [] } =
          t.unread ++ (t.line ++ [Input.typed c]) := List.drop_append_of_le_length used
      refine ⟨⟨?_, ?_, ?_⟩, ?_⟩
      · rw [text, List.append_nil]
        exact stored
      · rw [text]
        exact stored.tail_eq
      · exact List.not_mem_nil
      · change t.used ≤ (t.committed ++ _).length
        rw [List.length_append]
        omega
    · rw [if_neg (by rw [full]; exact ends), if_neg ends]
      refine ⟨⟨stored, shown.write, ?_⟩, used⟩
      change lineFeed ∉ t.line ++ [Input.typed c]
      rw [List.mem_append, List.mem_singleton, not_or]
      exact ⟨shown.unended, fun same => ends (Or.inl same.symm)⟩
  · rw [if_neg (by rw [size]; exact taken), if_neg taken]
    exact ⟨shown, used⟩

/-- An interrupt does the same to the console and to the terminal. -/
theorem Input.Displays.consoleintr {i : Input} {t : Terminal} (displays : i.Displays t)
    (keys : List UInt8) : (i.consoleintr keys).1.Displays (keys.foldl Terminal.key t) := by
  induction keys generalizing i t with
  | nil => exact displays
  | cons c keys step => exact step (displays.key c)

/-! ## Stretches of a read -/

/-- What a stretch with `left` of `target` characters to read takes from the unread text: the text
it stores, how many characters it uses up and how it ends. -/
structure ReadTakes (killed : Bool) (target left : Nat) (unread text : List UInt8) (used : Nat)
    (pause : Pause) : Prop where
  /-- What it uses up is the text it stores, or an end-of-file mark in front of everything. -/
  taken : (used = text.length ∧ ∃ rest, unread = text ++ rest) ∨
    (used = 1 ∧ text = [] ∧ left = target ∧ unread.head? = some ctrlD)
  /-- It stores no more than is left to read. -/
  fits : text.length ≤ left
  /-- It stores no end-of-file mark. -/
  unmarked : ctrlD ∉ text
  /-- It stores a line feed at the end alone. -/
  oneLine : lineFeed ∉ text.dropLast
  /-- It waits, or returns early if it is killed, when all is read and it has room. -/
  waits : ∀ done, pause = (if done then .failed else .asleep) →
    done = killed ∧ unread.drop used = [] ∧ used = text.length ∧ text.length < left ∧ lineFeed ∉ text
  /-- It returns the number of characters read, at its length, after a line feed, or at an
  end-of-file mark, which it uses up if it has read nothing and leaves if it has. -/
  returns : ∀ r, pause = .finished r → r = (target - left + text.length : Nat) ∧
    (text.length = left ∨ text.getLast? = some lineFeed ∨ (used = 1 ∧ text = [] ∧ left = target) ∨
      (used = text.length ∧ (unread.drop used).head? = some ctrlD ∧ target - left + text.length ≠ 0))

/-- The loop of `consoleread` takes from the unread text, and leaves the line. -/
theorem Input.Shows.consoleread {i : Input} {unread line : List UInt8} {target left : Nat}
    (shows_ : i.Shows unread line) (killed : Bool) (within : left ≤ target) :
    ∃ used, ReadTakes killed target left unread (i.consoleread killed target left).2.1 used
        (i.consoleread killed target left).2.2 ∧
      (i.consoleread killed target left).1.Shows (unread.drop used) line ∧
      (i.consoleread killed target left).1.r = (i.r + used) % 2 ^ 32 ∧ used ≤ unread.length := by
  induction left generalizing i unread with
  | zero =>
    refine ⟨0, ⟨Or.inl ⟨rfl, unread, rfl⟩, Nat.le_refl 0, List.not_mem_nil, List.not_mem_nil, ?_, ?_⟩,
      shows_, ?_, Nat.zero_le _⟩
    · intro done ends
      cases done <;> cases ends
    · intro r ends
      cases ends
      exact ⟨rfl, Or.inl rfl⟩
    · exact (Nat.mod_eq_of_lt shows_.holds.head_lt).symm
  | succ n step =>
    rw [Input.consoleread]
    by_cases empty : i.r = i.w
    · rw [if_pos empty]
      have none := shows_.unread_empty.mp empty
      refine ⟨0, ⟨Or.inl ⟨rfl, unread, rfl⟩, Nat.zero_le _, List.not_mem_nil, List.not_mem_nil, ?_, ?_⟩,
        shows_, ?_, Nat.zero_le _⟩
      · intro done ends
        refine ⟨?_, none, rfl, Nat.succ_pos n, List.not_mem_nil⟩
        cases done <;> cases killed <;> first | rfl | cases ends
      · intro r ends
        dsimp only at ends
        cases killed <;> cases ends
      · exact (Nat.mod_eq_of_lt shows_.holds.head_lt).symm
    · rw [if_neg empty]
      cases unread with
      | nil => exact absurd (shows_.unread_empty.mpr rfl) empty
      | cons c unread =>
        have front : i.buf (i.r % INPUT_BUF) = c := shows_.holds.front
        have next : Input.Shows { i with r := add32 i.r 1 } unread line := by
          refine ⟨shows_.holds.pop, ?_, shows_.unended⟩
          rw [shows_.write, List.length_cons, add32, Nat.mod_add_mod, Nat.add_assoc,
            Nat.add_comm 1]
        have back : sub32 (add32 i.r 1) 1 = i.r := by
          have bound := shows_.holds.head_lt
          unfold sub32 add32
          omega
        dsimp only
        rw [front]
        by_cases mark : c = ctrlD
        · rw [if_pos mark]
          by_cases partly : n + 1 < target
          · rw [if_pos partly, back]
            refine ⟨0, ⟨Or.inl ⟨rfl, c :: unread, rfl⟩, Nat.zero_le _, List.not_mem_nil,
              List.not_mem_nil, ?_, ?_⟩, shows_, ?_, Nat.zero_le _⟩
            · intro done ends
              cases done <;> cases ends
            · intro r ends
              cases ends
              refine ⟨rfl, Or.inr (Or.inr (Or.inr ⟨rfl, ?_, ?_⟩))⟩
              · rw [mark]
                rfl
              · rw [List.length_nil]
                omega
            · exact (Nat.mod_eq_of_lt shows_.holds.head_lt).symm
          · rw [if_neg partly]
            have whole : n + 1 = target := by omega
            refine ⟨1, ⟨Or.inr ⟨rfl, rfl, whole, ?_⟩, Nat.zero_le _, List.not_mem_nil,
              List.not_mem_nil, ?_, ?_⟩, next, rfl, by simp⟩
            · rw [mark]
              rfl
            · intro done ends
              cases done <;> cases ends
            · intro r ends
              cases ends
              exact ⟨rfl, Or.inr (Or.inr (Or.inl ⟨rfl, rfl, whole⟩))⟩
        · rw [if_neg mark]
          by_cases ended : c = lineFeed
          · rw [if_pos ended]
            refine ⟨1, ⟨Or.inl ⟨rfl, unread, rfl⟩, Nat.succ_le_succ (Nat.zero_le n), ?_,
              List.not_mem_nil, ?_, ?_⟩, next, rfl, by simp⟩
            · simpa using Ne.symm mark
            · intro done ends
              cases done <;> cases ends
            · intro r ends
              cases ends
              refine ⟨?_, Or.inr (Or.inl ?_)⟩
              · rw [List.length_singleton]
                omega
              · rw [ended]
                rfl
          · rw [if_neg ended]
            obtain ⟨used, takes, later, index, bound⟩ := step next (by omega)
            have consumed : used = (Input.consoleread killed target { i with r := add32 i.r 1 } n).2.1.length := by
              rcases takes.taken with ⟨length, _⟩ | ⟨_, _, whole, _⟩
              · exact length
              · omega
            obtain ⟨rest, split⟩ : ∃ rest, unread =
                (Input.consoleread killed target { i with r := add32 i.r 1 } n).2.1 ++ rest := by
              rcases takes.taken with ⟨_, split⟩ | ⟨_, _, whole, _⟩
              · exact split
              · omega
            have fits := takes.fits
            have unmarked := takes.unmarked
            have oneLine := takes.oneLine
            have waits := takes.waits
            have returns := takes.returns
            generalize Input.consoleread killed target { i with r := add32 i.r 1 } n = result at *
            obtain ⟨j, text, pause⟩ := result
            dsimp only at *
            refine ⟨used + 1, ⟨Or.inl ⟨?_, rest, ?_⟩, Nat.succ_le_succ fits, ?_, ?_, ?_, ?_⟩, later, ?_,
              Nat.succ_le_succ bound⟩
            · rw [List.length_cons, consumed]
            · rw [split]
              rfl
            · rw [List.mem_cons, not_or]
              exact ⟨Ne.symm mark, unmarked⟩
            · cases text with
              | nil => exact List.not_mem_nil
              | cons d text =>
                rw [List.dropLast_cons_cons, List.mem_cons, not_or]
                exact ⟨Ne.symm ended, oneLine⟩
            · intro done ends
              obtain ⟨dead, all, _, room, unended⟩ := waits done ends
              refine ⟨dead, all, ?_, Nat.succ_lt_succ room, ?_⟩
              · rw [List.length_cons, consumed]
              · rw [List.mem_cons, not_or]
                exact ⟨Ne.symm ended, unended⟩
            · intro r ends
              obtain ⟨count, reason⟩ := returns r ends
              constructor
              · rw [count, List.length_cons]
                omega
              · rcases reason with full | last | ⟨_, _, whole⟩ | ⟨_, atMark, some⟩
                · left
                  rw [List.length_cons, full]
                · right; left
                  cases text with
                  | nil => cases last
                  | cons d text => rw [List.getLast?_cons_cons, last]
                · omega
                · right; right; right
                  refine ⟨by rw [List.length_cons, consumed], atMark, ?_⟩
                  rw [List.length_cons]
                  omega
            · rw [index, add32, Nat.mod_add_mod, Nat.add_assoc, Nat.add_comm 1]

end Xv6
