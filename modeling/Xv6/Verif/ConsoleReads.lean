import Xv6.Verif.Editing

/-!
# Reads from the console

Over every run of interrupts and reads, by any number of readers, the text used up by the reads
and the text still unread are together what the terminal has committed, and each read ends as
line editing promises.
-/

namespace Xv6

/-! ## Text of a run -/

/-- The committed text that a step used up: the text it stored, or an end-of-file mark. -/
def ConsoleStep.usedUp : ConsoleStep → List UInt8
  | .read _ text used _ => text ++ List.replicate (used - text.length) ctrlD
  | _ => []

/-- The text that a step stored for one read. -/
def ConsoleStep.storedFor (c : Nat) : ConsoleStep → List UInt8
  | .read d text _ _ => if d = c then text else []
  | _ => []

/-- The committed text used up by all reads, in order. -/
def usedUp (steps : List ConsoleStep) : List UInt8 := steps.flatMap ConsoleStep.usedUp

/-- The text that one read has stored, in order. -/
def readBy (c : Nat) (steps : List ConsoleStep) : List UInt8 := steps.flatMap (ConsoleStep.storedFor c)

section Text

variable {steps : List ConsoleStep} {step : ConsoleStep}

@[simp] theorem usedUp_snoc : usedUp (steps ++ [step]) = usedUp steps ++ step.usedUp := by
  simp [usedUp]

@[simp] theorem readBy_snoc {c : Nat} : readBy c (steps ++ [step]) = readBy c steps ++ step.storedFor c := by
  simp [readBy]

@[simp] theorem terminal_snoc : terminal (steps ++ [step]) = step.on (terminal steps) := by
  simp [terminal]

end Text

/-- Keys only add to the committed text. -/
theorem Terminal.keys_committed (t : Terminal) (keys : List UInt8) :
    ∃ more, (keys.foldl Terminal.key t).committed = t.committed ++ more ∧
      (keys.foldl Terminal.key t).used = t.used := by
  induction keys generalizing t with
  | nil => exact ⟨[], (List.append_nil _).symm, rfl⟩
  | cons c keys step =>
    have first : ∃ more, (t.key c).committed = t.committed ++ more ∧ (t.key c).used = t.used := by
      unfold Terminal.key
      dsimp only
      split_ifs
      · exact ⟨[], (List.append_nil _).symm, rfl⟩
      · exact ⟨[], (List.append_nil _).symm, rfl⟩
      · exact ⟨[], (List.append_nil _).symm, rfl⟩
      · exact ⟨_, rfl, rfl⟩
      · exact ⟨[], (List.append_nil _).symm, rfl⟩
      · exact ⟨[], (List.append_nil _).symm, rfl⟩
    obtain ⟨some, committed, used⟩ := first
    obtain ⟨more, later, kept⟩ := step (t.key c)
    refine ⟨some ++ more, ?_, kept.trans used⟩
    rw [List.foldl_cons, later, committed, List.append_assoc]

/-! ## Invariant -/

/-- How far a read has got. -/
structure Progress (steps : List ConsoleStep) (c : Nat) (call : ConsoleRead) : Prop where
  /-- What it has stored and what is left make its length. -/
  length : call.left + (readBy c steps).length = call.n.toNat
  /-- It has stored no end-of-file mark. -/
  unmarked : ctrlD ∉ readBy c steps
  /-- It has stored a line feed at the end alone. -/
  oneLine : lineFeed ∉ (readBy c steps).dropLast
  /-- It has returned once it has stored a line feed. -/
  going : call.stage ≠ .returned → lineFeed ∉ readBy c steps

/-- Each read has its part of the run. -/
structure ReadsKnown (steps : List ConsoleStep) (reads : Nat → Option ConsoleRead) : Prop where
  /-- The reads made are the known ones. -/
  entered : ∀ c n, ConsoleStep.entered c n ∈ steps ↔ ∃ call, reads c = some call ∧ call.n = n
  /-- Each of them has got so far. -/
  progress : ∀ c call, reads c = some call → Progress steps c call
  /-- A number not used yet stands for no text. -/
  unused : ∀ c, reads c = none → readBy c steps = []
  /-- The result of a read that has returned is what it has stored. -/
  finished : ∀ c text used r, ConsoleStep.read c text used (.finished r) ∈ steps →
    (∃ call, reads c = some call ∧ call.stage = .returned) ∧ r = (readBy c steps).length

/-- What holds after every run. -/
structure Interactive (steps : List ConsoleStep) (s : Console) : Prop where
  /-- The console shows the terminal. -/
  displays : s.input.Displays (terminal steps)
  /-- The reads have used up the committed text in order. -/
  account : usedUp steps = (terminal steps).committed.take (terminal steps).used
  attended : ReadsKnown steps s.reads

/-- A read is as before but for its stage and the flag of its process. -/
def Restaged (before after : Option ConsoleRead) : Prop :=
  (before = none ∧ after = none) ∨ ∃ call stage killed, before = some call ∧
    after = some { call with stage := stage, killed := killed } ∧
    (stage = .returned ↔ call.stage = .returned)

/-- A step that stores nothing and keeps the reads. -/
theorem ReadsKnown.quiet {steps : List ConsoleStep} {step : ConsoleStep}
    {reads reads' : Nat → Option ConsoleRead} (attended : ReadsKnown steps reads)
    (stores : ∀ c, step.storedFor c = []) (same : ∀ c, Restaged (reads c) (reads' c))
    (enters : ∀ c n, step ≠ .entered c n) (ends : ∀ c text used r, step ≠ .read c text used (.finished r)) :
    ReadsKnown (steps ++ [step]) reads' where
  entered := by
    intro c n
    have old : ConsoleStep.entered c n ∈ steps ++ [step] ↔ ConsoleStep.entered c n ∈ steps := by
      rw [List.mem_append, List.mem_singleton]
      exact or_iff_left (Ne.symm (enters c n))
    rw [old, attended.entered]
    rcases same c with ⟨before, after⟩ | ⟨call, stage, killed, before, after, _⟩
    · simp [before, after]
    · simp [before, after]
  progress := by
    intro c call known
    rcases same c with ⟨_, after⟩ | ⟨old, stage, killed, before, after, returned⟩
    · rw [after] at known
      cases known
    · rw [after] at known
      cases known
      obtain ⟨length, unmarked, oneLine, going⟩ := attended.progress c old before
      have text : readBy c (steps ++ [step]) = readBy c steps := by
        rw [readBy_snoc, stores, List.append_nil]
      constructor
      · rw [text]
        exact length
      · rw [text]
        exact unmarked
      · rw [text]
        exact oneLine
      · rw [text]
        intro notReturned
        exact going fun isReturned => notReturned (returned.mpr isReturned)
  unused := by
    intro c none
    rw [readBy_snoc, stores, List.append_nil]
    rcases same c with ⟨before, _⟩ | ⟨_, _, _, _, after, _⟩
    · exact attended.unused c before
    · rw [after] at none
      cases none
  finished := by
    intro c text used r member
    rw [readBy_snoc, stores, List.append_nil]
    rw [List.mem_append, List.mem_singleton] at member
    rcases member with earlier | last
    · obtain ⟨⟨call, before, returned⟩, result⟩ := attended.finished c text used r earlier
      refine ⟨?_, result⟩
      rcases same c with ⟨none, _⟩ | ⟨old, stage, killed, some, after, keeps⟩
      · rw [none] at before
        cases before
      · rw [some] at before
        cases before
        exact ⟨_, after, keeps.mpr returned⟩
    · exact absurd last.symm (ends c text used r)

/-- `wakeup` keeps the reads. -/
theorem wakeup_restaged (s : Console) (c : Nat) : Restaged (s.reads c) (s.wakeup.reads c) := by
  cases before : s.reads c with
  | none =>
    left
    exact ⟨rfl, by simp [Console.wakeup, before]⟩
  | some call =>
    right
    by_cases sleeps : call.stage = .asleep
    · refine ⟨call, .ready, call.killed, rfl, ?_, ?_⟩
      · simp [Console.wakeup, before, sleeps]
      · simp [sleeps]
    · refine ⟨call, call.stage, call.killed, rfl, ?_, Iff.rfl⟩
      simp [Console.wakeup, before, sleeps]

/-- A read that is not changed. -/
theorem Restaged.refl (call : Option ConsoleRead) : Restaged call call := by
  cases call with
  | none => exact Or.inl ⟨rfl, rfl⟩
  | some call => exact Or.inr ⟨call, call.stage, call.killed, rfl, rfl, Iff.rfl⟩

/-- The read that changes. -/
theorem Console.setRead_same (s : Console) (c : Nat) (call : ConsoleRead) :
    (s.setRead c call).reads c = some call := Function.update_self ..

/-- Other reads. -/
theorem Console.setRead_other (s : Console) {c d : Nat} (call : ConsoleRead) (other : d ≠ c) :
    (s.setRead c call).reads d = s.reads d := Function.update_of_ne other ..

/-! ## Steps -/

namespace Interactive

variable {steps : List ConsoleStep} {s : Console}

/-- An interrupt. -/
theorem interrupt (inv : Interactive steps s) (keys : List UInt8) :
    Interactive (steps ++ [.typed keys]) (s.interrupt keys) := by
  obtain ⟨more, committed, used⟩ := (terminal steps).keys_committed keys
  have input : (s.interrupt keys).input = (s.input.consoleintr keys).1 := by
    unfold Console.interrupt
    dsimp only
    split_ifs <;> rfl
  constructor
  · rw [input, terminal_snoc]
    exact inv.displays.consoleintr keys
  · rw [usedUp_snoc, terminal_snoc]
    change usedUp steps ++ [] = List.take (keys.foldl Terminal.key (terminal steps)).used
      (keys.foldl Terminal.key (terminal steps)).committed
    rw [committed, used, List.append_nil, List.take_append_of_le_length inv.displays.used]
    exact inv.account
  · apply inv.attended.quiet
    · intro c
      rfl
    · intro c
      unfold Console.interrupt
      dsimp only
      split_ifs
      · exact wakeup_restaged { s with input := (s.input.consoleintr keys).1 } c
      · exact Restaged.refl _
    · intro c n wrong
      cases wrong
    · intro c text used r wrong
      cases wrong

/-- A new read. -/
theorem enter (inv : Interactive steps s) {c : Nat} (n : Int) (killed : Bool)
    (unknown : s.reads c = none) :
    Interactive (steps ++ [.entered c n]) (s.setRead c ⟨n, n.toNat, killed, .ready⟩) := by
  have texts : ∀ d, readBy d (steps ++ [.entered c n]) = readBy d steps := by
    intro d
    rw [readBy_snoc]
    exact List.append_nil _
  have none := inv.attended.unused c unknown
  constructor
  · rw [terminal_snoc]
    exact inv.displays
  · rw [usedUp_snoc, terminal_snoc]
    exact (List.append_nil _).trans inv.account
  · constructor
    · intro d m
      rw [List.mem_append, List.mem_singleton, inv.attended.entered]
      by_cases same : d = c
      · subst same
        simp only [Console.setRead_same, unknown]
        simp [eq_comm]
      · rw [Console.setRead_other _ _ same]
        simp [same]
    · intro d call known
      by_cases same : d = c
      · subst same
        rw [Console.setRead_same] at known
        cases known
        constructor <;> rw [texts, none]
        · exact Nat.add_zero _
        · exact List.not_mem_nil
        · exact List.not_mem_nil
        · exact fun _ => List.not_mem_nil
      · rw [Console.setRead_other _ _ same] at known
        obtain ⟨length, unmarked, oneLine, going⟩ := inv.attended.progress d call known
        constructor <;> rw [texts]
        · exact length
        · exact unmarked
        · exact oneLine
        · exact going
    · intro d known
      rw [texts]
      by_cases same : d = c
      · exact same ▸ none
      · rw [Console.setRead_other _ _ same] at known
        exact inv.attended.unused d known
    · intro d text used r member
      rw [texts]
      rw [List.mem_append, List.mem_singleton] at member
      rcases member with earlier | last
      · obtain ⟨⟨call, known, returned⟩, result⟩ := inv.attended.finished d text used r earlier
        have other : d ≠ c := by
          rintro rfl
          rw [unknown] at known
          cases known
        refine ⟨⟨call, ?_, returned⟩, result⟩
        rw [Console.setRead_other _ _ other]
        exact known
      · cases last

/-- A process is killed. -/
theorem kill (inv : Interactive steps s) {c : Nat} {call : ConsoleRead}
    (known : s.reads c = some call) (stage : PipeStage)
    (keeps : stage = .returned ↔ call.stage = .returned) :
    Interactive (steps ++ [.killed c]) (s.setRead c { call with killed := true, stage := stage }) := by
  constructor
  · rw [terminal_snoc]
    exact inv.displays
  · rw [usedUp_snoc, terminal_snoc]
    exact (List.append_nil _).trans inv.account
  · apply inv.attended.quiet
    · intro d
      rfl
    · intro d
      by_cases same : d = c
      · subst same
        rw [Console.setRead_same, known]
        exact Or.inr ⟨call, stage, true, rfl, rfl, keeps⟩
      · rw [Console.setRead_other _ _ same]
        exact Restaged.refl _
    · intro d n wrong
      cases wrong
    · intro d text used r wrong
      cases wrong

/-- What a stretch of a read takes, counted by the index. -/
theorem takes (inv : Interactive steps s) {c : Nat} {call : ConsoleRead}
    (known : s.reads c = some call) :
    ∃ text used pause, s.input.consoleread call.killed call.n.toNat call.left =
        ((s.stretch c call).2.input, text, pause) ∧
      (s.stretch c call).1 = .read c text used pause ∧
      ReadTakes call.killed call.n.toNat call.left (terminal steps).unread text used pause ∧
      (s.stretch c call).2.input.Shows ((terminal steps).unread.drop used) (terminal steps).line ∧
      used ≤ (terminal steps).unread.length := by
  have within : call.left ≤ call.n.toNat := by
    have length := (inv.attended.progress c call known).length
    omega
  obtain ⟨used, taken, shown, index, bound⟩ := inv.displays.shown.consoleread call.killed within
  have counted : sub32 (s.input.consoleread call.killed call.n.toNat call.left).1.r s.input.r = used := by
    have reduced := inv.displays.shown.holds.head_lt
    have fits := inv.displays.shown.holds.fits
    have size : INPUT_BUF = 128 := rfl
    rw [List.length_append] at fits
    rw [index, sub32]
    omega
  refine ⟨_, used, _, rfl, ?_, taken, shown, bound⟩
  change ConsoleStep.read c _ (sub32 _ _) _ = _
  rw [counted]

/-- What a stretch uses up is the front of the unread text. -/
theorem usedUp_take {killed : Bool} {target left : Nat} {unread text : List UInt8} {used : Nat}
    {pause : Pause} (taken : ReadTakes killed target left unread text used pause) (c : Nat) :
    (ConsoleStep.read c text used pause).usedUp = unread.take used := by
  change text ++ List.replicate (used - text.length) ctrlD = _
  rcases taken.taken with ⟨length, rest, split⟩ | ⟨one, none, _, mark⟩
  · rw [split, length, Nat.sub_self, List.replicate_zero, List.append_nil, List.take_left]
  · rw [one, none]
    cases unread with
    | nil => cases mark
    | cons d unread =>
      have isMark : d = ctrlD := Option.some.inj mark
      rw [isMark]
      rfl

/-- A stretch of a read. -/
theorem stretch (inv : Interactive steps s) {c : Nat} {call : ConsoleRead}
    (known : s.reads c = some call) (ready : call.stage = .ready) :
    Interactive (steps ++ [(s.stretch c call).1]) (s.stretch c call).2 := by
  obtain ⟨text, used, pause, result, label, taken, shown, bound⟩ := inv.takes known
  have reads : (s.stretch c call).2.reads = Function.update s.reads c
      (some { call with left := call.left - text.length, stage := pause.stage }) := by
    change Function.update s.reads c (some { call with
      left := call.left - (s.input.consoleread call.killed call.n.toNat call.left).2.1.length,
      stage := (s.input.consoleread call.killed call.n.toNat call.left).2.2.stage }) = _
    rw [result]
  obtain ⟨length, unmarked, oneLine, going⟩ := inv.attended.progress c call known
  have unended := going (by rw [ready]; decide)
  have mine : readBy c (steps ++ [.read c text used pause]) = readBy c steps ++ text := by
    rw [readBy_snoc]
    simp [ConsoleStep.storedFor]
  have others : ∀ d, d ≠ c → readBy d (steps ++ [.read c text used pause]) = readBy d steps := by
    intro d other
    rw [readBy_snoc]
    simp [ConsoleStep.storedFor, Ne.symm other]
  have unread : Terminal.unread { terminal steps with used := (terminal steps).used + used } =
      (terminal steps).unread.drop used := by
    rw [Terminal.unread, Terminal.unread, List.drop_drop]
  rw [label]
  constructor
  · rw [terminal_snoc]
    constructor
    · change Input.Shows _ (Terminal.unread { terminal steps with used := _ }) _
      rw [unread]
      exact shown
    · change (terminal steps).used + used ≤ (terminal steps).committed.length
      rw [Terminal.unread, List.length_drop] at bound
      have before := inv.displays.used
      omega
  · rw [usedUp_snoc, terminal_snoc, usedUp_take taken, inv.account]
    exact List.take_add.symm
  · constructor
    · intro d n
      rw [List.mem_append, List.mem_singleton, or_iff_left (by simp), inv.attended.entered, reads]
      by_cases same : d = c
      · subst same
        simp [known]
      · rw [Function.update_of_ne same]
    · intro d other known'
      rw [reads] at known'
      by_cases same : d = c
      · subst same
        rw [Function.update_self] at known'
        cases known'
        have fits := taken.fits
        constructor
        · rw [mine, List.length_append]
          change call.left - text.length + _ = call.n.toNat
          omega
        · rw [mine, List.mem_append, not_or]
          exact ⟨unmarked, taken.unmarked⟩
        · rw [mine]
          by_cases nothing : text = []
          · rw [nothing, List.append_nil]
            exact oneLine
          · rw [List.dropLast_append_of_ne_nil nothing, List.mem_append, not_or]
            exact ⟨unended, taken.oneLine⟩
        · intro notReturned
          rw [mine, List.mem_append, not_or]
          refine ⟨unended, ?_⟩
          cases pause with
          | asleep =>
            obtain ⟨_, _, _, _, none⟩ := taken.waits false rfl
            exact none
          | failed => exact absurd rfl notReturned
          | finished r => exact absurd rfl notReturned
      · rw [Function.update_of_ne same] at known'
        obtain ⟨length, unmarked, oneLine, going⟩ := inv.attended.progress d other known'
        constructor <;> rw [others d same]
        · exact length
        · exact unmarked
        · exact oneLine
        · exact going
    · intro d none
      rw [reads] at none
      by_cases same : d = c
      · subst same
        rw [Function.update_self] at none
        cases none
      · rw [Function.update_of_ne same] at none
        rw [others d same]
        exact inv.attended.unused d none
    · intro d text' used' r member
      rw [List.mem_append, List.mem_singleton] at member
      rcases member with earlier | last
      · obtain ⟨⟨old, before, returned⟩, result⟩ := inv.attended.finished d text' used' r earlier
        have other : d ≠ c := by
          rintro rfl
          rw [known] at before
          cases before
          rw [ready] at returned
          cases returned
        rw [others d other, reads, Function.update_of_ne other]
        exact ⟨⟨old, before, returned⟩, result⟩
      · cases last
        rw [mine, reads, Function.update_self]
        refine ⟨⟨_, rfl, rfl⟩, ?_⟩
        obtain ⟨count, _⟩ := taken.returns r rfl
        rw [count, List.length_append]
        omega

/-- Every step keeps the invariant. -/
theorem next (inv : Interactive steps s) {step : ConsoleStep} {t : Console} (taken : s.Step step t) :
    Interactive (steps ++ [step]) t := by
  obtain ⟨event, taken⟩ := taken
  cases event with
  | interrupt keys =>
    cases taken
    exact inv.interrupt keys
  | enter c n killed =>
    rw [Console.next] at taken
    by_cases unknown : s.reads c = none
    · rw [if_pos unknown] at taken
      cases taken
      exact inv.enter n killed unknown
    · rw [if_neg unknown] at taken
      cases taken
  | go c =>
    rw [Console.next] at taken
    cases known : s.reads c with
    | none =>
      rw [known] at taken
      cases taken
    | some call =>
      rw [known] at taken
      dsimp only at taken
      by_cases ready : call.stage = .ready
      · rw [if_pos ready] at taken
        have result := Option.some.inj taken
        have after := inv.stretch known ready
        rw [result] at after
        exact after
      · rw [if_neg ready] at taken
        cases taken
  | kill c =>
    rw [Console.next] at taken
    cases known : s.reads c with
    | none =>
      rw [known] at taken
      cases taken
    | some call =>
      rw [known] at taken
      dsimp only at taken
      cases taken
      apply inv.kill known
      by_cases sleeps : call.stage = .asleep
      · rw [if_pos sleeps, sleeps]
        decide
      · rw [if_neg sleeps]

/-- The invariant holds at the start. -/
theorem start : Interactive [] Console.start := by
  constructor
  · exact ⟨⟨RingBuffer.Holds.empty (by decide), rfl, List.not_mem_nil⟩, Nat.le_refl 0⟩
  · rfl
  · constructor
    · intro c n
      simp [Console.start]
    · intro c call known
      cases known
    · intro c _
      rfl
    · intro c text used r member
      cases member

/-- The invariant holds after every run. -/
theorem run (run : Run Console.Step Console.start steps s) : Interactive steps s :=
  run.history Interactive start fun _ _ _ _ _ inv step => inv.next step

end Interactive

/-! ## Line editing -/

/-- The text between `r` and `w`. -/
def Input.unread (i : Input) : List UInt8 := RingBuffer.contents i.buf INPUT_BUF (2 ^ 32) i.r i.w

/-- The text between `w` and `e`. -/
def Input.line (i : Input) : List UInt8 := RingBuffer.contents i.buf INPUT_BUF (2 ^ 32) i.w i.e

/-- What line editing promises after a run. -/
structure LineEdited (steps : List ConsoleStep) (s : Console) : Prop where
  /-- `r`, `w` and `e` are in order, and at most `INPUT_BUF` apart. -/
  ordered : sub32 s.input.w s.input.r ≤ sub32 s.input.e s.input.r ∧
    sub32 s.input.e s.input.r ≤ INPUT_BUF
  /-- The text to read is the terminal's. -/
  unread : s.input.unread = (terminal steps).unread
  /-- The line being edited is the terminal's. -/
  line : s.input.line = (terminal steps).line
  /-- The reads have used up the committed text in order, up to what is still unread. -/
  delivered : usedUp steps ++ s.input.unread = (terminal steps).committed
  /-- Keys remove nothing that was committed. -/
  kept : ∀ before keys, steps = before ++ [.typed keys] →
    (terminal before).unread <+: s.input.unread
  /-- A read stores no more than its length, no end-of-file mark and no line feed but the last. -/
  stored : ∀ c n, .entered c n ∈ steps → (readBy c steps).length ≤ n.toNat ∧
    ctrlD ∉ readBy c steps ∧ lineFeed ∉ (readBy c steps).dropLast
  /-- A read returns how much it has stored. -/
  result : ∀ c text used (r : Int), .read c text used (.finished r) ∈ steps → r = (readBy c steps).length
  /-- A read returns at its length, after a line feed, with 0 for an end-of-file mark that it uses
  up, or with more than 0 before an end-of-file mark that it leaves. -/
  stops : ∀ before c n text used (r : Int), steps = before ++ [.read c text used (.finished r)] →
    .entered c n ∈ steps →
      (readBy c steps).length = n.toNat ∨ (readBy c steps).getLast? = some lineFeed ∨
      (r = 0 ∧ (ConsoleStep.read c text used (.finished r)).usedUp = [ctrlD]) ∨
      (r ≠ 0 ∧ s.input.unread.head? = some ctrlD)
  /-- A read waits only when all committed text is read. -/
  waits : ∀ before c text used, steps = before ++ [.read c text used .asleep] → s.input.unread = []

/-- The last step of a run of the console. -/
theorem last_step {before : List ConsoleStep} {step : ConsoleStep} {s : Console}
    (run : Run Console.Step Console.start (before ++ [step]) s) :
    ∃ s₀, Interactive before s₀ ∧ s₀.Step step s := by
  obtain ⟨s₀, first, rest⟩ := run.split
  cases rest with
  | cons taken nothing =>
    cases nothing
    exact ⟨s₀, Interactive.run first, taken⟩

/-- A step of a read is a stretch of it. -/
theorem stretch_of_step {s t : Console} {c : Nat} {text : List UInt8} {used : Nat} {pause : Pause}
    (taken : s.Step (.read c text used pause) t) :
    ∃ call, s.reads c = some call ∧ s.stretch c call = (.read c text used pause, t) := by
  obtain ⟨event, taken⟩ := taken
  cases event with
  | interrupt keys => cases taken
  | enter d n killed =>
    rw [Console.next] at taken
    split_ifs at taken
    cases taken
  | go d =>
    rw [Console.next] at taken
    cases known : s.reads d with
    | none =>
      rw [known] at taken
      cases taken
    | some call =>
      rw [known] at taken
      dsimp only at taken
      split_ifs at taken
      have result := Option.some.inj taken
      have same : d = c := by
        have labels := congrArg Prod.fst result
        cases labels
        rfl
      subst same
      exact ⟨call, known, result⟩
  | kill d =>
    rw [Console.next] at taken
    cases known : s.reads d with
    | none =>
      rw [known] at taken
      cases taken
    | some call =>
      rw [known] at taken
      cases taken

/-- What the last stretch of a run took, and what its read had stored before. -/
theorem last_stretch {before : List ConsoleStep} {c : Nat} {text : List UInt8} {used : Nat}
    {pause : Pause} {s : Console}
    (run : Run Console.Step Console.start (before ++ [.read c text used pause]) s) :
    ∃ call, Progress before c call ∧
      (∀ n, .entered c n ∈ before ++ [.read c text used pause] → call.n = n) ∧
      ReadTakes call.killed call.n.toNat call.left (terminal before).unread text used pause ∧
      (terminal (before ++ [.read c text used pause])).unread = (terminal before).unread.drop used := by
  obtain ⟨s₀, inv, step⟩ := last_step run
  obtain ⟨call, known, result⟩ := stretch_of_step step
  obtain ⟨text', used', pause', _, label, taken, _, _⟩ := inv.takes known
  rw [result] at label
  cases label
  refine ⟨call, inv.attended.progress c call known, ?_, taken, ?_⟩
  · intro n member
    rw [List.mem_append, List.mem_singleton, or_iff_left (by simp), inv.attended.entered] at member
    obtain ⟨call', known', length⟩ := member
    rw [known] at known'
    cases known'
    exact length
  · rw [terminal_snoc]
    exact List.drop_drop.symm

/-- Over every run of interrupts and reads the console does line editing. -/
theorem console_edits_lines (steps : List ConsoleStep) (s : Console)
    (run : Run Console.Step Console.start steps s) : LineEdited steps s := by
  have inv := Interactive.run run
  have unread : s.input.unread = (terminal steps).unread :=
    inv.displays.shown.readable.contents_eq inputBuf_lt
  constructor
  · exact inv.displays.shown.ordered
  · exact unread
  · exact inv.displays.shown.editable.contents_eq inputBuf_lt
  · rw [unread, inv.account]
    exact List.take_append_drop _ _
  · intro before keys split
    subst split
    obtain ⟨s₀, inv₀, _⟩ := last_step run
    obtain ⟨more, committed, used⟩ := (terminal before).keys_committed keys
    rw [unread, terminal_snoc]
    change _ <+: List.drop (keys.foldl Terminal.key (terminal before)).used
      (keys.foldl Terminal.key (terminal before)).committed
    rw [committed, used, List.drop_append_of_le_length inv₀.displays.used]
    exact List.prefix_append _ _
  · intro c n entered
    obtain ⟨call, known, length⟩ := (inv.attended.entered c n).mp entered
    have progress := inv.attended.progress c call known
    have size := progress.length
    rw [length] at size
    exact ⟨by omega, progress.unmarked, progress.oneLine⟩
  · intro c text used r member
    exact (inv.attended.finished c text used r member).2
  · intro before c n text used r split entered
    subst split
    obtain ⟨call, progress, length, taken, left⟩ := last_stretch run
    have size := progress.length
    rw [length n entered] at size
    have mine : readBy c (before ++ [.read c text used (.finished r)]) = readBy c before ++ text := by
      rw [readBy_snoc]
      simp [ConsoleStep.storedFor]
    obtain ⟨count, reason⟩ := taken.returns r rfl
    rw [length n entered] at count reason
    rw [mine, unread, left]
    rcases reason with full | last | ⟨one, none, whole⟩ | ⟨_, mark, some⟩
    · left
      rw [List.length_append]
      omega
    · right; left
      rw [List.getLast?_append, last]
      rfl
    · right; right; left
      constructor
      · rw [count, none, List.length_nil]
        omega
      · rw [one, none]
        rfl
    · right; right; right
      constructor
      · rw [count]
        omega
      · exact mark
  · intro before c text used split
    subst split
    obtain ⟨call, _, _, taken, left⟩ := last_stretch run
    obtain ⟨_, all, _⟩ := taken.waits false rfl
    rw [unread, left]
    exact all

/-- A line of which one character is erased, read by two reads. -/
def erasedAndRead : List ConsoleStep :=
  [.typed [97, 98, 127, 10], .entered 0 1, .read 0 [97] 1 (.finished 1), .entered 1 5,
    .read 1 [10] 1 (.finished 1)]

/-- The promises of line editing after these steps. -/
theorem console_edits_lines_erased : ∃ s, Run Console.Step Console.start erasedAndRead s ∧
    LineEdited erasedAndRead s := by
  have run : ∃ s, Run Console.Step Console.start erasedAndRead s := by
    refine ⟨_, .cons ⟨.interrupt [97, 98, 127, 10], rfl⟩ (.cons ⟨.enter 0 1 false, rfl⟩
      (.cons ⟨.go 0, rfl⟩ (.cons ⟨.enter 1 5 false, rfl⟩ (.cons ⟨.go 1, rfl⟩ (.nil _)))))⟩
  obtain ⟨s, run⟩ := run
  exact ⟨s, run, console_edits_lines erasedAndRead s run⟩

end Xv6
