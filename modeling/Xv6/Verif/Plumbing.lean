import Mathlib.Data.Multiset.Bind
import Xv6.Lib.Runs
import Xv6.Runcmd
import Xv6.Verif.CommandStrings

/-!
# Programs and their descriptors

Whatever the order in which the processes of a command run, each program of the command is started
at most once, with just the descriptors that its redirections and pipes give it: the descriptors of
pipes that the shell uses in between are closed. If no call fails, the programs started and those that
the processes have still to start are the programs of the command; without `&` all of them have
ended when the process of the command has.
-/

namespace Xv6

namespace Shell

/-! ## Descriptors -/

/-- The lowest free descriptor. -/
theorem lowest_eq_some {fds : Table} {fd : Nat} :
    lowest fds = some fd ↔ fd < NOFILE ∧ fds fd = none ∧ ∀ i < fd, fds i ≠ none := by
  unfold lowest
  rw [List.find?_range_eq_some, List.mem_range]
  simp only [Option.isNone_iff_eq_none, Bool.not_eq_true', Option.isNone_eq_false_iff, Option.isSome_iff_ne_none]
  exact and_left_comm

/-- A free descriptor is found where there is one. -/
theorem lowest_found {fds : Table} {fd : Nat} (inside : fd < NOFILE) (free : fds fd = none) :
    ∃ found, lowest fds = some found := by
  cases some : lowest fds with
  | some found => exact ⟨found, rfl⟩
  | none =>
    unfold lowest at some
    rw [List.find?_eq_none] at some
    have used := some fd (List.mem_range.mpr inside)
    rw [free] at used
    contradiction

/-- The table has the three standard descriptors, and two to spare. -/
structure Ready (fds : Table) : Prop where
  /-- The standard descriptors. -/
  standard : ∀ fd < 3, fds fd ≠ none
  /-- Two free ones. -/
  spare : ∃ a b, a < b ∧ b < NOFILE ∧ fds a = none ∧ fds b = none

/-- A standard descriptor leads elsewhere. -/
theorem Ready.update {fds : Table} (ready : Ready fds) {fd : Nat} (standard : fd < 3) (stream : Stream) :
    Ready (Function.update fds fd (some stream)) := by
  refine ⟨?_, ?_⟩
  · intro i below
    by_cases same : i = fd
    · rw [same, Function.update_self]
      exact Option.some_ne_none _
    · rw [Function.update_of_ne same]
      exact ready.standard i below
  · obtain ⟨a, b, order, inside, freeA, freeB⟩ := ready.spare
    have otherA : a ≠ fd := fun same => ready.standard a (by omega) freeA
    have otherB : b ≠ fd := fun same => ready.standard b (by omega) freeB
    refine ⟨a, b, order, inside, ?_, ?_⟩
    · rw [Function.update_of_ne otherA]
      exact freeA
    · rw [Function.update_of_ne otherB]
      exact freeB

/-- A standard descriptor that is closed is the one that is taken next where those below are open. -/
theorem lowest_closed {fds : Table} {fd : Nat} (small : fd < 3) (standard : ∀ i < 3, fds i ≠ none) :
    lowest (Function.update fds fd none) = some fd := by
  rw [lowest_eq_some]
  refine ⟨Nat.lt_trans small (by decide), Function.update_self fd _ _, ?_⟩
  intro i below
  rw [Function.update_of_ne (Nat.ne_of_lt below)]
  exact standard i (by omega)

/-- A pipe takes two descriptors that are free. -/
theorem Ready.openPipe {fds : Table} (ready : Ready fds) (place : Place) : ∃ a b, a ≠ b ∧ 3 ≤ a ∧ 3 ≤ b ∧
    fds a = none ∧ fds b = none ∧ openPipe place fds = some ((a, b),
      Function.update (Function.update fds a (some (.pipe place false))) b (some (.pipe place true))) := by
  obtain ⟨x, y, order, inside, freeX, freeY⟩ := ready.spare
  obtain ⟨a, first⟩ := lowest_found (by omega) freeX
  obtain ⟨_, freeA, lowA⟩ := lowest_eq_some.mp first
  have spare : ∃ z < NOFILE, Function.update fds a (some (.pipe place false)) z = none := by
    by_cases same : x = a
    · refine ⟨y, inside, ?_⟩
      rw [Function.update_of_ne (by omega)]
      exact freeY
    · refine ⟨x, by omega, ?_⟩
      rw [Function.update_of_ne same]
      exact freeX
  obtain ⟨z, insideZ, freeZ⟩ := spare
  obtain ⟨b, second⟩ := lowest_found insideZ freeZ
  obtain ⟨_, freeB, _⟩ := lowest_eq_some.mp second
  have apart : b ≠ a := by
    intro same
    rw [same, Function.update_self] at freeB
    contradiction
  rw [Function.update_of_ne apart] at freeB
  have large : ∀ fd, fds fd = none → 3 ≤ fd := by
    intro fd free
    by_contra small
    exact ready.standard fd (by omega) free
  refine ⟨a, b, apart.symm, large a freeA, large b freeB, freeA, freeB, ?_⟩
  unfold Shell.openPipe
  rw [first]
  change (lowest _).bind _ = _
  rw [second]
  rfl

/-- Descriptors that are open up to one below 3 are open up to 3 in the end. -/
theorem ensureOpen_ready {fds : Table} {a b i fuel : Nat} (order : a < b) (inside : b < NOFILE) (standard : 3 ≤ a)
    (freeA : fds a = none) (freeB : fds b = none) (small : i ≤ 3) (used : ∀ fd < i, fds fd ≠ none)
    (enough : 4 - i ≤ fuel) : Ready (ensureOpen fuel fds) := by
  induction fuel generalizing fds i with
  | zero => omega
  | succ fuel ih =>
    obtain ⟨fd, found⟩ := lowest_found (by omega) freeA
    obtain ⟨_, free, low⟩ := lowest_eq_some.mp found
    unfold ensureOpen
    rw [found]
    dsimp only
    by_cases large : 3 ≤ fd
    · rw [if_pos large, Function.update_idem]
      have same : Function.update fds fd none = fds := by
        rw [← free, Function.update_eq_self]
      rw [same]
      exact ⟨fun i below => low i (by omega), a, b, order, inside, freeA, freeB⟩
    · rw [if_neg large]
      have above : i ≤ fd := by
        by_contra below
        exact used fd (by omega) free
      refine ih (i := fd + 1) ?_ ?_ (by omega) ?_ (by omega)
      · rw [Function.update_of_ne (by omega)]
        exact freeA
      · rw [Function.update_of_ne (by omega)]
        exact freeB
      · intro j below
        by_cases last : j = fd
        · rw [last, Function.update_self]
          exact Option.some_ne_none _
        · rw [Function.update_of_ne last]
          exact low j (by omega)

/-- The shell has three descriptors open when it reads its first command. -/
theorem ensureOpen_opens {fds : Table} {a b : Nat} (order : a < b) (inside : b < NOFILE) (standard : 3 ≤ a)
    (freeA : fds a = none) (freeB : fds b = none) : Ready (ensureOpen (NOFILE + 1) fds) :=
  ensureOpen_ready (i := 0) order inside standard freeA freeB (by omega) (fun fd below => by omega) (by decide)

/-! ## What statements lead to -/

/-- The redirections of the command are of standard descriptors. -/
def Cmd.Standard : Cmd → Prop
  | .exec _ => True
  | .redir cmd _ _ fd => fd < 3 ∧ cmd.Standard
  | .list left right => left.Standard ∧ right.Standard
  | .pipe left right => left.Standard ∧ right.Standard
  | .back cmd => cmd.Standard

/-- The programs that statements lead to if no call fails. -/
def future (p : Nat × Nat) (fds : Table) : List Statement → List (List Slice × Table)
  | [] => []
  | .plumb call :: rest => future p (call.apply p fds) rest
  | .open file mode :: rest =>
    match lowest fds with
    | some fd => future p (Function.update fds fd (some (.file file mode))) rest
    | none => []
  | .pipe place :: rest =>
    match openPipe place fds with
    | some opened => future opened.1 opened.2 rest
    | none => []
  | .fork setup place cmd :: rest => programs place cmd (setup.foldl (Plumbing.apply p) fds) ++ future p fds rest
  | .wait :: rest => future p fds rest
  | .runcmd place cmd :: _ => programs place cmd fds
  | .exec argv :: _ => [(argv, fds)]
  | .exit :: _ => []

/-- Statements that find the descriptors they need. -/
def Able (p : Nat × Nat) (fds : Table) : List Statement → Prop
  | [] => True
  | .plumb call :: rest => Able p (call.apply p fds) rest
  | .open file mode :: rest => ∃ fd, lowest fds = some fd ∧ Able p (Function.update fds fd (some (.file file mode))) rest
  | .pipe place :: rest => ∃ opened, openPipe place fds = some opened ∧ Able opened.1 opened.2 rest
  | .fork setup _ cmd :: rest => (Ready (setup.foldl (Plumbing.apply p) fds) ∧ cmd.Standard) ∧ Able p fds rest
  | .wait :: rest => Able p fds rest
  | .runcmd _ cmd :: _ => Ready fds ∧ cmd.Standard
  | .exec _ :: _ => True
  | .exit :: _ => True

/-- The statements of a child. -/
theorem future_child (p : Nat × Nat) (fds : Table) (setup : List Plumbing) (place : Place) (cmd : Cmd) :
    future p fds (setup.map .plumb ++ [.runcmd place cmd]) = programs place cmd (setup.foldl (Plumbing.apply p) fds) := by
  induction setup generalizing fds with
  | nil => rfl
  | cons call setup ih => exact ih (call.apply p fds)

/-- A child finds the descriptors it needs if it does after its first calls. -/
theorem able_child {p : Nat × Nat} {fds : Table} {setup : List Plumbing} {place : Place} {cmd : Cmd}
    (ready : Ready (setup.foldl (Plumbing.apply p) fds) ∧ cmd.Standard) :
    Able p fds (setup.map .plumb ++ [.runcmd place cmd]) := by
  induction setup generalizing fds with
  | nil => exact ready
  | cons call setup ih => exact ih ready

section Pipes

variable {fds : Table} {a b : Nat} {place : Place}

/-- The table with a pipe. -/
def withPipe (fds : Table) (a b : Nat) (place : Place) : Table :=
  Function.update (Function.update fds a (some (.pipe place false))) b (some (.pipe place true))

/-- The two descriptors of a pipe closed. -/
theorem close_pipe (freeA : fds a = none) (freeB : fds b = none) :
    Function.update (Function.update (withPipe fds a b place) a none) b none = fds := by
  unfold withPipe
  funext fd
  by_cases sameB : fd = b
  · rw [sameB, Function.update_self, freeB]
  · rw [Function.update_of_ne sameB]
    by_cases sameA : fd = a
    · rw [sameA, Function.update_self, freeA]
    · rw [Function.update_of_ne sameA, Function.update_of_ne sameB, Function.update_of_ne sameA]

/-- A process of a pipe closes a standard descriptor, copies an end of the pipe to it and closes both ends. -/
theorem setup_end (ready : Ready fds) (largeA : 3 ≤ a) (largeB : 3 ≤ b) (freeA : fds a = none) (freeB : fds b = none)
    {fd : Nat} (small : fd < 3) (source : Descriptor) {stream : Stream} (isEnd : 3 ≤ source.fd (a, b))
    (leads : withPipe fds a b place (source.fd (a, b)) = some stream) :
    [Plumbing.close (.number fd), .dup source, .close .p0, .close .p1].foldl (Plumbing.apply (a, b))
      (withPipe fds a b place) = Function.update fds fd (some stream) := by
  have closed : lowest (Function.update (withPipe fds a b place) fd none) = some fd := by
    refine lowest_closed small ?_
    intro i below
    unfold withPipe
    rw [Function.update_of_ne (by omega), Function.update_of_ne (by omega)]
    exact ready.standard i below
  have kept : Function.update (withPipe fds a b place) fd none (source.fd (a, b)) = some stream := by
    rw [Function.update_of_ne (by omega)]
    exact leads
  have copied : Plumbing.apply (a, b) (Function.update (withPipe fds a b place) fd none) (.dup source) =
      Function.update (withPipe fds a b place) fd (some stream) := by
    simp only [Plumbing.apply, kept, closed]
    rw [Function.update_idem]
  have moved : Function.update (withPipe fds a b place) fd (some stream) =
      withPipe (Function.update fds fd (some stream)) a b place := by
    unfold withPipe
    rw [Function.update_comm (by omega), Function.update_comm (b := fd) (by omega)]
  change Plumbing.apply (a, b) (Plumbing.apply (a, b) (Plumbing.apply (a, b)
    (Function.update (withPipe fds a b place) fd none) (.dup source)) (.close .p0)) (.close .p1) = _
  rw [copied, moved]
  refine close_pipe ?_ ?_
  · exact (Function.update_of_ne (show a ≠ fd by omega) _ _).trans freeA
  · exact (Function.update_of_ne (show b ≠ fd by omega) _ _).trans freeB

end Pipes

/-- `runcmd` finds the descriptors it needs and leads to the programs of its command. -/
theorem runcmd_means {fds : Table} (ready : Ready fds) {cmd : Cmd} (standard : cmd.Standard) (p : Nat × Nat)
    (place : Place) :
    Able p fds (runcmd place cmd) ∧ future p fds (runcmd place cmd) = programs place cmd fds := by
  cases cmd with
  | exec argv =>
    cases argv with
    | nil => exact ⟨trivial, rfl⟩
    | cons word words => exact ⟨trivial, rfl⟩
  | redir cmd file mode fd =>
    obtain ⟨small, inner⟩ := standard
    have closed := lowest_closed small ready.standard
    have opened : Function.update (Function.update fds fd none) fd (some (.file file mode)) =
        Function.update fds fd (some (.file file mode)) := Function.update_idem _ _ _
    refine ⟨⟨fd, closed, ?_⟩, ?_⟩
    · refine ⟨?_, inner⟩
      change Ready (Function.update (Function.update fds fd none) fd _)
      rw [opened]
      exact ready.update small _
    · change future p (Function.update fds fd none) [.open file mode, .runcmd (place ++ [.left]) cmd] = _
      simp only [future, closed, opened]
      rfl
  | list left right =>
    obtain ⟨first, second⟩ := standard
    exact ⟨⟨⟨ready, first⟩, ready, second⟩, rfl⟩
  | pipe left right =>
    obtain ⟨first, second⟩ := standard
    obtain ⟨a, b, apart, largeA, largeB, freeA, freeB, opened⟩ := ready.openPipe place
    have writes : withPipe fds a b place b = some (.pipe place true) := Function.update_self b _ _
    have reads : withPipe fds a b place a = some (.pipe place false) := by
      unfold withPipe
      rw [Function.update_of_ne apart, Function.update_self]
    have left' : leftSetup.foldl (Plumbing.apply (a, b)) (withPipe fds a b place) =
        Function.update fds 1 (some (.pipe place true)) :=
      setup_end ready largeA largeB freeA freeB (by omega) .p1 largeB writes
    have right' : rightSetup.foldl (Plumbing.apply (a, b)) (withPipe fds a b place) =
        Function.update fds 0 (some (.pipe place false)) :=
      setup_end ready largeA largeB freeA freeB (by omega) .p0 largeA reads
    refine ⟨⟨((a, b), withPipe fds a b place), opened, ?_, ?_, trivial⟩, ?_⟩
    · refine ⟨?_, first⟩
      rw [left']
      exact ready.update (by omega) _
    · refine ⟨?_, second⟩
      rw [right']
      exact ready.update (by omega) _
    · simp only [runcmd, future, opened]
      change programs _ left (leftSetup.foldl (Plumbing.apply (a, b)) (withPipe fds a b place)) ++
        (programs _ right (rightSetup.foldl (Plumbing.apply (a, b)) (withPipe fds a b place)) ++ []) = _
      rw [left', right', List.append_nil]
      rfl
  | back cmd => exact ⟨⟨⟨ready, standard⟩, trivial⟩, List.append_nil _⟩

/-! ## What the processes start -/

namespace ShellProcess

/-- The programs a process leads to if no call fails. -/
def future (q : ShellProcess) : List (List Slice × Table) :=
  match q.doing with
  | .code rest => Shell.future q.p q.fds rest
  | _ => []

/-- The process finds the descriptors it needs. -/
def Able (q : ShellProcess) : Prop :=
  match q.doing with
  | .code rest => Shell.Able q.p q.fds rest
  | _ => True

variable {q q' : ShellProcess} {rest code : List Statement}

/-- What a process with statements leads to. -/
theorem future_code (at' : q.doing = .code rest) : q.future = Shell.future q.p q.fds rest := by
  unfold future
  rw [at']

/-- What a process with statements finds. -/
theorem able_code (at' : q.doing = .code rest) : q.Able ↔ Shell.Able q.p q.fds rest := by
  unfold Able
  rw [at']

/-- A statement of its own leaves a process with the same programs to lead to. -/
theorem execute_keeps (able : q.Able) (next : q.execute = some q') : q'.Able ∧ q'.future = q.future := by
  unfold execute at next
  cases at' : q.doing with
  | code rest =>
    rw [able_code at'] at able
    rw [future_code at']
    rw [at'] at next
    cases rest with
    | nil => cases next
    | cons stmt rest =>
      cases stmt with
      | plumb call =>
        cases next
        exact ⟨able, rfl⟩
      | «open» file mode =>
        obtain ⟨fd, found, able'⟩ := able
        simp only [found] at next
        cases next
        simp only [Shell.future, found]
        exact ⟨able', rfl⟩
      | pipe place =>
        obtain ⟨opened, found, able'⟩ := able
        simp only [found] at next
        cases next
        simp only [Shell.future, found]
        exact ⟨able', rfl⟩
      | runcmd place cmd =>
        cases next
        exact runcmd_means able.1 able.2 q.p place
      | fork setup place cmd => cases next
      | wait => cases next
      | exec argv => cases next
      | exit => cases next
  | program argv =>
    rw [at'] at next
    cases next
  | zombie =>
    rw [at'] at next
    cases next

/-- The exit of its parent changes nothing of what a process leads to. -/
theorem orphaned_keeps (parent : Nat) (q : ShellProcess) :
    (q.orphaned parent).doing = q.doing ∧ (q.orphaned parent).fds = q.fds ∧ (q.orphaned parent).p = q.p ∧
      (q.orphaned parent).pid = q.pid := by
  unfold orphaned
  split_ifs
  · exact ⟨rfl, rfl, rfl, rfl⟩
  · exact ⟨rfl, rfl, rfl, rfl⟩

/-- The programs an orphan leads to. -/
theorem orphaned_future (parent : Nat) (q : ShellProcess) : (q.orphaned parent).future = q.future := by
  obtain ⟨doing, fds, p, _⟩ := orphaned_keeps parent q
  unfold future
  rw [doing, fds, p]

/-- An orphan finds the descriptors it needs. -/
theorem orphaned_able (parent : Nat) (able : q.Able) : (q.orphaned parent).Able := by
  obtain ⟨doing, fds, p, _⟩ := orphaned_keeps parent q
  unfold Able at able ⊢
  rw [doing, fds, p]
  exact able

end ShellProcess

namespace ShellState

/-- The programs the processes lead to if no call fails. -/
def pending (procs : Multiset ShellProcess) : Multiset (List Slice × Table) :=
  procs.bind fun q => (q.future : Multiset (List Slice × Table))

/-- One process and the others. -/
theorem pending_cons (q : ShellProcess) (rest : Multiset ShellProcess) :
    pending (q ::ₘ rest) = (q.future : Multiset (List Slice × Table)) + pending rest :=
  Multiset.cons_bind q rest _

/-- The exit of a process changes nothing of what the others lead to. -/
theorem pending_orphaned (parent : Nat) (rest : Multiset ShellProcess) :
    pending (rest.map (ShellProcess.orphaned parent)) = pending rest := by
  unfold pending
  rw [Multiset.bind_map]
  refine Multiset.bind_congr fun q _ => ?_
  rw [ShellProcess.orphaned_future]

end ShellState

/-- Every process finds the descriptors it needs. -/
def AllAble (s : ShellState) : Prop := ∀ q ∈ s.procs, q.Able

/-- The programs started and those the processes lead to if no call fails. -/
def ShellState.total (s : ShellState) : Multiset (List Slice × Table) := s.started + ShellState.pending s.procs

/-- A step after which every process finds the descriptors it needs, the programs started and led to being
the same if no call fails, and otherwise no others. -/
def Accounts (s : ShellState) (event : ShellEvent) (t : ShellState) : Prop :=
  AllAble t ∧ t.total ≤ s.total ∧ (event = .runs → t.total = s.total)

/-- A step that leaves the programs started and led to as they are. -/
theorem Accounts.same {s t : ShellState} {event : ShellEvent} (able : AllAble t) (total : t.total = s.total) :
    Accounts s event t := ⟨able, le_of_eq total, fun _ => total⟩

section Steps

variable {q q' z : ShellProcess} {rest : Multiset ShellProcess} {n n' : Nat}
  {started : Multiset (List Slice × Table)} {s t : ShellState} {event : ShellEvent} {code : List Statement}

/-- A process goes on, the others being the same. -/
theorem replace_able (able : AllAble ⟨q ::ₘ rest, n, started⟩) {started' : Multiset (List Slice × Table)}
    (here : q'.Able) : AllAble ⟨q' ::ₘ rest, n', started'⟩ := by
  intro r member
  rcases Multiset.mem_cons.mp member with same | member
  · rw [same]
    exact here
  · exact able r (Multiset.mem_cons_of_mem member)

/-- A process goes on and leads to the same programs. -/
theorem total_replace (same : q'.future = q.future) :
    (⟨q' ::ₘ rest, n', started⟩ : ShellState).total = (⟨q ::ₘ rest, n, started⟩ : ShellState).total := by
  unfold ShellState.total
  rw [ShellState.pending_cons, ShellState.pending_cons, same]

/-- A process ends. -/
theorem Accounts.zombie (able : AllAble ⟨q ::ₘ rest, n, started⟩) (none : q.future = []) :
    Accounts ⟨q ::ₘ rest, n, started⟩ event
      ⟨{ q with doing := .zombie } ::ₘ rest.map (ShellProcess.orphaned q.pid), n, started⟩ := by
  refine .same ?_ ?_
  · intro r member
    rcases Multiset.mem_cons.mp member with same | member
    · rw [same]
      trivial
    · obtain ⟨child, member', orphan⟩ := Multiset.mem_map.mp member
      rw [← orphan]
      exact ShellProcess.orphaned_able q.pid (able child (Multiset.mem_cons_of_mem member'))
  · unfold ShellState.total
    rw [ShellState.pending_cons, ShellState.pending_cons, ShellState.pending_orphaned, none]
    rfl

/-- Every step keeps account of the programs. -/
theorem Step.accounts (step : Step s event t) (able : AllAble s) : Accounts s event t := by
  cases step with
  | @execute q q' rest n started next =>
    obtain ⟨able', same⟩ := ShellProcess.execute_keeps (able q (Multiset.mem_cons_self q rest)) next
    exact .same (replace_able able able') (total_replace same)
  | @fork q rest n started setup place cmd code next =>
    have here := (ShellProcess.able_code next).mp (able q (Multiset.mem_cons_self q rest))
    obtain ⟨ready, later⟩ := here
    refine .same ?_ ?_
    · intro r member
      rcases Multiset.mem_cons.mp member with same | member
      · rw [same]
        exact later
      rcases Multiset.mem_cons.mp member with same | member
      · rw [same]
        exact able_child ready
      · exact able r (Multiset.mem_cons_of_mem member)
    · have parent : q.future = programs place cmd (setup.foldl (Plumbing.apply q.p) q.fds) ++ future q.p q.fds code :=
        ShellProcess.future_code next
      have child : (q.child n setup place cmd).future = programs place cmd (setup.foldl (Plumbing.apply q.p) q.fds) :=
        future_child q.p q.fds setup place cmd
      have goes : (q.goto code).future = future q.p q.fds code := rfl
      unfold ShellState.total
      rw [ShellState.pending_cons, ShellState.pending_cons, ShellState.pending_cons, parent, child, goes,
        ← Multiset.coe_add, add_assoc]
      exact congrArg _ (add_left_comm _ _ _)
  | @wait q z rest n started code next child zombie =>
    have here := (ShellProcess.able_code next).mp (able q (Multiset.mem_cons_self q _))
    have nothing : z.future = [] := by
      unfold ShellProcess.future
      rw [zombie]
    refine .same ?_ ?_
    · intro r member
      rcases Multiset.mem_cons.mp member with same | member
      · rw [same]
        exact here
      · exact able r (Multiset.mem_cons_of_mem (Multiset.mem_cons_of_mem member))
    · have goes : (q.goto code).future = q.future := (ShellProcess.future_code next).symm
      unfold ShellState.total
      rw [ShellState.pending_cons, ShellState.pending_cons, ShellState.pending_cons, goes, nothing,
        Multiset.coe_nil, zero_add]
  | @alone q rest n started code next alone =>
    have here := (ShellProcess.able_code next).mp (able q (Multiset.mem_cons_self q rest))
    exact .same (replace_able able here) (total_replace (ShellProcess.future_code next).symm)
  | @exec q rest n started argv code next =>
    refine .same (replace_able able trivial) ?_
    have starts : q.future = [(argv, q.fds)] := ShellProcess.future_code next
    have nothing : ShellProcess.future { q with doing := .program argv } = [] := rfl
    unfold ShellState.total
    rw [ShellState.pending_cons, ShellState.pending_cons, starts, nothing, Multiset.coe_nil, zero_add,
      Multiset.coe_singleton, ← add_assoc]
    exact congrArg (· + _) ((Multiset.singleton_add _ _).symm.trans (add_comm _ _))
  | @exit q rest n started code next => exact .zombie able (ShellProcess.future_code next)
  | @ends q rest n started argv next =>
    refine .zombie able ?_
    unfold ShellProcess.future
    rw [next]
  | @reaped z rest n started orphan zombie =>
    have nothing : z.future = [] := by
      unfold ShellProcess.future
      rw [zombie]
    refine .same (fun r member => able r (Multiset.mem_cons_of_mem member)) ?_
    unfold ShellState.total
    rw [ShellState.pending_cons, nothing, Multiset.coe_nil, zero_add]
  | @fails q rest n started stmt code next may =>
    refine ⟨replace_able able trivial, ?_, fun runs => by cases runs⟩
    unfold ShellState.total
    rw [ShellState.pending_cons, ShellState.pending_cons]
    refine Multiset.add_le_add_left ?_
    refine Multiset.add_le_add_right ?_
    exact Multiset.zero_le _

end Steps

/-- A run keeps account of the programs. -/
theorem run_accounts {s t : ShellState} {events : List ShellEvent} (run : Run Step s events t) (able : AllAble s) :
    AllAble t ∧ t.total ≤ s.total ∧ (.fails ∉ events → t.total = s.total) := by
  induction run with
  | nil s => exact ⟨able, le_rfl, fun _ => rfl⟩
  | @cons s t u event events step _ ih =>
    obtain ⟨able', within, same⟩ := step.accounts able
    obtain ⟨able'', within', same'⟩ := ih able'
    refine ⟨able'', within'.trans within, fun none => ?_⟩
    have runs : event = .runs := by
      cases event with
      | runs => rfl
      | fails => exact absurd List.mem_cons_self none
    rw [same' fun member => none (List.mem_cons_of_mem _ member), same runs]

/-! ## Waiting for the children -/

/-- How many more children the statements wait for than they make, up to the next part of the command. -/
def owed : List Statement → Int
  | [] => 0
  | .wait :: rest => owed rest + 1
  | .fork _ _ _ :: rest => owed rest - 1
  | .plumb _ :: rest => owed rest
  | .open _ _ :: rest => owed rest
  | .pipe _ :: rest => owed rest
  | .runcmd _ _ :: _ => 0
  | .exec _ :: _ => 0
  | .exit :: _ => 0

/-- Statements that wait for each child, and run parts without `&`. -/
def Waits : List Statement → Prop
  | [] => True
  | .wait :: rest => 0 ≤ owed rest ∧ Waits rest
  | .fork _ _ cmd :: rest => cmd.Foreground ∧ Waits rest
  | .plumb _ :: rest => Waits rest
  | .open _ _ :: rest => Waits rest
  | .pipe _ :: rest => Waits rest
  | .runcmd _ cmd :: _ => cmd.Foreground
  | .exec _ :: _ => True
  | .exit :: _ => True

/-- `runcmd` without `&` waits for each child it makes. -/
theorem runcmd_waits {cmd : Cmd} (foreground : cmd.Foreground) (place : Place) :
    Waits (runcmd place cmd) ∧ owed (runcmd place cmd) = 0 := by
  cases cmd with
  | exec argv =>
    cases argv with
    | nil => exact ⟨trivial, rfl⟩
    | cons word words => exact ⟨trivial, rfl⟩
  | redir cmd file mode fd => exact ⟨foreground, rfl⟩
  | list left right => exact ⟨⟨foreground.1, le_rfl, foreground.2⟩, rfl⟩
  | pipe left right => exact ⟨⟨foreground.1, foreground.2, by decide, le_rfl, trivial⟩, rfl⟩
  | back cmd => exact foreground.elim

/-- A child without `&` has no children yet. -/
theorem child_waits {cmd : Cmd} (foreground : cmd.Foreground) (setup : List Plumbing) (place : Place) :
    Waits (setup.map .plumb ++ [.runcmd place cmd]) ∧ owed (setup.map .plumb ++ [.runcmd place cmd]) = 0 := by
  induction setup with
  | nil => exact ⟨foreground, rfl⟩
  | cons call setup ih => exact ih

namespace ShellProcess

/-- How many children the process has still to wait for. -/
def owes (q : ShellProcess) : Int :=
  match q.doing with
  | .code rest => owed rest
  | _ => 0

/-- The process waits for each of its children. -/
def Waits (q : ShellProcess) : Prop :=
  match q.doing with
  | .code rest => Shell.Waits rest
  | _ => True

variable {q q' : ShellProcess} {rest : List Statement}

/-- The debts of a process with statements. -/
theorem owes_code (at' : q.doing = .code rest) : q.owes = owed rest := by
  unfold owes
  rw [at']

/-- The statements of a process that waits. -/
theorem waits_code (at' : q.doing = .code rest) : q.Waits ↔ Shell.Waits rest := by
  unfold Waits
  rw [at']

/-- A statement of its own leaves a process with the same children to wait for. -/
theorem execute_waits (waits : q.Waits) (next : q.execute = some q') :
    q'.Waits ∧ q'.owes = q.owes ∧ q'.pid = q.pid ∧ q'.parent = q.parent := by
  unfold execute at next
  cases at' : q.doing with
  | code rest =>
    rw [waits_code at'] at waits
    rw [owes_code at']
    rw [at'] at next
    cases rest with
    | nil => cases next
    | cons stmt rest =>
      cases stmt with
      | plumb call =>
        cases next
        exact ⟨waits, rfl, rfl, rfl⟩
      | «open» file mode =>
        obtain ⟨fd, _, same⟩ := Option.map_eq_some_iff.mp next
        rw [← same]
        exact ⟨waits, rfl, rfl, rfl⟩
      | pipe place =>
        obtain ⟨opened, _, same⟩ := Option.map_eq_some_iff.mp next
        rw [← same]
        exact ⟨waits, rfl, rfl, rfl⟩
      | runcmd place cmd =>
        cases next
        obtain ⟨waits', owed'⟩ := runcmd_waits waits place
        exact ⟨waits', owed', rfl, rfl⟩
      | fork setup place cmd => cases next
      | wait => cases next
      | exec argv => cases next
      | exit => cases next
  | program argv =>
    rw [at'] at next
    cases next
  | zombie =>
    rw [at'] at next
    cases next

end ShellProcess

/-- How many of the processes are children of this one. -/
def childrenOf (procs : Multiset ShellProcess) (pid : Nat) : Nat := procs.countP fun z => z.parent = some pid

/-- The processes have pids of their own, and older parents. -/
structure Kinfolk (root : Nat) (procs : Multiset ShellProcess) (n : Nat) : Prop where
  /-- Each has a pid of its own. -/
  distinct : (procs.map ShellProcess.pid).Nodup
  /-- The pids are below the next one. -/
  below : ∀ q ∈ procs, q.pid < n
  /-- Each but the first has an older parent. -/
  present : ∀ z ∈ procs, (z.pid = root ∧ z.parent = none) ∨ ∃ q ∈ procs, z.parent = some q.pid ∧ q.pid < z.pid

/-- The processes are a family in which each waits for its children. -/
structure Family (root : Nat) (s : ShellState) : Prop where
  kin : Kinfolk root s.procs s.nextpid
  /-- Each waits for its children. -/
  waits : ∀ q ∈ s.procs, q.Waits
  /-- Each has the children it waits for. -/
  counts : ∀ q ∈ s.procs, (childrenOf s.procs q.pid : Int) = q.owes

section Families

variable {q q' z : ShellProcess} {rest procs : Multiset ShellProcess} {n n' root : Nat}
  {started started' : Multiset (List Slice × Table)} {s t : ShellState} {event : ShellEvent} {code : List Statement}

/-- The children among one process and the others. -/
theorem childrenOf_cons (q : ShellProcess) (rest : Multiset ShellProcess) (pid : Nat) :
    childrenOf (q ::ₘ rest) pid = childrenOf rest pid + if q.parent = some pid then 1 else 0 := Multiset.countP_cons _ _ _

/-- No process is a child where none is counted. -/
theorem no_child {pid : Nat} (none : childrenOf procs pid = 0) : ∀ r ∈ procs, r.parent ≠ some pid := by
  unfold childrenOf at none
  rwa [Multiset.countP_eq_zero] at none

/-- The other processes have other pids. -/
theorem Kinfolk.other (kin : Kinfolk root (q ::ₘ rest) n) : ∀ r ∈ rest, r.pid ≠ q.pid := by
  intro r member same
  have distinct := kin.distinct
  rw [Multiset.map_cons, Multiset.nodup_cons] at distinct
  exact distinct.1 (Multiset.mem_map.mpr ⟨r, member, same⟩)

/-- No process is its own parent. -/
theorem Kinfolk.irreflexive (kin : Kinfolk root procs n) (member : q ∈ procs) : q.parent ≠ some q.pid := by
  intro own
  rcases kin.present q member with ⟨_, orphan⟩ | ⟨r, _, child, older⟩
  · rw [orphan] at own
    contradiction
  · rw [child] at own
    have same := Option.some.inj own
    omega

/-- A process goes on. -/
theorem Kinfolk.change (kin : Kinfolk root (q ::ₘ rest) n) (pid : q'.pid = q.pid) (parent : q'.parent = q.parent) :
    Kinfolk root (q' ::ₘ rest) n := by
  have found : ∀ z ∈ q ::ₘ rest, ∃ z' ∈ q' ::ₘ rest, z'.pid = z.pid := by
    intro z member
    rcases Multiset.mem_cons.mp member with same | member
    · rw [same]
      exact ⟨q', Multiset.mem_cons_self q' rest, pid⟩
    · exact ⟨z, Multiset.mem_cons_of_mem member, rfl⟩
  have present : ∀ z ∈ q ::ₘ rest, (z.pid = root ∧ z.parent = none) ∨
      ∃ r ∈ q' ::ₘ rest, z.parent = some r.pid ∧ r.pid < z.pid := by
    intro z member
    rcases kin.present z member with first | ⟨r, member', child, older⟩
    · exact .inl first
    · obtain ⟨r', member'', same⟩ := found r member'
      rw [← same] at child older
      exact .inr ⟨r', member'', child, older⟩
  have first := Multiset.mem_cons_self q rest
  refine ⟨?_, ?_, ?_⟩
  · have distinct := kin.distinct
    rw [Multiset.map_cons] at distinct ⊢
    rw [pid]
    exact distinct
  · intro z member
    rcases Multiset.mem_cons.mp member with same | member
    · rw [same, pid]
      exact kin.below q first
    · exact kin.below z (Multiset.mem_cons_of_mem member)
  · intro z member
    rcases Multiset.mem_cons.mp member with same | member
    · rw [same, pid, parent]
      exact present q first
    · exact present z (Multiset.mem_cons_of_mem member)

/-- A process goes on with other children to wait for. -/
theorem Kinfolk.family (kin : Kinfolk root (q ::ₘ rest) n) (others : ∀ r ∈ rest, r.Waits)
    (counts : ∀ r ∈ rest, (childrenOf (q ::ₘ rest) r.pid : Int) = r.owes) (waits : q'.Waits)
    (pid : q'.pid = q.pid) (parent : q'.parent = q.parent) (count : (childrenOf (q ::ₘ rest) q.pid : Int) = q'.owes) :
    Family root ⟨q' ::ₘ rest, n, started⟩ := by
  have same : ∀ pid, childrenOf (q' ::ₘ rest) pid = childrenOf (q ::ₘ rest) pid := by
    intro pid
    rw [childrenOf_cons, childrenOf_cons, parent]
  refine ⟨kin.change pid parent, ?_, ?_⟩
  · intro r member
    rcases Multiset.mem_cons.mp member with here | member
    · rw [here]
      exact waits
    · exact others r member
  · intro r member
    change (childrenOf (q' ::ₘ rest) r.pid : Int) = r.owes
    rw [same]
    rcases Multiset.mem_cons.mp member with here | member
    · rw [here, pid]
      exact count
    · exact counts r member

/-- A process goes on with the same children. -/
theorem Family.replace (family : Family root ⟨q ::ₘ rest, n, started⟩) (waits : q'.Waits) (owes : q'.owes = q.owes)
    (pid : q'.pid = q.pid) (parent : q'.parent = q.parent) : Family root ⟨q' ::ₘ rest, n, started'⟩ := by
  have count := family.counts q (Multiset.mem_cons_self q rest)
  rw [← owes] at count
  exact family.kin.family (fun r member => family.waits r (Multiset.mem_cons_of_mem member))
    (fun r member => family.counts r (Multiset.mem_cons_of_mem member)) waits pid parent count

/-- A zombie has no children. -/
theorem Family.childless (family : Family root s) (member : z ∈ s.procs) (zombie : z.owes = 0) :
    ∀ r ∈ s.procs, r.parent ≠ some z.pid := by
  have counted := family.counts z member
  rw [zombie] at counted
  exact no_child (Int.natCast_eq_zero.mp counted)

/-- A process without children goes. -/
theorem Kinfolk.remove (kin : Kinfolk root (z ::ₘ rest) n) (childless : ∀ r ∈ z ::ₘ rest, r.parent ≠ some z.pid) :
    Kinfolk root rest n := by
  have distinct := kin.distinct
  rw [Multiset.map_cons, Multiset.nodup_cons] at distinct
  refine ⟨distinct.2, fun q member => kin.below q (Multiset.mem_cons_of_mem member), ?_⟩
  intro q member
  rcases kin.present q (Multiset.mem_cons_of_mem member) with first | ⟨r, member', child, older⟩
  · exact .inl first
  · rcases Multiset.mem_cons.mp member' with same | member'
    · rw [same] at child
      exact absurd child (childless q (Multiset.mem_cons_of_mem member))
    · exact .inr ⟨r, member', child, older⟩

/-- A new process comes, a child of one that is there. -/
theorem Kinfolk.add (kin : Kinfolk root procs n) (member : q ∈ procs) (pid : z.pid = n) (parent : z.parent = some q.pid) :
    Kinfolk root (z ::ₘ procs) (n + 1) := by
  have older := kin.below q member
  refine ⟨?_, ?_, ?_⟩
  · rw [Multiset.map_cons, Multiset.nodup_cons]
    refine ⟨fun taken => ?_, kin.distinct⟩
    obtain ⟨r, member', same⟩ := Multiset.mem_map.mp taken
    have below := kin.below r member'
    omega
  · intro r member'
    rcases Multiset.mem_cons.mp member' with same | member'
    · rw [same, pid]
      omega
    · have below := kin.below r member'
      omega
  · intro r member'
    rcases Multiset.mem_cons.mp member' with same | member'
    · rw [same, pid]
      exact .inr ⟨q, Multiset.mem_cons_of_mem member, parent, older⟩
    · rcases kin.present r member' with first | ⟨m, member'', child, before⟩
      · exact .inl first
      · exact .inr ⟨m, Multiset.mem_cons_of_mem member'', child, before⟩

/-- The end of a process without children leaves no orphans. -/
theorem map_orphaned (childless : ∀ r ∈ rest, r.parent ≠ some n) : rest.map (ShellProcess.orphaned n) = rest := by
  refine (Multiset.map_congr rfl fun r member => ?_).trans (Multiset.map_id rest)
  unfold ShellProcess.orphaned
  rw [if_neg (childless r member)]
  rfl

/-- A process without children ends. -/
theorem Family.zombie (family : Family root ⟨q ::ₘ rest, n, started⟩) (nothing : q.owes = 0) :
    Family root ⟨{ q with doing := .zombie } ::ₘ rest.map (ShellProcess.orphaned q.pid), n, started⟩ := by
  have childless := family.childless (Multiset.mem_cons_self q rest) nothing
  rw [map_orphaned fun r member => childless r (Multiset.mem_cons_of_mem member)]
  exact family.replace trivial nothing.symm rfl rfl

/-- Every step without a failing call keeps the family. -/
theorem Step.family (step : Step s event t) (runs : event = .runs) (family : Family root s) : Family root t := by
  cases step with
  | @execute q q' rest n started next =>
    obtain ⟨waits, owes, pid, parent⟩ :=
      ShellProcess.execute_waits (family.waits q (Multiset.mem_cons_self q rest)) next
    exact family.replace waits owes pid parent
  | @fork q rest n started setup place cmd code next =>
    have first := Multiset.mem_cons_self q rest
    obtain ⟨foreground, later⟩ := (ShellProcess.waits_code next).mp (family.waits q first)
    obtain ⟨waits, debt⟩ := child_waits foreground setup place
    have count := family.counts q first
    have kin := family.kin.add (z := q.child n setup place cmd) first rfl rfl
    rw [Multiset.cons_swap] at kin
    have counts : ∀ pid, childrenOf (q ::ₘ q.child n setup place cmd ::ₘ rest) pid =
        childrenOf (q ::ₘ rest) pid + if q.pid = pid then 1 else 0 := by
      intro pid
      rw [Multiset.cons_swap, childrenOf_cons]
      exact congrArg _ (if_congr ⟨fun same => Option.some.inj same, fun same => congrArg _ same⟩ rfl rfl)
    refine kin.family ?_ ?_ later rfl rfl ?_
    · intro r member
      rcases Multiset.mem_cons.mp member with same | member
      · rw [same]
        exact waits
      · exact family.waits r (Multiset.mem_cons_of_mem member)
    · intro r member
      rw [counts]
      rcases Multiset.mem_cons.mp member with same | member
      · have below := family.kin.below q first
        have unborn : childrenOf (q ::ₘ rest) n = 0 := by
          unfold childrenOf
          rw [Multiset.countP_eq_zero]
          intro r' member' child
          rcases family.kin.present r' member' with ⟨_, orphan⟩ | ⟨m, member'', child', _⟩
          · rw [orphan] at child
            contradiction
          · rw [child'] at child
            have below := family.kin.below m member''
            have same := Option.some.inj child
            change m.pid < n at below
            omega
        rw [same]
        change ((childrenOf (q ::ₘ rest) n + if q.pid = n then 1 else 0 : Nat) : Int) = owed _
        change q.pid < n at below
        rw [unborn, if_neg (by omega), debt]
        rfl
      · have other := family.kin.other r member
        rw [if_neg other.symm]
        exact family.counts r (Multiset.mem_cons_of_mem member)
    · rw [counts, if_pos rfl]
      rw [ShellProcess.owes_code next] at count
      change (childrenOf (q ::ₘ rest) q.pid : Int) = owed code - 1 at count
      change ((childrenOf (q ::ₘ rest) q.pid + 1 : Nat) : Int) = owed code
      push_cast
      omega
  | @wait q z rest n started code next child zombie =>
    have first := Multiset.mem_cons_self q (z ::ₘ rest)
    have nothing : z.owes = 0 := by
      unfold ShellProcess.owes
      rw [zombie]
    have childless := family.childless (Multiset.mem_cons_of_mem (Multiset.mem_cons_self z rest)) nothing
    have kin : Kinfolk root (z ::ₘ q ::ₘ rest) n := by
      rw [Multiset.cons_swap]
      exact family.kin
    have counts : ∀ pid, childrenOf (q ::ₘ z ::ₘ rest) pid = childrenOf (q ::ₘ rest) pid + if q.pid = pid then 1 else 0 := by
      intro pid
      rw [Multiset.cons_swap, childrenOf_cons, child]
      exact congrArg _ (if_congr ⟨fun same => Option.some.inj same, fun same => congrArg _ same⟩ rfl rfl)
    have removed := kin.remove fun r member => childless r (by rwa [Multiset.cons_swap] at member)
    refine removed.family ?_ ?_ ((ShellProcess.waits_code next).mp (family.waits q first)).2 rfl rfl ?_
    · intro r member
      exact family.waits r (Multiset.mem_cons_of_mem (Multiset.mem_cons_of_mem member))
    · intro r member
      have other := removed.other r member
      have count := family.counts r (Multiset.mem_cons_of_mem (Multiset.mem_cons_of_mem member))
      change (childrenOf (q ::ₘ z ::ₘ rest) r.pid : Int) = r.owes at count
      rw [counts, if_neg other.symm] at count
      exact count
    · have count := family.counts q first
      change (childrenOf (q ::ₘ z ::ₘ rest) q.pid : Int) = q.owes at count
      rw [counts, if_pos rfl, ShellProcess.owes_code next] at count
      change ((childrenOf (q ::ₘ rest) q.pid + 1 : Nat) : Int) = owed code + 1 at count
      change (childrenOf (q ::ₘ rest) q.pid : Int) = owed code
      push_cast at count
      omega
  | @alone q rest n started code next alone =>
    have first := Multiset.mem_cons_self q rest
    have count := family.counts q first
    have waits := (ShellProcess.waits_code next).mp (family.waits q first)
    have none : childrenOf (q ::ₘ rest) q.pid = 0 := by
      unfold childrenOf
      rw [Multiset.countP_eq_zero]
      intro r member
      rcases Multiset.mem_cons.mp member with same | member
      · rw [same]
        exact family.kin.irreflexive first
      · exact alone r member
    change (childrenOf (q ::ₘ rest) q.pid : Int) = q.owes at count
    rw [none, ShellProcess.owes_code next] at count
    have debt : owed (.wait :: code) = owed code + 1 := rfl
    have covered := waits.1
    omega
  | @exec q rest n started argv code next =>
    exact family.replace trivial (ShellProcess.owes_code next).symm rfl rfl
  | @exit q rest n started code next => exact family.zombie (ShellProcess.owes_code next)
  | @ends q rest n started argv next =>
    refine family.zombie ?_
    unfold ShellProcess.owes
    rw [next]
  | @reaped z rest n started orphan zombie =>
    have nothing : z.owes = 0 := by
      unfold ShellProcess.owes
      rw [zombie]
    have childless := family.childless (Multiset.mem_cons_self z rest) nothing
    refine ⟨family.kin.remove childless, fun r member => family.waits r (Multiset.mem_cons_of_mem member), ?_⟩
    intro r member
    have count := family.counts r (Multiset.mem_cons_of_mem member)
    change (childrenOf (z ::ₘ rest) r.pid : Int) = r.owes at count
    rw [childrenOf_cons, orphan, if_neg (Option.some_ne_none _).symm] at count
    exact count
  | @fails q rest n started stmt code next may => cases runs

/-- A run without failing calls keeps the family. -/
theorem run_family {events : List ShellEvent} (run : Run Step s events t) (none : .fails ∉ events)
    (family : Family root s) : Family root t := by
  induction run with
  | nil s => exact family
  | @cons s t u event events step _ ih =>
    have runs : event = .runs := by
      cases event with
      | runs => rfl
      | fails => exact absurd List.mem_cons_self none
    exact ih (fun member => none (List.mem_cons_of_mem _ member)) (step.family runs family)

/-- Where the first process has ended, no other is left. -/
theorem Family.alone (family : Family root s) (ended : ∀ q ∈ s.procs, q.pid = root → q.doing = .zombie) :
    ∀ q ∈ s.procs, q.pid = root := by
  have byPid : ∀ pid, ∀ q ∈ s.procs, q.pid = pid → q.pid = root := by
    intro pid
    induction pid using Nat.strong_induction_on with
    | _ pid ih =>
      intro q member same
      rcases family.kin.present q member with ⟨first, _⟩ | ⟨r, member', child, older⟩
      · exact first
      · have parent := ih r.pid (by omega) r member' rfl
        have nothing : r.owes = 0 := by
          unfold ShellProcess.owes
          rw [ended r member' parent]
        exact absurd child (family.childless member' nothing q member)
  intro q member
  exact byPid q.pid q member rfl

/-- At first there is one process, which leads to the programs of the command. -/
theorem start_total (pid : Nat) (fds : Table) (cmd : Cmd) :
    (ShellState.start pid fds cmd).total = (programs [] cmd fds : Multiset (List Slice × Table)) := by
  unfold ShellState.total ShellState.start
  dsimp only
  rw [zero_add, ← Multiset.cons_zero, ShellState.pending_cons]
  exact add_zero _

/-- At first there is one process, which has no children. -/
theorem start_family (pid : Nat) (fds : Table) {cmd : Cmd} (foreground : cmd.Foreground) :
    Family pid (.start pid fds cmd) := by
  refine ⟨⟨Multiset.nodup_singleton pid, ?_, ?_⟩, ?_, ?_⟩
  · intro q member
    rw [Multiset.mem_singleton.mp member]
    exact Nat.lt_succ_self pid
  · intro q member
    rw [Multiset.mem_singleton.mp member]
    exact .inl ⟨rfl, rfl⟩
  · intro q member
    rw [Multiset.mem_singleton.mp member]
    exact foreground
  · intro q member
    have childless : childrenOf (ShellState.start pid fds cmd).procs q.pid = 0 := by
      unfold childrenOf
      rw [Multiset.countP_eq_zero]
      intro r member'
      rw [Multiset.mem_singleton.mp member']
      exact Option.some_ne_none _ ∘ Eq.symm
    rw [childless, Multiset.mem_singleton.mp member]
    rfl

end Families

/-! ## Commands that the parser makes -/

/-- Redirections of a command with standard redirections. -/
theorem standard_around (redirs : List Redirection) {cmd : Cmd} (standard : cmd.Standard) :
    (redirs.foldl Redirection.around cmd).Standard := by
  induction redirs generalizing cmd with
  | nil => exact standard
  | cons redir redirs ih =>
    refine ih ?_
    unfold Redirection.around
    split_ifs
    · exact ⟨by decide, standard⟩
    · exact ⟨by decide, standard⟩

/-- Signs `&` add no redirection. -/
theorem standard_back (count : Nat) {cmd : Cmd} (standard : cmd.Standard) : (Cmd.back^[count] cmd).Standard := by
  induction count generalizing cmd with
  | zero => exact standard
  | succ count ih =>
    have inner : (Cmd.back cmd).Standard := standard
    exact ih inner

/-- The grammar derives commands with standard redirections. -/
theorem Derives.standard {nonterminal : Nonterminal} {ts : List Token} {cmd : Cmd}
    (derived : Derives nonterminal ts cmd) : cmd.Standard := by
  induction derived with
  | line count _ ih => exact standard_back count ih
  | list count _ _ ih ihRest => exact ⟨standard_back count ih, ihRest⟩
  | command _ ih => exact ih
  | pipe _ _ ih ihRest => exact ⟨ih, ihRest⟩
  | block _ redirs ih => exact standard_around redirs ih
  | simple simple _ => exact standard_around _ trivial

/-- `parsecmd` returns commands with standard redirections. -/
theorem parsecmd_standard {line : CommandLine} {fuel : Nat} {result : ParsedCommand}
    (parsed : parsecmd line fuel = .ok result) : result.cmd.Standard := by
  obtain ⟨ts, tokens⟩ := tokens_exist line (Nat.zero_le line.es)
  obtain ⟨s, read, _, _⟩ := (parsecmd_ok_iff tokens).mp parsed
  obtain ⟨used, rest, _, derived, _⟩ := ((sound line fuel).ofLine tokens).result _ read
  exact derived.standard

/-- The programs of a command have the other descriptors as they are. -/
theorem programs_other {cmd : Cmd} (standard : cmd.Standard) {place : Place} {fds : Table} :
    ∀ program ∈ programs place cmd fds, ∀ fd, 3 ≤ fd → program.2 fd = fds fd := by
  induction cmd generalizing place fds with
  | exec argv =>
    intro program member fd large
    cases argv with
    | nil => cases member
    | cons word words =>
      rw [List.mem_singleton.mp member]
  | redir cmd file mode fd' ih =>
    intro program member fd large
    have small := standard.1
    rw [ih standard.2 program member fd large, Function.update_of_ne (by omega)]
  | list left right ihLeft ihRight =>
    intro program member fd large
    rcases List.mem_append.mp member with member | member
    · exact ihLeft standard.1 program member fd large
    · exact ihRight standard.2 program member fd large
  | pipe left right ihLeft ihRight =>
    intro program member fd large
    rcases List.mem_append.mp member with member | member
    · rw [ihLeft standard.1 program member fd large, Function.update_of_ne (by omega)]
    · rw [ihRight standard.2 program member fd large, Function.update_of_ne (by omega)]
  | back cmd ih =>
    intro program member fd large
    exact ih standard program member fd large

/-! ## Runs -/

/-- However the processes of a command line are interleaved and whichever calls fail, each program of its
command is started at most once, with just the standard descriptors that redirections and pipes give it and the
others of the shell, so that no end of a pipe is left open in it. If no call fails, the programs
started and those the processes lead to are those of the command; and if there is no `&` either, all
are started and ended when the process that `main` waits for has ended. -/
theorem runcmd_starts_programs {fds : Table} {a b : Nat} (order : a < b) (inside : b < NOFILE) (large : 3 ≤ a)
    (freeA : fds a = none) (freeB : fds b = none) {line : CommandLine} {fuel pid : Nat} {result : ParsedCommand}
    (parsed : parsecmd line fuel = .ok result) {events : List ShellEvent} {s : ShellState}
    (run : Run Step (.start pid (ensureOpen (NOFILE + 1) fds) result.cmd) events s) :
    s.started ≤ (programs [] result.cmd (ensureOpen (NOFILE + 1) fds) : Multiset (List Slice × Table)) ∧
      (∀ program ∈ s.started, ∀ fd, 3 ≤ fd → program.2 fd = ensureOpen (NOFILE + 1) fds fd) ∧
      (.fails ∉ events → s.started + ShellState.pending s.procs =
        (programs [] result.cmd (ensureOpen (NOFILE + 1) fds) : Multiset (List Slice × Table))) ∧
      (.fails ∉ events → result.cmd.Foreground → (∀ q ∈ s.procs, q.pid = pid → q.doing = .zombie) →
        (∀ q ∈ s.procs, q.pid = pid) ∧
          s.started = (programs [] result.cmd (ensureOpen (NOFILE + 1) fds) : Multiset (List Slice × Table))) := by
  have ready := ensureOpen_opens order inside large freeA freeB
  have standard := parsecmd_standard parsed
  have able : AllAble (.start pid (ensureOpen (NOFILE + 1) fds) result.cmd) := by
    intro q member
    rw [Multiset.mem_singleton.mp member]
    exact ⟨ready, standard⟩
  have whole : (ShellState.start pid (ensureOpen (NOFILE + 1) fds) result.cmd).total =
      (programs [] result.cmd (ensureOpen (NOFILE + 1) fds) : Multiset (List Slice × Table)) :=
    start_total pid _ _
  obtain ⟨_, within, same⟩ := run_accounts run able
  rw [whole] at within same
  have started : s.started ≤ (programs [] result.cmd (ensureOpen (NOFILE + 1) fds) : Multiset (List Slice × Table)) :=
    (Multiset.le_add_right _ _).trans within
  refine ⟨started, ?_, same, ?_⟩
  · intro program member
    exact programs_other standard program (Multiset.mem_coe.mp (Multiset.mem_of_le started member))
  · intro none foreground ended
    have alone := (run_family run none (start_family pid _ foreground)).alone ended
    refine ⟨alone, ?_⟩
    have nothing : ShellState.pending s.procs = 0 := by
      unfold ShellState.pending
      refine (Multiset.bind_congr fun q member => ?_).trans (Multiset.bind_zero s.procs)
      unfold ShellProcess.future
      rw [ended q member (alone q member)]
      rfl
    have total := same none
    unfold ShellState.total at total
    rw [nothing, add_zero] at total
    exact total

/-- The line `a|b>x`. -/
def pipeline : CommandLine := ⟨[97, 124, 98, 62, 120], by simp⟩

/-- What it is parsed to. -/
def pipelineCommand : ParsedCommand :=
  ⟨.pipe (.exec [⟨0, 1⟩]) (.redir (.exec [⟨2, 3⟩]) ⟨4, 5⟩ 0x201 1), [97, 0, 98, 0, 120, 0]⟩

/-- It is parsed. -/
theorem parsecmd_pipeline : parsecmd pipeline 30 = .ok pipelineCommand := by
  have option : (parsecmd pipeline 30).toOption = some pipelineCommand := by decide +kernel
  cases parsed : parsecmd pipeline 30 with
  | ok result =>
    rw [parsed] at option
    exact congrArg _ (Option.some.inj option)
  | error halt =>
    rw [parsed] at option
    cases option

section Pipeline

variable {q r : ShellProcess} {rest : Multiset ShellProcess} {n : Nat} {started : Multiset (List Slice × Table)}
  {events : List ShellEvent} {s : ShellState}

/-- Another process goes on. -/
theorem run_swapped (run : Run Step ⟨r ::ₘ q ::ₘ rest, n, started⟩ events s) :
    Run Step ⟨q ::ₘ r ::ₘ rest, n, started⟩ events s := by
  rw [Multiset.cons_swap]
  exact run

/-- The program of a process without children ends. -/
theorem run_ended {argv : List Slice} (next : q.doing = .program argv) (childless : ∀ r ∈ rest, r.parent ≠ some q.pid)
    (run : Run Step ⟨{ q with doing := .zombie } ::ₘ rest, n, started⟩ events s) :
    Run Step ⟨q ::ₘ rest, n, started⟩ (.runs :: events) s := by
  have same : rest.map (ShellProcess.orphaned q.pid) = rest :=
    (Multiset.map_congr rfl fun r member => if_neg (childless r member)).trans (Multiset.map_id rest)
  rw [← same] at run
  exact .cons (.ends next) run

/-- The processes of `a|b>x`: the right one runs to its end before the left one. -/
theorem pipeline_ends : ∃ s, Run Step (.start 3 (ensureOpen (NOFILE + 1) fun _ => none) pipelineCommand.cmd)
    (.replicate 26 .runs) s ∧ ∀ q ∈ s.procs, q.doing = .zombie := by
  refine ⟨_, .cons (.execute rfl) <| .cons (.execute rfl) <| .cons (.fork rfl) <| .cons (.fork rfl) <|
    .cons (.execute rfl) <| .cons (.execute rfl) <| run_swapped <|
    .cons (.execute rfl) <| .cons (.execute rfl) <| .cons (.execute rfl) <| .cons (.execute rfl) <|
    .cons (.execute rfl) <| .cons (.execute rfl) <| .cons (.execute rfl) <| .cons (.execute rfl) <|
    .cons (.exec rfl) <| run_ended rfl ?_ <| run_swapped <|
    .cons (.wait rfl rfl rfl) <| run_swapped <|
    .cons (.execute rfl) <| .cons (.execute rfl) <| .cons (.execute rfl) <| .cons (.execute rfl) <|
    .cons (.execute rfl) <| .cons (.exec rfl) <| run_ended rfl ?_ <| run_swapped <|
    .cons (.wait rfl rfl rfl) <| .cons (.exit rfl) <| .nil _, ?_⟩
  · intro r member
    rcases Multiset.mem_cons.mp member with same | member
    · rw [same]
      nofun
    · rw [Multiset.mem_singleton.mp member]
      decide
  · intro r member
    rw [Multiset.mem_singleton.mp member]
    nofun
  · intro q member
    rw [Multiset.mem_singleton.mp member]

/-- Both programs of `a|b>x` are started, one with the pipe, the other one with the pipe and the file. -/
theorem runcmd_starts_programs_pipeline :
    ∃ s, Run Step (.start 3 (ensureOpen (NOFILE + 1) fun _ => none) pipelineCommand.cmd) (.replicate 26 .runs) s ∧
      s.started = (programs [] pipelineCommand.cmd (ensureOpen (NOFILE + 1) fun _ => none) :
        Multiset (List Slice × Table)) := by
  obtain ⟨s, run, ended⟩ := pipeline_ends
  have all := runcmd_starts_programs (a := 3) (b := 4) (by decide) (by decide) (by decide) rfl rfl
    parsecmd_pipeline run
  exact ⟨s, run, (all.2.2.2 (by decide) ⟨trivial, trivial⟩ fun q member _ => ended q member).2⟩

end Pipeline

end Shell

end Xv6
