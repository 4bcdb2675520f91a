import Mathlib.Data.Multiset.MapFold
import Mathlib.Logic.Function.Basic
import Xv6.Shell
import Xv6.Syscall

/-!
# How the shell runs a command

`runcmd` of `sh.c` and the start of its `main`, one call at a time, for all processes that run it. A
descriptor is known by what it leads to, and a pipe by the place in the command that made it. A
process that has called `exec` runs a program of which only the end matters here. No process is
killed.
-/

namespace Xv6

namespace Shell

/-! ## Descriptors -/

/-- The side of a command that a part of it is on. -/
inductive Side where
  /-- The only part or the left one. -/
  | left
  /-- The right part. -/
  | right
  deriving DecidableEq

/-- Where a part of a command is, from the outside in. -/
abbrev Place : Type := List Side

/-- What a descriptor leads to. -/
inductive Stream where
  | console
  /-- What the shell was started with. -/
  | given (n : Nat)
  /-- A file opened for a redirection. -/
  | file (name : Slice) (mode : Nat)
  /-- An end of the pipe of the command at a place. -/
  | pipe (place : Place) (writable : Bool)
  deriving DecidableEq

/-- The descriptors of a process. -/
abbrev Table : Type := Nat → Option Stream

/-- The descriptor that `open`, `dup` and `pipe` take. -/
def lowest (fds : Table) : Option Nat := (List.range NOFILE).find? fun fd => (fds fd).isNone

/-- How `main` ensures that three descriptors are open, over `fuel` calls of `open` at most. -/
def ensureOpen : Nat → Table → Table
  | 0, fds => fds
  | fuel + 1, fds =>
    match lowest fds with
    | none => fds
    | some fd =>
      if 3 ≤ fd then Function.update (Function.update fds fd (some .console)) fd none
      else ensureOpen fuel (Function.update fds fd (some .console))

/-! ## Statements -/

/-- A descriptor in a call. -/
inductive Descriptor where
  /-- A number. -/
  | number (fd : Nat)
  /-- `p[0]`. -/
  | p0
  /-- `p[1]`. -/
  | p1
  deriving DecidableEq

/-- A call on descriptors whose result is not used. -/
inductive Plumbing where
  /-- `close(fd)`. -/
  | close (fd : Descriptor)
  /-- `dup(fd)`. -/
  | dup (fd : Descriptor)
  deriving DecidableEq

/-- A statement of `runcmd`. -/
inductive Statement where
  /-- `close` or `dup`. -/
  | plumb (call : Plumbing)
  /-- `open` of a redirection. -/
  | open (file : Slice) (mode : Nat)
  /-- `pipe(p)`. -/
  | pipe (place : Place)
  /-- `fork1()`, whose child makes some calls and then runs a part of the command. -/
  | fork (setup : List Plumbing) (place : Place) (cmd : Cmd)
  /-- `wait()`. -/
  | wait
  /-- `runcmd` of a part of the command. -/
  | runcmd (place : Place) (cmd : Cmd)
  | exec (argv : List Slice)
  /-- `exit()`. -/
  | exit
  deriving DecidableEq

/-- What the left process of a pipe calls. -/
def leftSetup : List Plumbing := [.close (.number 1), .dup .p1, .close .p0, .close .p1]

/-- What the right process of a pipe calls. -/
def rightSetup : List Plumbing := [.close (.number 0), .dup .p0, .close .p0, .close .p1]

/-- `runcmd`. -/
def runcmd (place : Place) : Cmd → List Statement
  | .exec [] => [.exit]
  | .exec (word :: words) => [.exec (word :: words), .exit]
  | .redir cmd file mode fd => [.plumb (.close (.number fd)), .open file mode, .runcmd (place ++ [.left]) cmd]
  | .list left right =>
    [.fork [] (place ++ [.left]) left, .wait, .runcmd (place ++ [.right]) right]
  | .pipe left right =>
    [.pipe place, .fork leftSetup (place ++ [.left]) left, .fork rightSetup (place ++ [.right]) right,
      .plumb (.close .p0), .plumb (.close .p1), .wait, .wait, .exit]
  | .back cmd => [.fork [] (place ++ [.left]) cmd, .exit]

/-! ## Processes -/

/-- What a process is at. -/
inductive Doing where
  /-- The statements of `runcmd` that are left. -/
  | code (rest : List Statement)
  /-- A program. -/
  | program (argv : List Slice)
  /-- Nothing: it is a zombie. -/
  | zombie
  deriving DecidableEq

/-- A process of the shell. -/
structure ShellProcess where
  /-- Its pid. -/
  pid : Nat
  /-- The pid of its parent; none for the process that `main` started and for orphans. -/
  parent : Option Nat
  /-- Its descriptors. -/
  fds : Table
  p : Nat × Nat
  /-- What it is at. -/
  doing : Doing

/-- The number of a descriptor. -/
def Descriptor.fd (p : Nat × Nat) : Descriptor → Nat
  | .number fd => fd
  | .p0 => p.1
  | .p1 => p.2

/-- `close` and `dup`. -/
def Plumbing.apply (p : Nat × Nat) (fds : Table) : Plumbing → Table
  | .close fd => Function.update fds (fd.fd p) none
  | .dup fd =>
    match fds (fd.fd p), lowest fds with
    | some stream, some new => Function.update fds new (some stream)
    | _, _ => fds

/-- `pipe`: the two descriptors, and the table with them. -/
def openPipe (place : Place) (fds : Table) : Option ((Nat × Nat) × Table) := do
  let p0 ← lowest fds
  let fds := Function.update fds p0 (some (.pipe place false))
  let p1 ← lowest fds
  some ((p0, p1), Function.update fds p1 (some (.pipe place true)))

namespace ShellProcess

/-- Go on to other statements. -/
def goto (q : ShellProcess) (rest : List Statement) : ShellProcess := { q with doing := .code rest }

/-- The next statement, where it only concerns the process itself and succeeds. -/
def execute (q : ShellProcess) : Option ShellProcess :=
  match q.doing with
  | .code (.plumb call :: rest) => some { q.goto rest with fds := call.apply q.p q.fds }
  | .code (.open file mode :: rest) =>
    (lowest q.fds).map fun fd => { q.goto rest with fds := Function.update q.fds fd (some (.file file mode)) }
  | .code (.pipe place :: rest) =>
    (openPipe place q.fds).map fun opened => { q.goto rest with p := opened.1, fds := opened.2 }
  | .code (.runcmd place cmd :: _) => some (q.goto (runcmd place cmd))
  | _ => none

/-- A child, with the statements it has to execute. -/
def child (q : ShellProcess) (pid : Nat) (setup : List Plumbing) (place : Place) (cmd : Cmd) : ShellProcess :=
  { q with
    pid
    parent := some q.pid
    doing := .code (setup.map .plumb ++ [.runcmd place cmd]) }

/-- The process after the exit of its parent. -/
def orphaned (parent : Nat) (q : ShellProcess) : ShellProcess :=
  if q.parent = some parent then { q with parent := none } else q

end ShellProcess

/-- A call that can fail, so that the process exits. -/
def Statement.mayFail : Statement → Bool
  | .open _ _ => true
  | .pipe _ => true
  | .fork _ _ _ => true
  | .exec _ => true
  | _ => false

/-- The processes that run a command. -/
structure ShellState where
  /-- The processes. -/
  procs : Multiset ShellProcess
  /-- The next pid. -/
  nextpid : Nat
  /-- The programs that were started, with their descriptors at that time. -/
  started : Multiset (List Slice × Table)

/-- Whether a call fails in a step. -/
inductive ShellEvent where
  /-- None does. -/
  | runs
  /-- One does. -/
  | fails
  deriving DecidableEq

/-- A process makes a step. -/
inductive Step : ShellState → ShellEvent → ShellState → Prop where
  /-- A statement that only concerns the process itself. -/
  | execute {q q' : ShellProcess} {rest n started} (next : q.execute = some q') :
      Step ⟨q ::ₘ rest, n, started⟩ .runs ⟨q' ::ₘ rest, n, started⟩
  /-- `fork1()`. -/
  | fork {q : ShellProcess} {rest n started setup place cmd code}
      (next : q.doing = .code (.fork setup place cmd :: code)) :
      Step ⟨q ::ₘ rest, n, started⟩ .runs ⟨q.goto code ::ₘ q.child n setup place cmd ::ₘ rest, n + 1, started⟩
  /-- `wait()` with a child that is a zombie. -/
  | wait {q z : ShellProcess} {rest n started code} (next : q.doing = .code (.wait :: code))
      (child : z.parent = some q.pid) (zombie : z.doing = .zombie) :
      Step ⟨q ::ₘ z ::ₘ rest, n, started⟩ .runs ⟨q.goto code ::ₘ rest, n, started⟩
  /-- `wait()` without children. -/
  | alone {q : ShellProcess} {rest n started code} (next : q.doing = .code (.wait :: code))
      (alone : ∀ z ∈ rest, z.parent ≠ some q.pid) :
      Step ⟨q ::ₘ rest, n, started⟩ .runs ⟨q.goto code ::ₘ rest, n, started⟩
  | exec {q : ShellProcess} {rest n started argv code} (next : q.doing = .code (.exec argv :: code)) :
      Step ⟨q ::ₘ rest, n, started⟩ .runs
        ⟨{ q with doing := .program argv } ::ₘ rest, n, (argv, q.fds) ::ₘ started⟩
  /-- `exit()`. -/
  | exit {q : ShellProcess} {rest n started code} (next : q.doing = .code (.exit :: code)) :
      Step ⟨q ::ₘ rest, n, started⟩ .runs
        ⟨{ q with doing := .zombie } ::ₘ rest.map (ShellProcess.orphaned q.pid), n, started⟩
  /-- The exit of a program. -/
  | ends {q : ShellProcess} {rest n started argv} (next : q.doing = .program argv) :
      Step ⟨q ::ₘ rest, n, started⟩ .runs
        ⟨{ q with doing := .zombie } ::ₘ rest.map (ShellProcess.orphaned q.pid), n, started⟩
  /-- `init`, or `main`, waits for a zombie. -/
  | reaped {z : ShellProcess} {rest n started} (orphan : z.parent = none) (zombie : z.doing = .zombie) :
      Step ⟨z ::ₘ rest, n, started⟩ .runs ⟨rest, n, started⟩
  /-- A call that fails. -/
  | fails {q : ShellProcess} {rest n started stmt code} (next : q.doing = .code (stmt :: code))
      (may : stmt.mayFail = true) :
      Step ⟨q ::ₘ rest, n, started⟩ .fails ⟨q.goto [.exit] ::ₘ rest, n, started⟩

/-- `main` has forked a process, which calls `runcmd`. -/
def ShellState.start (pid : Nat) (fds : Table) (cmd : Cmd) : ShellState where
  procs := {⟨pid, none, fds, (0, 0), .code [.runcmd [] cmd]⟩}
  nextpid := pid + 1
  started := 0

/-! ## What a command means -/

/-- The programs of a command, each with the descriptors it is to get. -/
def programs (place : Place) : Cmd → Table → List (List Slice × Table)
  | .exec [], _ => []
  | .exec (word :: words), fds => [(word :: words, fds)]
  | .redir cmd file mode fd, fds =>
    programs (place ++ [.left]) cmd (Function.update fds fd (some (.file file mode)))
  | .list left right, fds => programs (place ++ [.left]) left fds ++ programs (place ++ [.right]) right fds
  | .pipe left right, fds =>
    programs (place ++ [.left]) left (Function.update fds 1 (some (.pipe place true))) ++
      programs (place ++ [.right]) right (Function.update fds 0 (some (.pipe place false)))
  | .back cmd, fds => programs (place ++ [.left]) cmd fds

/-- The command has no `&`. -/
def Cmd.Foreground : Cmd → Prop
  | .exec _ => True
  | .redir cmd _ _ _ => cmd.Foreground
  | .list left right => left.Foreground ∧ right.Foreground
  | .pipe left right => left.Foreground ∧ right.Foreground
  | .back _ => False

end Shell

end Xv6
