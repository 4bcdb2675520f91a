import Xv6.Pipe

/-!
# Console input

`consoleintr` and `consoleread` of `console.c`, for any number of readers. An interrupt handles
all keys that `getc` returns under `cons.lock`. A read runs from where it acquires the lock, or is
back from `sleep` with it, to where it sleeps or returns; interrupts and other reads run in
between. Indices are unsigned 32-bit numbers. What is echoed to the screen is left out.
-/

namespace Xv6

/-- `INPUT_BUF` of `console.c`. -/
def INPUT_BUF : Nat := 128

/-- `C(x)`: the key Control-x. -/
def ctrl (x : UInt8) : UInt8 := x - 64

/-- `C('D')`: end of file. -/
def ctrlD : UInt8 := ctrl 68

/-- `'\n'`. -/
def lineFeed : UInt8 := 10

/-- `'\r'`. -/
def carriageReturn : UInt8 := 13

/-- A difference of unsigned 32-bit numbers. -/
def sub32 (a b : Nat) : Nat := (a + 2 ^ 32 - b) % 2 ^ 32

/-- `input`. -/
structure Input where
  /-- `buf[INPUT_BUF]`. -/
  buf : Nat → UInt8
  /-- Read index. -/
  r : Nat
  /-- Write index. -/
  w : Nat
  /-- Edit index. -/
  e : Nat

namespace Input

/-- The loop of kill line; each round brings `e` one closer to `w`. -/
def killLine (i : Input) : Nat → Input
  | 0 => i
  | fuel + 1 =>
    if i.e ≠ i.w ∧ i.buf (sub32 i.e 1 % INPUT_BUF) ≠ lineFeed then
      killLine { i with e := sub32 i.e 1 } fuel
    else i

/-- The character stored for a key. -/
def typed (c : UInt8) : UInt8 := if c = carriageReturn then lineFeed else c

/-- One round of the loop of `consoleintr`, with whether it wakes the readers. -/
def key (i : Input) (c : UInt8) : Input × Bool :=
  if c = ctrl 80 then (i, false)
  else if c = ctrl 85 then (i.killLine (sub32 i.e i.w), false)
  else if c = ctrl 72 ∨ c = 127 then
    if i.e ≠ i.w then ({ i with e := sub32 i.e 1 }, false) else (i, false)
  else if c ≠ 0 ∧ sub32 i.e i.r < INPUT_BUF then
    let c := typed c
    let i := { i with buf := Function.update i.buf (i.e % INPUT_BUF) c, e := add32 i.e 1 }
    if c = lineFeed ∨ c = ctrlD ∨ i.e = add32 i.r INPUT_BUF then ({ i with w := i.e }, true)
    else (i, false)
  else (i, false)

/-- The loop of `consoleintr` over the keys that `getc` returns. -/
def consoleintr (i : Input) : List UInt8 → Input × Bool
  | [] => (i, false)
  | c :: keys =>
    let first := i.key c
    let rest := first.1.consoleintr keys
    (rest.1, first.2 || rest.2)

/-- The loop of `consoleread` with `n` characters left of `target`: the bytes stored to `dst` and
how the stretch ends. -/
def consoleread (killed : Bool) (target : Nat) (i : Input) : Nat → Input × List UInt8 × Pause
  | 0 => (i, [], .finished target)
  | n + 1 =>
    if i.r = i.w then (i, [], if killed then .failed else .asleep)
    else
      let c := i.buf (i.r % INPUT_BUF)
      let i := { i with r := add32 i.r 1 }
      if c = ctrlD then
        if n + 1 < target then ({ i with r := sub32 i.r 1 }, [], .finished (target - (n + 1) : Nat))
        else (i, [], .finished (target - (n + 1) : Nat))
      else if c = lineFeed then (i, [c], .finished (target - n : Nat))
      else
        let rest := consoleread killed target i n
        (rest.1, c :: rest.2.1, rest.2.2)

end Input

/-! ## Reads in progress -/

/-- A call of `consoleread` and its process. -/
structure ConsoleRead where
  /-- The `n` it was called with; a negative one reads nothing, like 0. -/
  n : Int
  /-- How many characters are left to read. -/
  left : Nat
  /-- `killed` of the process. -/
  killed : Bool
  /-- Where the call is; asleep is asleep on `input.r`. -/
  stage : PipeStage

/-- The console and the reads from it. -/
structure Console where
  /-- The input buffer. -/
  input : Input
  /-- The reads made so far, each under a number of its own. -/
  reads : Nat → Option ConsoleRead

/-- What may happen next. -/
inductive ConsoleEvent where
  /-- An interrupt with these keys. -/
  | interrupt (keys : List UInt8)
  /-- A process calls `consoleread`. -/
  | enter (c : Nat) (n : Int) (killed : Bool)
  /-- A read runs to where it sleeps or returns. -/
  | go (c : Nat)
  /-- The process of a read is killed, and woken if it sleeps. -/
  | kill (c : Nat)

/-- What has happened. -/
inductive ConsoleStep where
  /-- Keys were handled. -/
  | typed (keys : List UInt8)
  /-- A read was called. -/
  | entered (c : Nat) (n : Int)
  /-- A read stored `text`, used up so many characters of the buffer, and slept or returned. -/
  | read (c : Nat) (text : List UInt8) (used : Nat) (pause : Pause)
  /-- A process was killed. -/
  | killed (c : Nat)

namespace Console

/-- `wakeup(&input.r)`. -/
def wakeup (s : Console) : Console :=
  { s with reads := fun c => (s.reads c).map fun call =>
      if call.stage = .asleep then { call with stage := .ready } else call }

/-- A read changes. -/
def setRead (s : Console) (c : Nat) (call : ConsoleRead) : Console :=
  { s with reads := Function.update s.reads c (some call) }

/-- `consoleintr`. -/
def interrupt (s : Console) (keys : List UInt8) : Console :=
  let after := s.input.consoleintr keys
  if after.2 then { s with input := after.1 }.wakeup else { s with input := after.1 }

/-- A stretch of `consoleread`. -/
def stretch (s : Console) (c : Nat) (call : ConsoleRead) : ConsoleStep × Console :=
  let after := s.input.consoleread call.killed call.n.toNat call.left
  (.read c after.2.1 (sub32 after.1.r s.input.r) after.2.2,
    { s with input := after.1 }.setRead c
      { call with left := call.left - after.2.1.length, stage := after.2.2.stage })

/-- One step. Numbers of reads are not used twice. -/
def next (s : Console) : ConsoleEvent → Option (ConsoleStep × Console)
  | .interrupt keys => some (.typed keys, s.interrupt keys)
  | .enter c n killed =>
    if s.reads c = none then some (.entered c n, s.setRead c ⟨n, n.toNat, killed, .ready⟩) else none
  | .go c =>
    match s.reads c with
    | none => none
    | some call => if call.stage = .ready then some (s.stretch c call) else none
  | .kill c =>
    match s.reads c with
    | none => none
    | some call =>
      let stage := if call.stage = .asleep then .ready else call.stage
      some (.killed c, s.setRead c { call with killed := true, stage := stage })

/-- Steps with what they did. -/
def Step (s : Console) (step : ConsoleStep) (t : Console) : Prop := ∃ event, s.next event = some (step, t)

/-- The console after boot, without reads. -/
def start : Console where
  input := { buf := fun _ => 0, r := 0, w := 0, e := 0 }
  reads := fun _ => none

end Console

end Xv6
