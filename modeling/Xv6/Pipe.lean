import Xv6.Fs

/-!
# Pipes

`pipe.c` with any number of calls of `pipewrite` and `piperead` on one pipe. A call runs from
where it acquires the pipe's lock, or is back from `sleep` with it, to where it sleeps or
returns; other calls run in between. The buffer a writer was given does not change while it sleeps.
-/

namespace Xv6

/-- `PIPESIZE` of `pipe.c`. -/
def PIPESIZE : Nat := 512

/-- `struct pipe`. -/
structure Pipe where
  /-- `data[PIPESIZE]`. -/
  data : Nat → UInt8
  /-- `nread`, a `uint`. -/
  nread : Nat
  /-- `nwrite`, a `uint`. -/
  nwrite : Nat
  /-- Read fd is still open. -/
  readopen : Bool
  /-- Write fd is still open. -/
  writeopen : Bool

/-- The pipe set up by `pipealloc` on a page with any contents. -/
def pipealloc.pipe (page : Nat → UInt8) : Pipe where
  data := page
  nread := 0
  nwrite := 0
  readopen := true
  writeopen := true

/-- `p->data[p->nwrite++ % PIPESIZE] = byte`. -/
def Pipe.store (p : Pipe) (byte : UInt8) : Pipe :=
  { p with data := Function.update p.data (p.nwrite % PIPESIZE) byte, nwrite := add32 p.nwrite 1 }

/-- `p->nread++`. -/
def Pipe.skip (p : Pipe) : Pipe := { p with nread := add32 p.nread 1 }

/-- How a stretch of a call ends. -/
inductive Pause where
  /-- The call sleeps. -/
  | asleep
  /-- The call returns `-1` early. -/
  | failed
  /-- The call returns from its end. -/
  | finished (result : Int)
  deriving DecidableEq

/-- What the call has returned. -/
def Pause.result : Pause → Option Int
  | .asleep => none
  | .failed => some (-1)
  | .finished r => some r

/-- The loop of `pipewrite` over the bytes of `addr` not yet stored, to where it sleeps or
returns. -/
def pipewriteLoop (killed : Bool) (n : Int) : Pipe → List UInt8 → Pipe × List UInt8 × Pause
  | p, [] => (p, [], .finished n)
  | p, byte :: rest =>
    if p.nwrite = add32 p.nread PIPESIZE then
      if p.readopen = false ∨ killed = true then (p, byte :: rest, .failed)
      else (p, byte :: rest, .asleep)
    else pipewriteLoop killed n (p.store byte) rest

/-- The copy loop of `piperead`, with so many bytes of `addr` left. -/
def pipereadLoop : Pipe → Nat → Pipe × List UInt8
  | p, 0 => (p, [])
  | p, left + 1 =>
    if p.nread = p.nwrite then (p, [])
    else
      let (q, bytes) := pipereadLoop p.skip left
      (q, p.data (p.nread % PIPESIZE) :: bytes)

/-- `piperead` of `n` bytes, to where it sleeps or returns, with the bytes stored to `addr`. -/
def pipereadStretch (killed : Bool) (n : Int) (p : Pipe) : Pipe × List UInt8 × Pause :=
  if p.nread = p.nwrite ∧ p.writeopen = true then
    if killed = true then (p, [], .failed) else (p, [], .asleep)
  else
    let (q, bytes) := pipereadLoop p n.toNat
    (q, bytes, .finished bytes.length)

/-! ## Calls in progress -/

/-- A call of one of the two functions. -/
inductive PipeRequest where
  /-- `pipewrite(p, addr, n)` with the bytes at `addr`. -/
  | write (n : Int) (addr : List UInt8) (sized : addr.length = n.toNat)
  /-- `piperead(p, addr, n)`. -/
  | read (n : Int)

/-- Whether the call is of `pipewrite`. -/
def PipeRequest.writes : PipeRequest → Bool
  | .write .. => true
  | .read _ => false

/-- The bytes the call has to store. -/
def PipeRequest.bytes : PipeRequest → List UInt8
  | .write _ addr _ => addr
  | .read _ => []

/-- Where a call is. -/
inductive PipeStage where
  /-- It may run. -/
  | ready
  /-- It is asleep, a writer on `nwrite` and a reader on `nread`. -/
  | asleep
  /-- It has returned. -/
  | returned
  deriving DecidableEq

/-- The stage after a stretch. -/
def Pause.stage : Pause → PipeStage
  | .asleep => .asleep
  | .failed => .returned
  | .finished _ => .returned

/-- A call and its process. -/
structure PipeCall where
  /-- The function and its arguments. -/
  request : PipeRequest
  /-- `killed` of the process. -/
  killed : Bool
  /-- The bytes a writer has not stored yet. -/
  rest : List UInt8
  /-- Where the call is. -/
  stage : PipeStage

/-- A pipe and the calls on it. -/
structure Pipes where
  pipe : Pipe
  /-- Whether `pipeclose` has freed the pipe. -/
  freed : Bool
  /-- The calls made so far, each under a number of its own. -/
  calls : Nat → Option PipeCall

/-- What may happen next. -/
inductive PipeEvent where
  /-- A process makes a call. -/
  | enter (c : Nat) (request : PipeRequest) (killed : Bool)
  /-- A call runs to where it sleeps or returns. -/
  | go (c : Nat)
  /-- The process of a call is killed, and woken if it sleeps. -/
  | kill (c : Nat)
  /-- `pipeclose(p, writable)`. -/
  | close (writable : Bool)

/-- What has happened, with the bytes stored or returned by the stretch of a call. -/
inductive PipeStep where
  /-- A call was made. -/
  | entered (c : Nat) (request : PipeRequest)
  /-- A writer stored bytes, then slept or returned. -/
  | wrote (c : Nat) (bytes : List UInt8) (pause : Pause)
  /-- A reader slept, or returned with bytes in its buffer. -/
  | read (c : Nat) (bytes : List UInt8) (pause : Pause)
  /-- A process was killed. -/
  | killed (c : Nat)
  /-- An end was closed. -/
  | closed (writable : Bool)

namespace Pipes

/-- `wakeup` on the channel of the writers, or on that of the readers. -/
def wakeup (s : Pipes) (writers : Bool) : Pipes :=
  { s with calls := fun c => (s.calls c).map fun call =>
      if call.stage = .asleep ∧ call.request.writes = writers then { call with stage := .ready } else call }

/-- A call changes. -/
def setCall (s : Pipes) (c : Nat) (call : PipeCall) : Pipes :=
  { s with calls := Function.update s.calls c (some call) }

/-- A stretch of `pipewrite`: its end wakes the readers, unless it failed. -/
def pipewrite (s : Pipes) (c : Nat) (call : PipeCall) (n : Int) : PipeStep × Pipes :=
  let (p, rest, pause) := pipewriteLoop call.killed n s.pipe call.rest
  let woken := if pause = .failed then { s with pipe := p } else { s with pipe := p }.wakeup false
  (.wrote c (call.rest.take (call.rest.length - rest.length)) pause,
    woken.setCall c { call with rest := rest, stage := pause.stage })

/-- A stretch of `piperead`: a return from its end wakes the writers. -/
def piperead (s : Pipes) (c : Nat) (call : PipeCall) (n : Int) : PipeStep × Pipes :=
  let (p, bytes, pause) := pipereadStretch call.killed n s.pipe
  let woken :=
    if pause = .failed ∨ pause = .asleep then { s with pipe := p } else { s with pipe := p }.wakeup true
  (.read c bytes pause, woken.setCall c { call with stage := pause.stage })

/-- `pipeclose`: closing an end wakes the other one, and the pipe is freed when both are closed. -/
def pipeclose (s : Pipes) (writable : Bool) : Pipes :=
  let p := if writable then { s.pipe with writeopen := false } else { s.pipe with readopen := false }
  let t := { s with pipe := p }.wakeup (!writable)
  { t with freed := !p.readopen && !p.writeopen }

/-- One step. Numbers of calls are not used twice, and nothing happens to a freed pipe. -/
def next (s : Pipes) (event : PipeEvent) : Option (PipeStep × Pipes) :=
  if s.freed then none
  else match event with
    | .enter c request killed =>
      match s.calls c with
      | some _ => none
      | none => some (.entered c request, s.setCall c ⟨request, killed, request.bytes, .ready⟩)
    | .go c =>
      match s.calls c with
      | none => none
      | some call =>
        if call.stage = .ready then
          match call.request with
          | .write n _ _ => some (s.pipewrite c call n)
          | .read n => some (s.piperead c call n)
        else none
    | .kill c =>
      match s.calls c with
      | none => none
      | some call =>
        let stage := if call.stage = .asleep then .ready else call.stage
        some (.killed c, s.setCall c { call with killed := true, stage := stage })
    | .close writable => some (.closed writable, s.pipeclose writable)

/-- Steps with what they did. -/
def Step (s : Pipes) (step : PipeStep) (t : Pipes) : Prop := ∃ event, s.next event = some (step, t)

/-- A new pipe without calls. -/
def start (page : Nat → UInt8) : Pipes where
  pipe := pipealloc.pipe page
  freed := false
  calls := fun _ => none

end Pipes

end Xv6
