import Xv6.Syscall
import Xv6.UserPages

/-!
# Creating a thread

`allocproc` and `thread_create` of `proc.c` over the process table and physical memory together, where
every page comes from `kalloc`. What the two write into the kernel stack is left out, except for the
stack pointer.
-/

namespace Xv6

/-- What `thread_create` returns, the stack pointer of the new LWP, and the process table. -/
structure ThreadResult where
  /-- The return value. -/
  value : Int
  /-- `np->tf->esp`, which a call that fails does not set. -/
  esp : Nat
  /-- The process table. -/
  system : System

namespace Vm

/-- `allocproc` with the page that it takes for the kernel stack. -/
def allocproc (s : System) : Vm (Option Lwp × System) :=
  match s.allocproc true with
  | (none, s) => pure (none, s)
  | (some np, t) => do
    match ← kalloc with
    | none => pure (s.allocproc false)
    | some _ => pure (some np, t)

/-- The user stack of `thread_create`, two pages from a base on: how it ends, and the stack pointer. -/
def threadStack (pgdir base arg : Nat) : Vm (StackOutcome × Nat) := do
  let sz ← allocuvm pgdir base (uint (base + 2 * PGSIZE))
  if sz = 0 then pure (.noMemory, 0)
  else do
    clearpteu pgdir (uint ((sz : Int) - 2 * PGSIZE))
    let sp := uint ((sz : Int) - 8)
    if ← copyout pgdir sp (wordBytes 0xffffffff ++ wordBytes arg) then pure (.mapped, sp)
    else do
      let _ ← deallocuvm pgdir (uint (base + 2 * PGSIZE)) base
      pure (.noCopy, sp)

/-- `thread_create` once `next_tid` is chosen. -/
def threadCreate (s : System) (p : Lwp) (tid arg : Nat) : Vm ThreadResult := do
  match ← allocproc s with
  | (none, _) => panic "alloc 실패\n"
  | (some np, s) =>
    match s.returnNode np, (s.proc p).master with
    | some s, some master =>
      let (base, s) := s.takeBase master
      match (s.proc master).pgdir with
      | none => panic "trap"
      | some pgdir =>
        let (outcome, sp) ← threadStack pgdir base arg
        pure ⟨if outcome = .mapped then 0 else -1, sp, s.finishThread p master np tid base outcome⟩
    | _, _ => panic "trap"

end Vm

end Xv6
