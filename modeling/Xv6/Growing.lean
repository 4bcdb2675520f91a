import Xv6.Space

/-!
# `sbrk` by several LWPs

`sys_sbrk` and `growproc` with a positive argument, cut where the LWPs of a group can run in
between: neither holds a lock. The size and the directory are those of the group's master.
-/

namespace Xv6

/-- How far an LWP is in `sys_sbrk`. -/
inductive Growing where
  /-- It is not in it. -/
  | idle
  /-- `sys_sbrk` has read `master->sz` as its result. -/
  | entered (n addr : Nat)
  /-- `growproc` has read `master->sz`. -/
  | started (n addr sz : Nat)
  /-- `allocuvm` has returned the new size. -/
  | grown (n addr newsz : Nat)
  deriving DecidableEq

/-- The memory of a group whose LWPs, named by `ι`, call `sbrk`. -/
structure Heap (ι : Type) where
  /-- `master->sz`. -/
  sz : Nat
  /-- The pages of `master->pgdir`. -/
  pages : PageMap
  /-- The calls in progress. -/
  stage : ι → Growing
  /-- The results of the calls that have succeeded with their arguments, the newest first. -/
  handed : List (Nat × Nat)

/-- Steps of `sys_sbrk`. -/
inductive GrowEvent (ι : Type) where
  /-- `sys_sbrk` fetches its argument and reads `master->sz`. -/
  | enter (i : ι) (n : Nat)
  /-- `growproc` reads `master->sz`. -/
  | read (i : ι)
  /-- `allocuvm`, with memory for `room` pages. -/
  | alloc (i : ι) (room : Nat)
  /-- `growproc` writes `master->sz`. -/
  | write (i : ι)

namespace Heap

variable {ι : Type} [DecidableEq ι]

/-- The LWP goes on in its call. -/
def setStage (h : Heap ι) (i : ι) (stage : Growing) : Heap ι :=
  { h with stage := Function.update h.stage i stage }

/-- One step. The panic "remap" has no next state. -/
def step (h : Heap ι) : GrowEvent ι → Option (Heap ι)
  | .enter i n =>
    if h.stage i = .idle ∧ 0 < n ∧ n < 2 ^ 31 then some (h.setStage i (.entered n h.sz)) else none
  | .read i =>
    match h.stage i with
    | .entered n addr => some (h.setStage i (.started n addr h.sz))
    | _ => none
  | .alloc i room =>
    match h.stage i with
    | .started n addr sz =>
      (allocuvm h.pages sz (uint (sz + n)) room).map fun (newsz, pages) =>
        { h with pages }.setStage i (if newsz = 0 then .idle else .grown n addr newsz)
    | _ => none
  | .write i =>
    match h.stage i with
    | .grown n addr newsz => some ({ h with sz := newsz, handed := (addr, n) :: h.handed }.setStage i .idle)
    | _ => none

end Heap

end Xv6
