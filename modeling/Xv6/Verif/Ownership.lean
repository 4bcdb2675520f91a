import Xv6.Verif.Initial
import Xv6.Lib.Runs

/-!
# Exclusive block ownership

Runs of `bmap` on any number of inodes, with cached blocks kept. Every call keeps the
ownership invariant, so calls for different block numbers never return the same block, and a
returned block is never an index block.
-/

namespace Xv6

open Program

variable {ι : Type}

/-- A call of `bmap` that returned: the inode, the block number and the returned address. -/
structure BmapCall (ι : Type) where
  /-- The inode. -/
  owner : ι
  /-- The block number in the file. -/
  bn : Nat
  /-- The returned disk block address. -/
  addr : Nat
  deriving DecidableEq

section Calls

variable [DecidableEq ι]

/-- One call of `bmap` with a block number in range that returned. -/
def bmapStep (sb : Superblock) (s : FsState ι) (call : BmapCall ι) (t : FsState ι) : Prop :=
  call.bn < MAXFILE ∧ ∃ ip, Store.exec (recording false) (bmap sb (s.inodes call.owner) call.bn) s.store =
    .ok ((ip, call.addr), t.store) ∧ t.inodes = Function.update s.inodes call.owner ip

variable {sb : Superblock} {nmeta : Nat} {s t : FsState ι} {call : BmapCall ι}

/-- What one call of `bmap` does to the forest. -/
theorem bmapStep_reached (layout : Layout sb nmeta) (owned : Owned sb nmeta s.inodes s.store.blocks)
    (step : bmapStep sb s call t) :
    Reached sb nmeta false s t (call.owner, (position call.bn).1) (position call.bn).2
      (position call.bn).2 call.addr := by
  obtain ⟨inside, ip, returned, inodes⟩ := step
  have spec := bmap_spec layout owned (settled_unchecked _) call.owner inside
    fun checked => absurd checked Bool.false_ne_true
  have result := wp_ok spec returned
  cases t
  cases inodes
  exact result

/-- A call returns unless `balloc` runs out of blocks. -/
theorem bmap_total (layout : Layout sb nmeta) (owned : Owned sb nmeta s.inodes s.store.blocks) (k : ι)
    {bn : Nat} (inside : bn < MAXFILE) :
    (∃ addr t, bmapStep sb s ⟨k, bn, addr⟩ t) ∨
      Store.exec (recording false) (bmap sb (s.inodes k) bn) s.store =
        .error (.panic "balloc: out of blocks") := by
  have spec := bmap_spec layout owned (settled_unchecked _) k inside
    fun checked => absurd checked Bool.false_ne_true
  cases result : Store.exec (recording false) (bmap sb (s.inodes k) bn) s.store with
  | ok passed =>
    obtain ⟨⟨ip, addr⟩, store⟩ := passed
    exact .inl ⟨addr, ⟨Function.update s.inodes k ip, store⟩, inside, ip, result, rfl⟩
  | error reason =>
    have stopped : reason = _ := wp_error spec result
    rw [stopped]
    exact .inr rfl

/-- A call leaves the mapping of every other block number alone. -/
theorem bmapStep_others (layout : Layout sb nmeta) (owned : Owned sb nmeta s.inodes s.store.blocks)
    (step : bmapStep sb s call t) {k : ι} {bn : Nat} (inside : bn < MAXFILE)
    (other : (k, bn) ≠ (call.owner, call.bn)) : t.mapped k bn = s.mapped k bn := by
  have reached := bmapStep_reached layout owned step
  obtain ⟨place, full⟩ := position_inTree k inside
  obtain ⟨_, full'⟩ := position_inTree call.owner step.1
  apply reached.grows.others _ _ place
  rintro ⟨same, above⟩
  obtain ⟨rfl, slot⟩ := Prod.mk.inj same
  -- a place of full depth above another one is that one
  have path : (position bn).2 = (position call.bn).2 := by
    apply above.eq_of_length
    rw [full, full', slot]
  exact other (by rw [position_injective (Prod.ext slot path)])

/-- A run of calls keeps the invariant and every address that is there. -/
theorem bmapRun_kept {calls : List (BmapCall ι)} (layout : Layout sb nmeta)
    (owned : Owned sb nmeta s.inodes s.store.blocks) (run : Run (bmapStep sb) s calls t) :
    Owned sb nmeta t.inodes t.store.blocks ∧
      ∀ r p, InTree r p → s.forest.address r p ≠ 0 → t.forest.address r p = s.forest.address r p := by
  apply run.preserves (fun u => Owned sb nmeta u.inodes u.store.blocks)
    (fun u v => ∀ r p, InTree r p → u.forest.address r p ≠ 0 →
      v.forest.address r p = u.forest.address r p)
  · exact fun _ _ _ _ _ => rfl
  · intro u v w first second r p inside occupied
    have once := first r p inside occupied
    rw [second r p inside (by rw [once]; exact occupied), once]
  · intro u call v owned step
    have reached := bmapStep_reached layout owned step
    exact ⟨reached.grows.owned, reached.grows.kept⟩
  · exact owned

/-- What a call returned stays mapped at its block number. -/
theorem bmapRun_mapped {calls : List (BmapCall ι)} (layout : Layout sb nmeta)
    (owned : Owned sb nmeta s.inodes s.store.blocks) (run : Run (bmapStep sb) s calls t)
    (member : call ∈ calls) :
    call.bn < MAXFILE ∧ t.mapped call.owner call.bn = call.addr ∧ call.addr ≠ 0 := by
  obtain ⟨_, _, v, w, _, before, step, after⟩ := run.step_of_mem member
  have owned' := (bmapRun_kept layout owned before).1
  have reached := bmapStep_reached layout owned' step
  have kept := (bmapRun_kept layout reached.grows.owned after).2
  have inside := step.1
  have there : w.mapped call.owner call.bn = call.addr := reached.address.symm
  refine ⟨inside, ?_, reached.occupied⟩
  rw [← there]
  apply kept _ _ (position_inTree call.owner inside).1
  change w.mapped call.owner call.bn ≠ 0
  rw [there]
  exact reached.occupied

/-- Exclusive block ownership. After every run of `bmap` calls, the ownership invariant holds;
calls for different block numbers returned different blocks, none of them an index block; the
next call changes no other mapping; and it returns unless no block is free. -/
theorem bmap_exclusive {calls : List (BmapCall ι)} (layout : Layout sb nmeta)
    (owned : Owned sb nmeta s.inodes s.store.blocks) (run : Run (bmapStep sb) s calls t) :
    Owned sb nmeta t.inodes t.store.blocks ∧
      (∀ c ∈ calls, ∀ c' ∈ calls, (c.owner, c.bn) ≠ (c'.owner, c'.bn) → c.addr ≠ c'.addr) ∧
      (∀ c ∈ calls, ∀ r p, InTree r p → p.length < slotDepth r.2 → t.forest.address r p ≠ c.addr) ∧
      (∀ next u, bmapStep sb t next u → ∀ k bn, bn < MAXFILE → (k, bn) ≠ (next.owner, next.bn) →
        u.mapped k bn = t.mapped k bn) ∧
      ∀ k bn, bn < MAXFILE → (∃ addr u, bmapStep sb t ⟨k, bn, addr⟩ u) ∨
        Store.exec (recording false) (bmap sb (t.inodes k) bn) t.store =
          .error (.panic "balloc: out of blocks") := by
  obtain ⟨owned', _⟩ := bmapRun_kept layout owned run
  refine ⟨owned', ?_, ?_, ?_, ?_⟩
  · intro c member c' member' other same
    obtain ⟨inside, mapped, occupied⟩ := bmapRun_mapped layout owned run member
    obtain ⟨inside', mapped', _⟩ := bmapRun_mapped layout owned run member'
    have equal : t.mapped c.owner c.bn = t.mapped c'.owner c'.bn := by rw [mapped, mapped', same]
    have filled : t.mapped c.owner c.bn ≠ 0 := by rwa [mapped]
    have place := owned'.mapping_injective inside inside' filled equal
    exact other (by rw [place.1, place.2])
  · intro c member r p place short same
    obtain ⟨inside, mapped, occupied⟩ := bmapRun_mapped layout owned run member
    obtain ⟨data, full⟩ := position_inTree c.owner inside
    have equal : t.forest.address r p = t.mapped c.owner c.bn := by rw [mapped, same]
    obtain ⟨rfl, rfl⟩ := owned'.exclusive _ _ _ _ place data (by rwa [same]) equal
    rw [full] at short
    exact Nat.lt_irrefl _ short
  · exact fun next u step k bn inside other => bmapStep_others layout owned' step inside other
  · exact fun k bn inside => bmap_total layout owned' k inside

/-- Two calls on the small file system: a direct block and a doubly indirect one. -/
theorem bmap_exclusive_small :
    ∃ t, Run (bmapStep smallSuperblock) smallState [⟨0, 0, 6⟩, ⟨1, 140, 9⟩] t ∧
      Owned smallSuperblock 6 t.inodes t.store.blocks ∧
      ∀ r p, InTree r p → p.length < slotDepth r.2 → t.forest.address r p ≠ 9 := by
  have run : ∃ t, Run (bmapStep smallSuperblock) smallState [⟨0, 0, 6⟩, ⟨1, 140, 9⟩] t := by
    refine ⟨⟨_, _⟩, .cons (show bmapStep _ _ _ ⟨_, _⟩ from ⟨by decide, _, rfl, rfl⟩)
      (.cons ⟨by decide, _, rfl, rfl⟩ (.nil _))⟩
  obtain ⟨t, run⟩ := run
  obtain ⟨owned, _, index, _⟩ := bmap_exclusive small_layout small_owned run
  exact ⟨t, run, owned, index ⟨1, 140, 9⟩ (by simp)⟩

end Calls

end Xv6
