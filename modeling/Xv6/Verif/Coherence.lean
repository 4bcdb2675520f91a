import Mathlib.Data.List.Nodup
import Xv6.Verif.CacheView
import Xv6.Verif.Recovery

/-!
# The machine's own store

Between operations no process has an unrecorded change. Then the cache and the disk determine
the store the machine implements: a block has the contents of its valid buffer, else those on
disk. `Machine.Coherent` is what holds at such a point.
-/

namespace Xv6

open Program

variable {π : Type}

namespace Machine

/-- The buffer that caches a block. -/
def lookup (m : Machine π) (blockno : Nat) : Option (Fin NBUF) :=
  (List.finRange NBUF).find? fun i =>
    (m.cache.buf i).dev == ROOTDEV && (m.cache.buf i).blockno == blockno

/-- The current contents of a block: those of its valid buffer, else those on disk. -/
def contents (m : Machine π) (blockno : Nat) : Block :=
  match m.lookup blockno with
  | some i => if (m.cache.buf i).valid then (m.cache.buf i).data else m.disk blockno
  | none => m.disk blockno

/-- `B_DIRTY` is set on the buffer of the block. -/
def marked (m : Machine π) (blockno : Nat) : Bool :=
  match m.lookup blockno with
  | some i => (m.cache.buf i).dirty
  | none => false

/-- The store the machine implements when no change is unrecorded. -/
def store (m : Machine π) : Store where
  blocks := m.contents
  disk := m.disk
  dirty := m.marked
  unlogged := fun _ => false
  log := m.log
  recorded := []
  writes := []

/-- The cache is well formed and what is neither dirty nor on disk is nowhere. -/
structure Coherent (m : Machine π) : Prop where
  wf : m.cache.Wf
  /-- A valid buffer that is not dirty has the contents on disk. -/
  clean : ∀ i blockno, (m.cache.buf i).caches blockno → (m.cache.buf i).valid = true →
    (m.cache.buf i).dirty = false → (m.cache.buf i).data = m.disk blockno

variable {m : Machine π} {i : Fin NBUF} {blockno : Nat}

/-- The buffer `lookup` finds caches the block. -/
theorem lookup_some (found : m.lookup blockno = some i) : (m.cache.buf i).caches blockno := by
  have test := List.find?_some found
  simp only [Bool.and_eq_true, beq_iff_eq] at test
  exact test

/-- Where `lookup` finds nothing the block is not cached. -/
theorem lookup_none (missing : m.lookup blockno = none) (i : Fin NBUF) :
    ¬(m.cache.buf i).caches blockno := by
  intro here
  have test := List.find?_eq_none.mp missing i (List.mem_finRange i)
  simp only [Bool.and_eq_true, beq_iff_eq] at test
  exact test here

/-- `lookup` finds the buffer of a cached block. -/
theorem lookup_caches (wf : m.cache.Wf) (here : (m.cache.buf i).caches blockno) :
    m.lookup blockno = some i := by
  cases found : m.lookup blockno with
  | none => exact absurd here (lookup_none found i)
  | some j => rw [wf.unique j i blockno (lookup_some found) here]

/-- The contents of a cached block. -/
theorem contents_caches (wf : m.cache.Wf) (here : (m.cache.buf i).caches blockno) :
    m.contents blockno =
      if (m.cache.buf i).valid then (m.cache.buf i).data else m.disk blockno := by
  unfold contents
  rw [lookup_caches wf here]

/-- The mark of a cached block. -/
theorem marked_caches (wf : m.cache.Wf) (here : (m.cache.buf i).caches blockno) :
    m.marked blockno = (m.cache.buf i).dirty := by
  unfold marked
  rw [lookup_caches wf here]

/-- A coherent machine implements its own store, for every process. -/
theorem Coherent.implements (coherent : m.Coherent) (p : π) : Implements p m m.store where
  wf := coherent.wf
  disk := rfl
  log := rfl
  data i blockno here valid := by
    change _ = m.contents blockno
    rw [contents_caches coherent.wf here, valid, if_pos rfl]
  dirty i blockno here := by
    change _ = m.marked blockno
    rw [marked_caches coherent.wf here]
  dirty_cached blockno flagged := by
    change m.marked blockno = true at flagged
    unfold marked at flagged
    cases found : m.lookup blockno with
    | none => rw [found] at flagged; contradiction
    | some i => exact ⟨i, lookup_some found⟩
  synced blockno flagged _ := by
    change m.marked blockno = false at flagged
    change m.contents blockno = m.disk blockno
    cases found : m.lookup blockno with
    | none =>
      unfold contents
      rw [found]
    | some i =>
      have here := lookup_some found
      rw [marked_caches coherent.wf here] at flagged
      rw [contents_caches coherent.wf here]
      cases valid : (m.cache.buf i).valid with
      | false => exact if_neg Bool.false_ne_true
      | true =>
        rw [if_pos rfl]
        exact coherent.clean i blockno here valid flagged
  unlogged_held _ changed := absurd changed Bool.false_ne_true

end Machine

namespace Implements

variable {p : π} {m : Machine π} {s : Store}

/-- Without an unrecorded change a block that is not dirty is the same on disk. -/
theorem settled_synced (h : Implements p m s) (settled : ∀ b, s.unlogged b = false) {blockno : Nat}
    (clean : s.dirty blockno = false) : s.blocks blockno = m.disk blockno := by
  rw [h.disk]
  exact h.synced blockno clean (settled blockno)

/-- Without an unrecorded change the machine is coherent. -/
theorem coherent (h : Implements p m s) (settled : ∀ b, s.unlogged b = false) : m.Coherent where
  wf := h.wf
  clean i blockno here valid unmarked := by
    have clean : s.dirty blockno = false := by
      rw [← h.dirty i blockno here]
      exact unmarked
    rw [h.data i blockno here valid]
    exact h.settled_synced settled clean

/-- Without an unrecorded change the contents are those of the store. -/
theorem contents (h : Implements p m s) (settled : ∀ b, s.unlogged b = false) :
    m.contents = s.blocks := by
  funext blockno
  cases found : m.lookup blockno with
  | none =>
    have clean : s.dirty blockno = false := by
      by_contra flagged
      obtain ⟨i, here⟩ := h.dirty_cached blockno (Bool.eq_true_of_not_eq_false flagged)
      exact Machine.lookup_none found i here
    unfold Machine.contents
    rw [found, h.settled_synced settled clean]
  | some i =>
    have here := Machine.lookup_some found
    rw [Machine.contents_caches h.wf here]
    cases valid : (m.cache.buf i).valid with
    | true =>
      rw [if_pos rfl]
      exact h.data i blockno here valid
    | false =>
      have clean : s.dirty blockno = false := by
        rw [← h.dirty i blockno here]
        by_contra flagged
        have filled := h.wf.dirty_filled i (Bool.eq_true_of_not_eq_false flagged)
        rw [valid] at filled
        exact absurd filled.1 Bool.false_ne_true
      rw [if_neg Bool.false_ne_true, h.settled_synced settled clean]

end Implements

/-! ## The empty cache -/

/-- The cache `binit` leaves is well formed. -/
theorem binit_wf : (binit : Bcache π).Wf where
  nodup := by
    change (List.finRange NBUF).reverse.Nodup
    rw [List.nodup_reverse]
    exact List.nodup_finRange NBUF
  complete i := List.mem_reverse.mpr (List.mem_finRange i)
  unique _ _ _ here _ := absurd here.1 (by decide : (0 : Nat) ≠ ROOTDEV)
  referenced _ _ locked := nomatch locked
  filled _ _ locked := nomatch locked
  dirty_filled _ flagged := nomatch flagged

namespace Machine

/-- A machine with an empty cache is coherent. -/
theorem coherent_empty (disk : Nat → Block) (log : Log) : (⟨binit, disk, log⟩ : Machine π).Coherent where
  wf := binit_wf
  clean _ _ here := absurd here.1 (by decide : (0 : Nat) ≠ ROOTDEV)

/-- The contents of a machine with an empty cache are those on disk. -/
theorem contents_empty (disk : Nat → Block) (log : Log) :
    (⟨binit, disk, log⟩ : Machine π).contents = disk := by
  funext blockno
  unfold contents
  cases found : (⟨binit, disk, log⟩ : Machine π).lookup blockno with
  | none => rfl
  | some i => exact absurd (lookup_some found).1 (by decide : (0 : Nat) ≠ ROOTDEV)

end Machine

/-! ## The log under requests -/

namespace Machine

variable [DecidableEq π] {p : π} {m m' : Machine π}

/-- `iderw` leaves the log alone. -/
theorem iderw_log {i : Fin NBUF} (returned : m.iderw p i = .ok m') : m'.log = m.log := by
  unfold iderw at returned
  simp only at returned
  split at returned
  · contradiction
  · split at returned
    · contradiction
    · split at returned
      · contradiction
      · split at returned
        · cases returned
          rfl
        · cases returned
          rfl

/-- The end of `bread` leaves the log alone. -/
theorem fill_log {i : Fin NBUF} (returned : m.fill p i = .ok m') : m'.log = m.log := by
  unfold fill at returned
  split at returned
  · cases returned
    rfl
  · exact iderw_log returned

/-- `bread` leaves the log alone. -/
theorem bread_log {blockno : Nat} {data : Block} (returned : m.bread p blockno = .ok (data, m')) :
    m'.log = m.log := by
  unfold bread at returned
  split at returned
  · contradiction
  · split at returned
    · contradiction
    · split at returned
      · contradiction
      · rename_i filled
        cases returned
        have kept := fill_log filled
        exact kept

/-- Only `log_write` changes the log. -/
theorem handler_log {op : BufOp} {answer : bufSignature.Answer op}
    (returned : handler p op m = .ok (answer, m')) :
    m'.log = m.log ∨ ∃ blockno, op = .logWrite blockno ∧ m.log.write blockno = .ok m'.log := by
  cases op with
  | bread blockno => exact .inl (bread_log returned)
  | modify blockno update =>
    obtain ⟨i, _, rfl⟩ := modify_ok returned
    exact .inl rfl
  | logWrite blockno =>
    obtain ⟨i, log, _, accepted, rfl⟩ := logWrite_ok returned
    exact .inr ⟨blockno, rfl, accepted⟩
  | bwrite blockno =>
    obtain ⟨i, _, _, rfl⟩ := bwrite_ok returned
    exact .inl rfl
  | brelse blockno =>
    obtain ⟨i, _, rfl⟩ := brelse_ok returned
    exact .inl rfl

end Machine

/-- Other processes leave the log alone. -/
theorem OthersAct.log {m m' : Machine π} (other : OthersAct m m') : m'.log = m.log := by
  cases other <;> rfl

/-! ## Commit -/

/-- `commit` leaves the machine coherent, the log empty, and the contents outside the log area
as they were. -/
theorem Machine.Coherent.commit [DecidableEq π] {p : π} {m m' : Machine π} {log cleared : Log}
    (coherent : m.Coherent) (placed : log.Placed)
    (amid : RunsAmid (Machine.handler p) OthersAct (Xv6.commit log) { m with log } cleared m') :
    m'.Coherent ∧ cleared = log.clear ∧ ∀ b, ¬log.Area b → m'.contents b = m.contents b := by
  have start : ({ m with log } : Machine π).Coherent := ⟨coherent.wf, coherent.clean⟩
  have spec : wp (Store.handler (recording true)) (Xv6.commit log)
      (fun log' t => log' = log.clear ∧ (∀ b, t.unlogged b = false) ∧
        ∀ b, ¬log.Area b → t.blocks b = m.contents b)
      (fun _ => False) ({ m with log } : Machine π).store := by
    by_cases nonempty : 0 < log.lh.length
    · refine wp_mono (commit_spec (.inr fun _ => rfl) placed nonempty) ?_ fun _ h => h
      rintro log' t ⟨cleared, flushed⟩
      refine ⟨cleared, fun b => flushed.unlogged b rfl, ?_⟩
      intro b outside
      rw [flushed.blocks]
      exact commit_contents placed _ outside
    · have empty : log.lh = [] := List.length_eq_zero_iff.mp (Nat.eq_zero_of_not_pos nonempty)
      have same : log = log.clear := by
        unfold Log.clear
        rw [← empty]
      rw [Xv6.commit, if_neg nonempty, wp_pure]
      exact ⟨same, fun _ => rfl, fun _ _ => rfl⟩
  rcases (start.implements p).runsAmid amid with ⟨store, returned, after⟩ | ⟨_, stopped⟩
  · obtain ⟨same, settled, contents⟩ := wp_ok spec returned
    refine ⟨after.coherent settled, same, ?_⟩
    intro b outside
    rw [after.contents settled]
    exact contents b outside
  · exact (wp_error spec stopped).elim

end Xv6
