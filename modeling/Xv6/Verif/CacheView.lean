import Xv6.Bio
import Xv6.Store

/-!
# The cache implements the store

A well-formed cache holds every block at most once. While a process holds the buffers it has
changed without recording the change, the machine is related to the idealized store: valid
buffers have the current contents, `B_DIRTY` is set on the dirty blocks, and a block that is
clean and recorded is the same on disk. Every request keeps the relation, and so does the
recycling of a buffer that nobody refers to and that is not dirty.
-/

namespace Xv6

open Program

variable {π : Type}

/-- The buffer caches the block of the root disk. -/
def Buf.caches (b : Buf π) (blockno : Nat) : Prop := b.dev = ROOTDEV ∧ b.blockno = blockno

/-- The invariant of the cache between requests. -/
structure Bcache.Wf (c : Bcache π) : Prop where
  nodup : c.mru.Nodup
  /-- The list names every buffer. -/
  complete : ∀ i, i ∈ c.mru
  /-- A block is cached at most once. -/
  unique : ∀ i j blockno, (c.buf i).caches blockno → (c.buf j).caches blockno → i = j
  /-- A locked buffer is referred to. -/
  referenced : ∀ i p, (c.buf i).holder = some p → 0 < (c.buf i).refcnt
  /-- A locked buffer has been read, and for the root disk. -/
  filled : ∀ i p, (c.buf i).holder = some p → (c.buf i).valid = true ∧ (c.buf i).dev = ROOTDEV
  /-- A dirty buffer has been read, and for the root disk. -/
  dirty_filled : ∀ i, (c.buf i).dirty = true → (c.buf i).valid = true ∧ (c.buf i).dev = ROOTDEV

namespace Bcache

variable {c : Bcache π} {i : Fin NBUF} {blockno : Nat}

@[simp] theorem set_same (c : Bcache π) (i : Fin NBUF) (b : Buf π) : (c.set i b).buf i = b :=
  Function.update_self _ _ _

theorem set_other {j : Fin NBUF} (b : Buf π) (other : j ≠ i) :
    (c.set i b).buf j = c.buf j := Function.update_of_ne other _ _

@[simp] theorem set_set (c : Bcache π) (i : Fin NBUF) (b b' : Buf π) :
    (c.set i b).set i b' = c.set i b' := by
  simp only [set, Function.update_idem]

/-- The first loop of `bget` finds the buffer of the block. -/
theorem cached_some (found : c.cached ROOTDEV blockno = some i) : (c.buf i).caches blockno := by
  have test := List.find?_some found
  simp only [Bool.and_eq_true, beq_iff_eq] at test
  exact test

/-- Where the first loop of `bget` finds nothing the block is not cached. -/
theorem cached_none (wf : c.Wf) (missing : c.cached ROOTDEV blockno = none) (i : Fin NBUF) :
    ¬(c.buf i).caches blockno := by
  intro here
  have test := List.find?_eq_none.mp missing i (wf.complete i)
  simp only [Bool.and_eq_true, beq_iff_eq] at test
  exact test here

/-- The second loop of `bget` finds a buffer that may be recycled. -/
theorem victim_some (found : c.victim = some i) :
    (c.buf i).refcnt = 0 ∧ (c.buf i).dirty = false := by
  have test := List.find?_some found
  simp only [Buf.unused, Bool.and_eq_true, beq_iff_eq, Bool.not_eq_true'] at test
  exact test

/-- A buffer nobody refers to is not locked. -/
theorem Wf.unlocked (wf : c.Wf) (idle : (c.buf i).refcnt = 0) : (c.buf i).holder = none := by
  cases locked : (c.buf i).holder with
  | none => rfl
  | some p =>
    have positive := wf.referenced i p locked
    omega

end Bcache

@[simp] theorem Machine.setBuf_same (m : Machine π) (i : Fin NBUF) (b : Buf π) :
    (m.setBuf i b).cache.buf i = b := Function.update_self _ _ _

theorem Machine.setBuf_other {m : Machine π} {i j : Fin NBUF} (b : Buf π) (other : j ≠ i) :
    (m.setBuf i b).cache.buf j = m.cache.buf j := Function.update_of_ne other _ _

/-- Replacing a buffer by one for the same block leaves every block where it is. -/
theorem Machine.setBuf_caches {m : Machine π} {i : Fin NBUF} {b : Buf π}
    (dev : b.dev = (m.cache.buf i).dev) (number : b.blockno = (m.cache.buf i).blockno)
    (j : Fin NBUF) (blockno : Nat) :
    ((m.setBuf i b).cache.buf j).caches blockno ↔ (m.cache.buf j).caches blockno := by
  by_cases here : j = i
  · rw [here, setBuf_same]
    unfold Buf.caches
    rw [dev, number]
  · rw [setBuf_other b here]

/-- The buffer `held` finds is the caller's and caches the block. -/
theorem Machine.held_some [DecidableEq π] {m : Machine π} {p : π} {blockno : Nat} {i : Fin NBUF}
    (found : m.held p blockno = some i) :
    (m.cache.buf i).holder = some p ∧ (m.cache.buf i).caches blockno := by
  have test := List.find?_some found
  simp only [Bool.and_eq_true, decide_eq_true_eq, beq_iff_eq] at test
  exact ⟨test.1.1, test.1.2, test.2⟩

/-! ## What requests do -/

namespace Machine

variable [DecidableEq π] {p : π} {m m' : Machine π} {blockno : Nat}

/-- A `bread` that returned found or recycled a buffer, which was unlocked, and read it. -/
theorem bread_ok {data : Block}
    (returned : m.bread p blockno = .ok (data, m')) :
    ∃ i c, m.cache.bget ROOTDEV blockno = .ok (i, c) ∧ (c.buf i).holder = none ∧
      (((c.buf i).dirty = true → (c.buf i).valid = true) →
        data = (if (c.buf i).valid then (c.buf i).data else m.disk (c.buf i).blockno) ∧
          m' = { m with cache := c }.setBuf i
            { c.buf i with holder := some p, valid := true, data }) := by
  unfold bread at returned
  cases found : m.cache.bget ROOTDEV blockno with
  | error reason => simp only [found] at returned; contradiction
  | ok passed =>
    obtain ⟨i, c⟩ := passed
    simp only [found] at returned
    cases locked : (c.buf i).holder with
    | some q => simp only [Bcache.acquiresleep, locked] at returned; contradiction
    | none =>
      refine ⟨i, c, rfl, locked, ?_⟩
      intro filled
      simp only [Bcache.acquiresleep, locked, fill, Bcache.set_same] at returned
      cases valid : (c.buf i).valid with
      | true =>
        simp only [valid, ↓reduceIte, Bcache.set_same, Except.ok.injEq, Prod.mk.injEq] at returned
        obtain ⟨rfl, rfl⟩ := returned
        refine ⟨rfl, ?_⟩
        simp only [setBuf]
      | false =>
        have clean : (c.buf i).dirty = false := by
          by_contra flagged
          exact absurd (filled (Bool.eq_true_of_not_eq_false flagged)) (by rw [valid]; decide)
        simp only [valid, Bool.false_eq_true, ↓reduceIte, iderw, Bcache.set_same, ne_eq,
          not_true_eq_false, Bool.false_and, clean] at returned
        split at returned
        · contradiction
        · rename_i result accepted
          split at accepted
          · contradiction
          · simp only [Except.ok.injEq] at accepted
            simp only [Except.ok.injEq, Prod.mk.injEq] at returned
            obtain ⟨rfl, rfl⟩ := returned
            rw [← accepted]
            refine ⟨?_, ?_⟩
            · simp [setBuf]
            · simp [setBuf, Bcache.set, clean]

/-- A store into a buffer that returned changed the data of the buffer the process holds. -/
theorem modify_ok {update : Block → Block} {answer : Unit}
    (returned : handler p (.modify blockno update) m = .ok (answer, m')) :
    ∃ i, m.held p blockno = some i ∧
      m' = m.setBuf i { m.cache.buf i with data := update (m.cache.buf i).data } := by
  unfold handler at returned
  cases found : m.held p blockno with
  | none => simp only [found] at returned; contradiction
  | some i =>
    simp only [found] at returned
    cases returned
    exact ⟨i, rfl, rfl⟩

/-- A `log_write` that returned was accepted by the log and marked the buffer. -/
theorem logWrite_ok {answer : Unit}
    (returned : handler p (.logWrite blockno) m = .ok (answer, m')) :
    ∃ i log, m.held p blockno = some i ∧ m.log.write blockno = .ok log ∧
      m' = { m.setBuf i { m.cache.buf i with dirty := true } with log } := by
  simp only [handler] at returned
  cases found : m.held p blockno with
  | none => simp only [found] at returned; contradiction
  | some i =>
    have number := (held_some found).2.2
    simp only [found, logWrite] at returned
    cases accepted : m.log.write (m.cache.buf i).blockno with
    | error reason => simp only [accepted] at returned; contradiction
    | ok log =>
      simp only [accepted] at returned
      cases returned
      rw [number] at accepted
      exact ⟨i, log, rfl, accepted, rfl⟩

/-- A `bwrite` that returned wrote the block to disk and cleared the mark. -/
theorem bwrite_ok {answer : Unit}
    (returned : handler p (.bwrite blockno) m = .ok (answer, m')) :
    ∃ i, m.held p blockno = some i ∧ blockno < FSSIZE ∧
      m' = { m.setBuf i { m.cache.buf i with valid := true, dirty := false } with
        disk := Function.update m.disk blockno (m.cache.buf i).data } := by
  simp only [handler] at returned
  cases found : m.held p blockno with
  | none => simp only [found] at returned; contradiction
  | some i =>
    obtain ⟨locked, cached⟩ := held_some found
    simp only [found, bwrite, iderw, locked, setBuf_same, cached.2, ne_eq, not_true_eq_false,
      ↓reduceIte, Bool.not_true, Bool.and_false, Bool.false_eq_true] at returned
    by_cases beyond : FSSIZE ≤ blockno
    · rw [if_pos beyond] at returned
      contradiction
    · rw [if_neg beyond] at returned
      cases returned
      refine ⟨i, rfl, Nat.lt_of_not_le beyond, ?_⟩
      simp [setBuf, Bcache.set, cached.2, locked]

/-- A `brelse` that returned released the buffer the process held. -/
theorem brelse_ok {answer : Unit}
    (returned : handler p (.brelse blockno) m = .ok (answer, m')) :
    ∃ i, m.held p blockno = some i ∧ m' = { m with cache := m.cache.release i } := by
  simp only [handler] at returned
  cases found : m.held p blockno with
  | none => simp only [found] at returned; contradiction
  | some i =>
    have locked := (held_some found).1
    simp only [found, brelse, locked, ne_eq, not_true_eq_false, ↓reduceIte] at returned
    cases returned
    exact ⟨i, rfl, rfl⟩

end Machine

/-- The machine of a process implements the store. -/
structure Implements (p : π) (m : Machine π) (s : Store) : Prop where
  wf : m.cache.Wf
  disk : m.disk = s.disk
  log : m.log = s.log
  /-- Valid buffers have the current contents. -/
  data : ∀ i blockno, (m.cache.buf i).caches blockno → (m.cache.buf i).valid = true →
    (m.cache.buf i).data = s.blocks blockno
  /-- The buffer of a dirty block is dirty and no other one. -/
  dirty : ∀ i blockno, (m.cache.buf i).caches blockno → (m.cache.buf i).dirty = s.dirty blockno
  /-- Dirty blocks are cached. -/
  dirty_cached : ∀ blockno, s.dirty blockno = true → ∃ i, (m.cache.buf i).caches blockno
  /-- Clean and recorded blocks are on disk. -/
  synced : ∀ blockno, s.dirty blockno = false → s.unlogged blockno = false →
    s.blocks blockno = s.disk blockno
  /-- The process holds the buffers of unrecorded changes. -/
  unlogged_held : ∀ blockno, s.unlogged blockno = true →
    ∃ i, (m.cache.buf i).holder = some p ∧ (m.cache.buf i).caches blockno

namespace Bcache.Wf

variable {c : Bcache π} {i : Fin NBUF} {b : Buf π}

/-- Replacing a buffer by one for the same block. -/
theorem set (wf : c.Wf) (dev : b.dev = (c.buf i).dev) (number : b.blockno = (c.buf i).blockno)
    (held : ∀ p, b.holder = some p → 0 < b.refcnt ∧ b.valid = true ∧ b.dev = ROOTDEV)
    (dirty : b.dirty = true → b.valid = true ∧ b.dev = ROOTDEV) : (c.set i b).Wf := by
  have caches : ∀ j blockno, ((c.set i b).buf j).caches blockno ↔ (c.buf j).caches blockno := by
    intro j blockno
    by_cases here : j = i
    · rw [here, set_same]
      unfold Buf.caches
      rw [dev, number]
    · rw [set_other b here]
  constructor
  · exact wf.nodup
  · exact wf.complete
  · intro j k blockno first second
    rw [caches] at first second
    exact wf.unique j k blockno first second
  · intro j p locked
    by_cases here : j = i
    · rw [here, set_same] at locked ⊢
      exact (held p locked).1
    · rw [set_other b here] at locked ⊢
      exact wf.referenced j p locked
  · intro j p locked
    by_cases here : j = i
    · rw [here, set_same] at locked ⊢
      exact (held p locked).2
    · rw [set_other b here] at locked ⊢
      exact wf.filled j p locked
  · intro j flagged
    by_cases here : j = i
    · rw [here, set_same] at flagged ⊢
      exact dirty flagged
    · rw [set_other b here] at flagged ⊢
      exact wf.dirty_filled j flagged

/-- Giving a buffer that nobody refers to to a block that is not cached. -/
theorem recycle (wf : c.Wf) {dev blockno : Nat} (idle : (c.buf i).refcnt = 0) (refcnt : Nat)
    (fresh : ∀ j, ¬((c.buf j).dev = dev ∧ (c.buf j).blockno = blockno)) :
    (c.set i { c.buf i with dev, blockno, valid := false, dirty := false, refcnt }).Wf := by
  have unlocked := wf.unlocked idle
  have apart : ∀ j n, j ≠ i → (c.buf j).caches n → ¬(dev = ROOTDEV ∧ blockno = n) := by
    intro j n _ here same
    exact fresh j ⟨by rw [here.1, same.1], by rw [here.2, same.2]⟩
  constructor
  · exact wf.nodup
  · exact wf.complete
  · intro j k n first second
    by_cases left : j = i
    · by_cases right : k = i
      · rw [left, right]
      · rw [set_other _ right] at second
        rw [left, set_same] at first
        exact absurd first (apart k n right second)
    · rw [set_other _ left] at first
      by_cases right : k = i
      · rw [right, set_same] at second
        exact absurd second (apart j n left first)
      · rw [set_other _ right] at second
        exact wf.unique j k n first second
  · intro j p locked
    by_cases here : j = i
    · rw [here, set_same, unlocked] at locked
      contradiction
    · rw [set_other _ here] at locked ⊢
      exact wf.referenced j p locked
  · intro j p locked
    by_cases here : j = i
    · rw [here, set_same, unlocked] at locked
      contradiction
    · rw [set_other _ here] at locked ⊢
      exact wf.filled j p locked
  · intro j flagged
    by_cases here : j = i
    · rw [here, set_same] at flagged
      contradiction
    · rw [set_other _ here] at flagged ⊢
      exact wf.dirty_filled j flagged

/-- The order of the list does not matter. -/
theorem reorder (wf : c.Wf) {mru : List (Fin NBUF)} (nodup : mru.Nodup) (complete : ∀ i, i ∈ mru) :
    ({ c with mru } : Bcache π).Wf where
  nodup := nodup
  complete := complete
  unique := wf.unique
  referenced := wf.referenced
  filled := wf.filled
  dirty_filled := wf.dirty_filled

/-- Moving a buffer to the front of the list. -/
theorem front (wf : c.Wf) (i : Fin NBUF) : ({ c with mru := i :: c.mru.erase i } : Bcache π).Wf := by
  apply wf.reorder
  · exact List.nodup_cons.mpr ⟨fun member => wf.nodup.not_mem_erase member, wf.nodup.erase i⟩
  · intro j
    by_cases here : j = i
    · rw [here]
      exact List.mem_cons_self
    · exact List.mem_cons_of_mem _ ((List.mem_erase_of_ne here).mpr (wf.complete j))

end Bcache.Wf

/-! ## Requests -/

namespace Implements

variable {p : π} {m : Machine π} {s : Store} {i : Fin NBUF} {blockno : Nat}

/-- Recycling a buffer for a block that is not cached. -/
theorem recycle (h : Implements p m s) {dev : Nat} (idle : (m.cache.buf i).refcnt = 0)
    (clean : (m.cache.buf i).dirty = false) (refcnt : Nat)
    (fresh : ∀ j, ¬((m.cache.buf j).dev = dev ∧ (m.cache.buf j).blockno = blockno)) :
    Implements p
      (m.setBuf i { m.cache.buf i with dev, blockno, valid := false, dirty := false, refcnt }) s where
  wf := h.wf.recycle idle refcnt fresh
  disk := h.disk
  log := h.log
  data j n here valid := by
    by_cases same : j = i
    · rw [same, Machine.setBuf_same] at valid
      contradiction
    · rw [Machine.setBuf_other _ same] at here valid ⊢
      exact h.data j n here valid
  dirty j n here := by
    by_cases same : j = i
    · rw [same, Machine.setBuf_same] at here ⊢
      cases marked : s.dirty n with
      | false => rfl
      | true =>
        obtain ⟨k, cached⟩ := h.dirty_cached n marked
        exact absurd ⟨by rw [cached.1, ← here.1], by rw [cached.2, ← here.2]⟩ (fresh k)
    · rw [Machine.setBuf_other _ same] at here ⊢
      exact h.dirty j n here
  dirty_cached n marked := by
    obtain ⟨k, cached⟩ := h.dirty_cached n marked
    have apart : k ≠ i := by
      rintro rfl
      have flag := h.dirty k n cached
      rw [clean, marked] at flag
      contradiction
    exact ⟨k, by rw [Machine.setBuf_other _ apart]; exact cached⟩
  synced := h.synced
  unlogged_held n changed := by
    obtain ⟨k, locked, cached⟩ := h.unlogged_held n changed
    have apart : k ≠ i := by
      rintro rfl
      have positive := h.wf.referenced k p locked
      omega
    exact ⟨k, by rw [Machine.setBuf_other _ apart]; exact ⟨locked, cached⟩⟩

/-- Changing the references, the lock, or an invalid buffer's data to those of the block. -/
theorem rebind (h : Implements p m s) {b : Buf π} (dev : b.dev = (m.cache.buf i).dev)
    (number : b.blockno = (m.cache.buf i).blockno) (dirty : b.dirty = (m.cache.buf i).dirty)
    (held : ∀ q, b.holder = some q → 0 < b.refcnt ∧ b.valid = true ∧ b.dev = ROOTDEV)
    (valid : (m.cache.buf i).valid = true → b.valid = true)
    (data : ∀ n, (m.cache.buf i).caches n → b.valid = true → b.data = s.blocks n)
    (kept : ∀ n, (m.cache.buf i).holder = some p → (m.cache.buf i).caches n →
      s.unlogged n = true → b.holder = some p) :
    Implements p (m.setBuf i b) s := by
  have caches := Machine.setBuf_caches (m := m) dev number
  constructor
  · apply h.wf.set dev number held
    intro flagged
    rw [dirty] at flagged
    have filled := h.wf.dirty_filled i flagged
    exact ⟨valid filled.1, by rw [dev]; exact filled.2⟩
  · exact h.disk
  · exact h.log
  · intro j n here filled
    rw [caches] at here
    by_cases equal : j = i
    · rw [equal] at here
      rw [equal, Machine.setBuf_same] at filled ⊢
      exact data n here filled
    · rw [Machine.setBuf_other b equal] at filled ⊢
      exact h.data j n here filled
  · intro j n here
    rw [caches] at here
    by_cases equal : j = i
    · rw [equal] at here
      rw [equal, Machine.setBuf_same, dirty]
      exact h.dirty i n here
    · rw [Machine.setBuf_other b equal]
      exact h.dirty j n here
  · intro n marked
    obtain ⟨k, cached⟩ := h.dirty_cached n marked
    exact ⟨k, (caches k n).mpr cached⟩
  · exact h.synced
  · intro n changed
    obtain ⟨k, locked, cached⟩ := h.unlogged_held n changed
    refine ⟨k, ?_, (caches k n).mpr cached⟩
    by_cases equal : k = i
    · rw [equal] at locked cached
      rw [equal, Machine.setBuf_same]
      exact kept n locked cached changed
    · rw [Machine.setBuf_other b equal]
      exact locked

/-- After `bget` the block is cached by the buffer it returns. -/
theorem bget (h : Implements p m s) {c : Bcache π} (found : m.cache.bget ROOTDEV blockno = .ok (i, c)) :
    Implements p { m with cache := c } s ∧ (c.buf i).caches blockno ∧ 0 < (c.buf i).refcnt := by
  unfold Bcache.bget at found
  cases hit : m.cache.cached ROOTDEV blockno with
  | some j =>
    have cached := Bcache.cached_some hit
    simp only [hit] at found
    cases found
    have after := h.rebind (i := i) (b := { m.cache.buf i with refcnt := (m.cache.buf i).refcnt + 1 })
      rfl rfl rfl (fun q locked => ⟨Nat.succ_pos _, h.wf.filled i q locked⟩) (fun valid => valid)
      (fun n here valid => h.data i n here valid) (fun _ locked _ _ => locked)
    refine ⟨after, ?_, ?_⟩
    · rw [Bcache.set_same]
      exact cached
    · rw [Bcache.set_same]
      exact Nat.succ_pos _
  | none =>
    cases spare : m.cache.victim with
    | none =>
      simp only [hit, spare] at found
      contradiction
    | some j =>
      have unused := Bcache.victim_some spare
      have fresh := Bcache.cached_none h.wf hit
      simp only [hit, spare] at found
      cases found
      refine ⟨h.recycle unused.1 unused.2 1 fresh, ?_, ?_⟩
      · rw [Bcache.set_same]
        exact ⟨rfl, rfl⟩
      · rw [Bcache.set_same]
        exact Nat.succ_pos 0

/-- What reading an unlocked buffer finds are the current contents. -/
theorem current (h : Implements p m s) (cached : (m.cache.buf i).caches blockno)
    (unlocked : (m.cache.buf i).holder = none) :
    (if (m.cache.buf i).valid then (m.cache.buf i).data else m.disk blockno) = s.blocks blockno := by
  cases valid : (m.cache.buf i).valid with
  | true =>
    rw [if_pos rfl]
    exact h.data i blockno cached valid
  | false =>
    have clean : s.dirty blockno = false := by
      rw [← h.dirty i blockno cached]
      by_contra flagged
      have filled := h.wf.dirty_filled i (Bool.eq_true_of_not_eq_false flagged)
      rw [valid] at filled
      exact absurd filled.1 Bool.false_ne_true
    have recorded : s.unlogged blockno = false := by
      by_contra changed
      obtain ⟨k, locked, here⟩ := h.unlogged_held blockno (Bool.eq_true_of_not_eq_false changed)
      have same := h.wf.unique i k blockno cached here
      rw [← same, unlocked] at locked
      contradiction
    rw [if_neg Bool.false_ne_true, h.disk]
    exact (h.synced blockno clean recorded).symm

/-- Reading an unlocked buffer and locking it. -/
theorem lock (h : Implements p m s) (cached : (m.cache.buf i).caches blockno)
    (positive : 0 < (m.cache.buf i).refcnt) (unlocked : (m.cache.buf i).holder = none) {data : Block}
    (contents : data = if (m.cache.buf i).valid then (m.cache.buf i).data else m.disk blockno) :
    data = s.blocks blockno ∧
      Implements p (m.setBuf i { m.cache.buf i with holder := some p, valid := true, data }) s := by
  have current : data = s.blocks blockno := by
    rw [contents]
    exact h.current cached unlocked
  refine ⟨current, ?_⟩
  refine h.rebind rfl rfl rfl ?_ ?_ ?_ ?_
  · exact fun _ _ => ⟨positive, rfl, cached.1⟩
  · exact fun _ => rfl
  · intro n here _
    have same : n = blockno := here.2.symm.trans cached.2
    rw [same]
    exact current
  · exact fun _ _ _ _ => rfl

/-- `bread` answers with the current contents. -/
theorem bread [DecidableEq π] (h : Implements p m s) {data : Block}
    (returned : m.bread p blockno = .ok (data, m')) : data = s.blocks blockno ∧ Implements p m' s := by
  obtain ⟨i, c, found, unlocked, rest⟩ := Machine.bread_ok returned
  obtain ⟨after, cached, positive⟩ := h.bget found
  obtain ⟨contents, rfl⟩ := rest fun flagged => (after.wf.dirty_filled i flagged).1
  rw [cached.2] at contents
  exact after.lock cached positive unlocked contents

/-- The holder of a buffer changes it, the disk and the log, and leaves every other block. -/
theorem change (h : Implements p m s) {b : Buf π} {s' : Store} {disk : Nat → Block} {log : Log}
    (locked : b.holder = some p) (cached : (m.cache.buf i).caches blockno) (dev : b.dev = (m.cache.buf i).dev)
    (number : b.blockno = (m.cache.buf i).blockno) (wf : (m.cache.set i b).Wf) (disks : disk = s'.disk)
    (logs : log = s'.log) (data : b.data = s'.blocks blockno) (flag : b.dirty = s'.dirty blockno)
    (synced : s'.dirty blockno = false → s'.unlogged blockno = false → s'.blocks blockno = s'.disk blockno)
    (others : ∀ n, n ≠ blockno → s'.blocks n = s.blocks n ∧ s'.disk n = s.disk n ∧ s'.dirty n = s.dirty n ∧
      s'.unlogged n = s.unlogged n) :
    Implements p { m.setBuf i b with disk, log } s' := by
  have caches := Machine.setBuf_caches (m := m) dev number
  have apart : ∀ {j n}, j ≠ i → (m.cache.buf j).caches n → n ≠ blockno := by
    rintro j n other here rfl
    exact other (h.wf.unique j i n here cached)
  constructor
  · exact wf
  · exact disks
  · exact logs
  · intro j n there valid
    have here := (caches j n).mp there
    clear there
    change ((m.setBuf i b).cache.buf j).data = _
    change ((m.setBuf i b).cache.buf j).valid = true at valid
    by_cases equal : j = i
    · rw [equal] at here ⊢
      rw [Machine.setBuf_same, here.2.symm.trans cached.2]
      exact data
    · rw [Machine.setBuf_other _ equal] at valid ⊢
      rw [(others n (apart equal here)).1]
      exact h.data j n here valid
  · intro j n there
    have here := (caches j n).mp there
    clear there
    change ((m.setBuf i b).cache.buf j).dirty = _
    by_cases equal : j = i
    · rw [equal] at here ⊢
      rw [Machine.setBuf_same, here.2.symm.trans cached.2]
      exact flag
    · rw [Machine.setBuf_other _ equal, (others n (apart equal here)).2.2.1]
      exact h.dirty j n here
  · intro n marked
    by_cases same : n = blockno
    · rw [same]
      exact ⟨i, (caches i blockno).mpr cached⟩
    · rw [(others n same).2.2.1] at marked
      obtain ⟨k, here⟩ := h.dirty_cached n marked
      exact ⟨k, (caches k n).mpr here⟩
  · intro n clean recorded
    by_cases same : n = blockno
    · rw [same] at clean recorded ⊢
      exact synced clean recorded
    · obtain ⟨blocks, disk, dirty, unlogged⟩ := others n same
      rw [dirty] at clean
      rw [unlogged] at recorded
      rw [blocks, disk]
      exact h.synced n clean recorded
  · intro n changed
    by_cases same : n = blockno
    · rw [same]
      refine ⟨i, ?_, (caches i blockno).mpr cached⟩
      change ((m.setBuf i b).cache.buf i).holder = _
      rw [Machine.setBuf_same]
      exact locked
    · rw [(others n same).2.2.2] at changed
      obtain ⟨k, held, here⟩ := h.unlogged_held n changed
      have other : k ≠ i := by
        rintro rfl
        exact same (here.2.symm.trans cached.2)
      refine ⟨k, ?_, (caches k n).mpr here⟩
      change ((m.setBuf i b).cache.buf k).holder = _
      rw [Machine.setBuf_other _ other]
      exact held

/-- A store into a held buffer. -/
theorem modify (h : Implements p m s) (locked : (m.cache.buf i).holder = some p)
    (cached : (m.cache.buf i).caches blockno) (update : Block → Block) :
    Implements p (m.setBuf i { m.cache.buf i with data := update (m.cache.buf i).data })
      (s.modified blockno update) := by
  have contents := h.data i blockno cached (h.wf.filled i p locked).1
  have wf := h.wf.set (i := i) (b := { m.cache.buf i with data := update (m.cache.buf i).data }) rfl rfl
    (fun q held => ⟨h.wf.referenced i q held, h.wf.filled i q held⟩) (h.wf.dirty_filled i)
  refine h.change locked cached rfl rfl wf h.disk h.log ?_ (h.dirty i blockno cached) ?_ fun n other => ?_
  · simp only [Store.modified, Function.update_self]
    rw [contents]
  · intro clean recorded
    simp only [Store.modified, Function.update_self] at clean recorded
    rw [clean] at recorded
    simp at recorded
  · exact ⟨Function.update_of_ne other _ _, rfl, rfl, Function.update_of_ne other _ _⟩

/-- `log_write` of a held buffer. -/
theorem logWrite (h : Implements p m s) (locked : (m.cache.buf i).holder = some p)
    (cached : (m.cache.buf i).caches blockno) :
    Implements p
      { m.setBuf i { m.cache.buf i with dirty := true } with log := m.log.record blockno }
      (s.record blockno) := by
  have filled := h.wf.filled i p locked
  have wf := h.wf.set (i := i) (b := { m.cache.buf i with dirty := true }) rfl rfl
    (fun q held => ⟨h.wf.referenced i q held, h.wf.filled i q held⟩) fun _ => filled
  refine h.change locked cached rfl rfl wf h.disk ?_ (h.data i blockno cached filled.1) ?_ ?_ fun n other => ?_
  · rw [h.log]
    rfl
  · exact (Function.update_self blockno true s.dirty).symm
  · intro clean _
    simp only [Store.record, Store.logged, Function.update_self] at clean
    contradiction
  · exact ⟨rfl, rfl, Function.update_of_ne other _ _, Function.update_of_ne other _ _⟩

/-- `bwrite` of a held buffer. -/
theorem bwrite (h : Implements p m s) (locked : (m.cache.buf i).holder = some p)
    (cached : (m.cache.buf i).caches blockno) :
    Implements p
      { m.setBuf i { m.cache.buf i with valid := true, dirty := false } with
        disk := Function.update m.disk blockno (m.cache.buf i).data }
      (s.written blockno) := by
  have filled := h.wf.filled i p locked
  have contents := h.data i blockno cached filled.1
  have wf := h.wf.set (i := i) (b := { m.cache.buf i with valid := true, dirty := false }) rfl rfl
    (fun q held => ⟨h.wf.referenced i q held, rfl, filled.2⟩) fun flagged => absurd flagged Bool.false_ne_true
  refine h.change locked cached rfl rfl wf ?_ h.log contents ?_ (fun _ _ => ?_) fun n other => ?_
  · simp only [Store.written, contents, h.disk]
  · exact (Function.update_self blockno false s.dirty).symm
  · exact (Function.update_self blockno (s.blocks blockno) s.disk).symm
  · exact ⟨rfl, Function.update_of_ne other _ _, Function.update_of_ne other _ _, Function.update_of_ne other _ _⟩

/-- The order of the list does not matter. -/
theorem reorder (h : Implements p m s) {mru : List (Fin NBUF)} (nodup : mru.Nodup)
    (complete : ∀ i, i ∈ mru) : Implements p { m with cache := { m.cache with mru } } s where
  wf := h.wf.reorder nodup complete
  disk := h.disk
  log := h.log
  data := h.data
  dirty := h.dirty
  dirty_cached := h.dirty_cached
  synced := h.synced
  unlogged_held := h.unlogged_held

/-- `brelse` of a held buffer whose changes are recorded. -/
theorem release (h : Implements p m s) (cached : (m.cache.buf i).caches blockno) (recorded : s.unlogged blockno = false) :
    Implements p { m with cache := m.cache.release i } s := by
  have dropped := h.rebind (i := i)
    (b := { m.cache.buf i with holder := none, refcnt := (m.cache.buf i).refcnt - 1 }) rfl rfl rfl
    (fun q held => absurd held (by simp)) (fun valid => valid)
    (fun n here valid => h.data i n here valid) (by
      intro n _ here changed
      have same : n = blockno := here.2.symm.trans cached.2
      rw [same, recorded] at changed
      contradiction)
  unfold Bcache.release
  simp only
  split
  · have front := dropped.wf.front i
    exact dropped.reorder front.nodup front.complete
  · exact dropped

/-- The reason a strict store refuses a release. -/
def unrecordedRelease (reason : Stop) : Prop := ∃ blockno, reason = .unrecorded blockno

/-- Every request that the machine answers the store answers alike, unless it refuses the
release of an unrecorded change. -/
theorem simulates [DecidableEq π] (h : Implements p m s) (op : BufOp)
    {answer : bufSignature.Answer op} (returned : Machine.handler p op m = .ok (answer, m')) :
    (∃ t, Store.handler (recording true) op s = .ok (answer, t) ∧ Implements p m' t) ∨
      ∃ reason, Store.handler (recording true) op s = .error reason ∧ unrecordedRelease reason := by
  cases op with
  | bread blockno =>
    obtain ⟨current, after⟩ := h.bread returned
    rw [current]
    exact .inl ⟨s, rfl, after⟩
  | modify blockno update =>
    obtain ⟨i, found, rfl⟩ := Machine.modify_ok returned
    obtain ⟨locked, cached⟩ := Machine.held_some found
    exact .inl ⟨s.modified blockno update, rfl, h.modify locked cached update⟩
  | logWrite blockno =>
    obtain ⟨i, log, found, accepted, rfl⟩ := Machine.logWrite_ok returned
    obtain ⟨locked, cached⟩ := Machine.held_some found
    obtain ⟨_, _, _, rfl⟩ := Log.write_ok accepted
    exact .inl ⟨s.record blockno, rfl, h.logWrite locked cached⟩
  | bwrite blockno =>
    obtain ⟨i, found, _, rfl⟩ := Machine.bwrite_ok returned
    obtain ⟨locked, cached⟩ := Machine.held_some found
    exact .inl ⟨s.written blockno, rfl, h.bwrite locked cached⟩
  | brelse blockno =>
    obtain ⟨i, found, rfl⟩ := Machine.brelse_ok returned
    obtain ⟨_, cached⟩ := Machine.held_some found
    cases changed : s.unlogged blockno with
    | true =>
      refine .inr ⟨.unrecorded blockno, ?_, blockno, rfl⟩
      simp only [Store.handler, changed, recording, Bool.and_self, ↓reduceIte]
    | false =>
      refine .inl ⟨s, ?_, h.release cached changed⟩
      simp only [Store.handler, changed, Bool.and_false, Bool.false_eq_true, ↓reduceIte]
      rfl

end Implements

/-! ## Other processes -/

/-- What other processes may do to the cache while it implements the store for one process.
`bget` for a block that is not cached may take any buffer that nobody refers to and that is
not dirty; references to an unlocked buffer come and go; an unlocked buffer may be read from
disk; the list may change its order. -/
inductive OthersAct (m : Machine π) : Machine π → Prop where
  /-- A buffer is given to a block that is not cached. -/
  | bget (i : Fin NBUF) (dev blockno refcnt : Nat) (unused : (m.cache.buf i).unused = true)
      (fresh : ∀ j, ¬((m.cache.buf j).dev = dev ∧ (m.cache.buf j).blockno = blockno)) :
      OthersAct m (m.setBuf i { m.cache.buf i with dev, blockno, valid := false, dirty := false, refcnt })
  /-- References to an unlocked buffer are taken or dropped. -/
  | refer (i : Fin NBUF) (refcnt : Nat) (unlocked : (m.cache.buf i).holder = none) :
      OthersAct m (m.setBuf i { m.cache.buf i with refcnt })
  /-- An unlocked buffer is read from disk. -/
  | fill (i : Fin NBUF) (unlocked : (m.cache.buf i).holder = none)
      (root : (m.cache.buf i).dev = ROOTDEV) (invalid : (m.cache.buf i).valid = false) :
      OthersAct m
        (m.setBuf i { m.cache.buf i with valid := true, data := m.disk (m.cache.buf i).blockno })
  /-- The list changes its order. -/
  | order (mru : List (Fin NBUF)) (perm : mru.Perm m.cache.mru) :
      OthersAct m { m with cache := { m.cache with mru } }

/-- The relation absorbs what other processes do. -/
theorem Implements.othersAct {p : π} {m m' : Machine π} {s : Store} (h : Implements p m s)
    (other : OthersAct m m') : Implements p m' s := by
  cases other with
  | bget i dev blockno refcnt unused fresh =>
    simp only [Buf.unused, Bool.and_eq_true, beq_iff_eq, Bool.not_eq_true'] at unused
    exact h.recycle unused.1 unused.2 refcnt fresh
  | refer i refcnt unlocked =>
    refine h.rebind rfl rfl rfl ?_ ?_ ?_ ?_
    · intro q locked
      simp only [unlocked] at locked
      contradiction
    · exact fun valid => valid
    · exact fun n here valid => h.data i n here valid
    · exact fun _ locked _ _ => locked
  | fill i unlocked root invalid =>
    refine h.rebind rfl rfl rfl ?_ ?_ ?_ ?_
    · intro q locked
      simp only [unlocked] at locked
      contradiction
    · exact fun _ => rfl
    · intro n here _
      have found := h.current here unlocked
      rw [invalid, if_neg Bool.false_ne_true] at found
      rw [here.2]
      exact found
    · exact fun _ locked _ _ => locked
  | order mru perm =>
    exact h.reorder (perm.nodup_iff.mpr h.wf.nodup) fun i => perm.mem_iff.mpr (h.wf.complete i)

/-- Kernel code that returned amid other processes returns the same on the store, unless it
releases an unrecorded change. -/
theorem Implements.runsAmid [DecidableEq π] {α : Type} {p : π} {m m' : Machine π} {s : Store}
    {code : Kernel α} {value : α} (h : Implements p m s)
    (amid : RunsAmid (Machine.handler p) OthersAct code m value m') :
    (∃ t, Store.exec (recording true) code s = .ok (value, t) ∧ Implements p m' t) ∨
      ∃ blockno, Store.exec (recording true) code s = .error (.unrecorded blockno) := by
  have simulated := RunsAmid.simulates (Implements p) unrecordedRelease
    (fun op _ _ _ _ related returned => related.simulates op returned)
    (fun _ _ _ related other => related.othersAct other) amid h
  rcases simulated with returned | ⟨_, stopped, blockno, rfl⟩
  · exact .inl returned
  · exact .inr ⟨blockno, stopped⟩

end Xv6
