import Mathlib.Data.Fintype.Card
import Xv6.Lib.Protocol
import Xv6.Verif.Coherence

/-!
# Counting buffers

One process uses the cache alone. A ledger of the blocks it holds and of the blocks that are
dirty determines which buffers are in use; as long as they are fewer than `NBUF`, `bget` finds a
buffer. Every request changes the ledger in a fixed way or is refused for a reason that the
ledger and the log tell. `commit` holds two buffers at a time and leaves no logged block dirty.
-/

namespace Xv6

open Program

variable {π : Type}

/-- The blocks whose buffers the process holds and the blocks whose buffers are dirty. -/
structure Ledger where
  /-- Blocks whose buffers are held. -/
  held : Finset Nat
  /-- Blocks whose buffers are dirty. -/
  dirty : Finset Nat

namespace Ledger

/-- What a request that returns does to the ledger. -/
def after (l : Ledger) : BufOp → Ledger
  | .bread blockno => { l with held := insert blockno l.held }
  | .modify _ _ => l
  | .logWrite blockno => { l with dirty := insert blockno l.dirty }
  | .bwrite blockno => { l with dirty := l.dirty.erase blockno }
  | .brelse blockno => { l with held := l.held.erase blockno }

/-- Why a request does not return: the process waits for itself, uses a buffer it does not hold,
goes beyond the disk, or `log_write` panics. -/
def refuses (l : Ledger) (log : Log) : BufOp → Stop → Prop
  | .bread blockno, reason =>
    (reason = .blocked ∧ blockno ∈ l.held) ∨
      (reason = .panic "incorrect blockno" ∧ FSSIZE ≤ blockno)
  | .modify blockno _, reason => reason = .unheld blockno ∧ blockno ∉ l.held
  | .logWrite blockno, reason =>
    (reason = .unheld blockno ∧ blockno ∉ l.held) ∨ log.write blockno = .error reason
  | .bwrite blockno, reason =>
    (reason = .unheld blockno ∧ blockno ∉ l.held) ∨
      (reason = .panic "incorrect blockno" ∧ FSSIZE ≤ blockno)
  | .brelse blockno, reason => reason = .unheld blockno ∧ blockno ∉ l.held

/-- Fewer buffers are in use than there are. -/
def Room (l : Ledger) : Prop := l.held.card + l.dirty.card < NBUF

end Ledger

/-- The process alone uses the cache, and the ledger is right. -/
structure Tallied (p : π) (l : Ledger) (m : Machine π) : Prop where
  wf : m.cache.Wf
  /-- The only references are those of the buffers the process holds. -/
  sole : ∀ i, ((m.cache.buf i).holder = none ∧ (m.cache.buf i).refcnt = 0) ∨
    ((m.cache.buf i).holder = some p ∧ (m.cache.buf i).refcnt = 1)
  /-- The held blocks. -/
  held : ∀ blockno, blockno ∈ l.held ↔
    ∃ i, (m.cache.buf i).holder = some p ∧ (m.cache.buf i).caches blockno
  /-- The dirty blocks. -/
  dirty : ∀ i blockno, (m.cache.buf i).caches blockno →
    ((m.cache.buf i).dirty = true ↔ blockno ∈ l.dirty)
  /-- Dirty blocks are cached. -/
  cached : ∀ blockno ∈ l.dirty, ∃ i, (m.cache.buf i).caches blockno

namespace Tallied

variable {p : π} {l l' : Ledger} {m m' : Machine π} {i : Fin NBUF} {blockno : Nat}

/-- A buffer that may not be recycled is held or dirty. -/
theorem in_use (t : Tallied p l m) (used : (m.cache.buf i).unused = false) :
    (m.cache.buf i).caches (m.cache.buf i).blockno ∧
      (m.cache.buf i).blockno ∈ l.held ∪ l.dirty := by
  rcases t.sole i with ⟨_, idle⟩ | ⟨locked, _⟩
  · have marked : (m.cache.buf i).dirty = true := by
      simpa only [Buf.unused, idle, beq_self_eq_true, Bool.true_and, Bool.not_eq_false'] using used
    have here : (m.cache.buf i).caches (m.cache.buf i).blockno :=
      ⟨(t.wf.dirty_filled i marked).2, rfl⟩
    exact ⟨here, Finset.mem_union_right _ ((t.dirty i _ here).mp marked)⟩
  · have here : (m.cache.buf i).caches (m.cache.buf i).blockno := ⟨(t.wf.filled i p locked).2, rfl⟩
    exact ⟨here, Finset.mem_union_left _ ((t.held _).mpr ⟨i, locked, here⟩)⟩

/-- No more buffers are in use than the ledger has blocks. -/
theorem used_le (t : Tallied p l m) :
    (Finset.univ.filter fun i => (m.cache.buf i).unused = false).card ≤ l.held.card + l.dirty.card := by
  have injective : Set.InjOn (fun i => (m.cache.buf i).blockno)
      (Finset.univ.filter fun i => (m.cache.buf i).unused = false : Finset (Fin NBUF)) := by
    intro i used j used' same
    have first := (t.in_use (Finset.mem_filter.mp used).2).1
    have second := (t.in_use (Finset.mem_filter.mp used').2).1
    simp only at same
    rw [← same] at second
    exact t.wf.unique i j _ first second
  have covered := Finset.card_le_card_of_injOn _
    (fun i used => (t.in_use (Finset.mem_filter.mp used).2).2) injective
  exact covered.trans (Finset.card_union_le l.held l.dirty)

/-- With room in the ledger there is a buffer to recycle. -/
theorem victim (t : Tallied p l m) (room : l.Room) : ∃ i, m.cache.victim = some i := by
  cases found : m.cache.victim with
  | some i => exact ⟨i, rfl⟩
  | none =>
    exfalso
    have used : ∀ i, (m.cache.buf i).unused = false := by
      intro i
      have test := List.find?_eq_none.mp found i (List.mem_reverse.mpr (t.wf.complete i))
      exact Bool.eq_false_of_not_eq_true test
    have all := t.used_le
    rw [Finset.filter_true_of_mem fun i _ => used i, Finset.card_univ, Fintype.card_fin] at all
    unfold Ledger.Room at room
    omega

/-- `isBufFull` counts the buffers that are not in use. -/
theorem isBufFull (t : Tallied p l m) (room : l.held.card + l.dirty.card + 1 + MAXOPBLOCKS < NBUF) :
    m.cache.isBufFull = false := by
  have same : (m.cache.mru.reverse.filter fun i => (m.cache.buf i).unused).toFinset =
      Finset.univ.filter fun i => ¬(m.cache.buf i).unused = false := by
    ext i
    simp [t.wf.complete i]
  have distinct : (m.cache.mru.reverse.filter fun i => (m.cache.buf i).unused).Nodup :=
    (List.nodup_reverse.mpr t.wf.nodup).filter _
  have count := List.toFinset_card_of_nodup distinct
  have split := Finset.card_filter_add_card_filter_not (s := (Finset.univ : Finset (Fin NBUF)))
    (fun i => (m.cache.buf i).unused = false)
  have used := t.used_le
  rw [Finset.card_univ, Fintype.card_fin] at split
  rw [same] at count
  unfold Bcache.isBufFull
  rw [decide_eq_false_iff_not, ← count]
  omega

/-- Replacing a buffer by one for the same block. -/
theorem set (t : Tallied p l m) {b : Buf π} (wf : (m.setBuf i b).cache.Wf)
    (cached : (m.cache.buf i).caches blockno) (dev : b.dev = (m.cache.buf i).dev)
    (number : b.blockno = (m.cache.buf i).blockno)
    (sole : (b.holder = none ∧ b.refcnt = 0) ∨ (b.holder = some p ∧ b.refcnt = 1))
    (held : ∀ n, n ∈ l'.held ↔ if n = blockno then b.holder = some p else n ∈ l.held)
    (dirty : ∀ n, n ∈ l'.dirty ↔ if n = blockno then b.dirty = true else n ∈ l.dirty) :
    Tallied p l' (m.setBuf i b) := by
  have caches := Machine.setBuf_caches (m := m) dev number
  have apart : ∀ j n, j ≠ i → (m.cache.buf j).caches n → n ≠ blockno := by
    rintro j n other here rfl
    exact other (t.wf.unique j i n here cached)
  constructor
  · exact wf
  · intro j
    by_cases here : j = i
    · rw [here, Machine.setBuf_same]
      exact sole
    · rw [Machine.setBuf_other b here]
      exact t.sole j
  · intro n
    rw [held n]
    by_cases same : n = blockno
    · rw [if_pos same, same]
      constructor
      · intro locked
        exact ⟨i, by rw [Machine.setBuf_same]; exact locked, (caches i blockno).mpr cached⟩
      · rintro ⟨j, locked, here⟩
        rw [caches] at here
        rw [t.wf.unique j i blockno here cached, Machine.setBuf_same] at locked
        exact locked
    · rw [if_neg same, t.held n]
      constructor
      · rintro ⟨j, locked, here⟩
        have other : j ≠ i := by
          rintro rfl
          exact same (here.2.symm.trans cached.2)
        exact ⟨j, by rw [Machine.setBuf_other b other]; exact locked, (caches j n).mpr here⟩
      · rintro ⟨j, locked, here⟩
        rw [caches] at here
        have other : j ≠ i := by
          rintro rfl
          exact same (here.2.symm.trans cached.2)
        rw [Machine.setBuf_other b other] at locked
        exact ⟨j, locked, here⟩
  · intro j n here
    rw [caches] at here
    rw [dirty n]
    by_cases equal : j = i
    · rw [equal] at here
      have same : n = blockno := here.2.symm.trans cached.2
      rw [equal, Machine.setBuf_same, if_pos same]
    · rw [Machine.setBuf_other b equal, if_neg (apart j n equal here)]
      exact t.dirty j n here
  · intro n member
    rw [dirty n] at member
    by_cases same : n = blockno
    · rw [same]
      exact ⟨i, (caches i blockno).mpr cached⟩
    · rw [if_neg same] at member
      obtain ⟨j, here⟩ := t.cached n member
      exact ⟨j, (caches j n).mpr here⟩

/-- Giving a buffer that may be recycled to a block that is not cached. -/
theorem recycle (t : Tallied p l m) (idle : (m.cache.buf i).refcnt = 0)
    (clean : (m.cache.buf i).dirty = false)
    (fresh : ∀ j, ¬(m.cache.buf j).caches blockno) :
    Tallied p l (m.setBuf i
      { m.cache.buf i with dev := ROOTDEV, blockno, valid := false, dirty := false, refcnt := 0 }) := by
  have unlocked := t.wf.unlocked idle
  constructor
  · exact t.wf.recycle idle 0 fresh
  · intro j
    by_cases here : j = i
    · rw [here, Machine.setBuf_same]
      exact .inl ⟨unlocked, rfl⟩
    · rw [Machine.setBuf_other _ here]
      exact t.sole j
  · intro n
    rw [t.held n]
    constructor
    · rintro ⟨j, locked, here⟩
      have other : j ≠ i := by
        rintro rfl
        rw [unlocked] at locked
        contradiction
      exact ⟨j, by rw [Machine.setBuf_other _ other]; exact ⟨locked, here⟩⟩
    · rintro ⟨j, locked, here⟩
      have other : j ≠ i := by
        rintro rfl
        rw [Machine.setBuf_same, unlocked] at locked
        contradiction
      rw [Machine.setBuf_other _ other] at locked here
      exact ⟨j, locked, here⟩
  · intro j n here
    by_cases equal : j = i
    · rw [equal, Machine.setBuf_same] at here ⊢
      have same : n = blockno := here.2.symm
      rw [same]
      constructor
      · exact fun marked => absurd marked Bool.false_ne_true
      · intro member
        obtain ⟨k, there⟩ := t.cached blockno member
        exact absurd there (fresh k)
    · rw [Machine.setBuf_other _ equal] at here ⊢
      exact t.dirty j n here
  · intro n member
    obtain ⟨j, here⟩ := t.cached n member
    have other : j ≠ i := by
      rintro rfl
      have marked := (t.dirty j n here).mpr member
      rw [clean] at marked
      contradiction
    exact ⟨j, by rw [Machine.setBuf_other _ other]; exact here⟩

/-- The order of the list does not matter. -/
theorem reorder (t : Tallied p l m) {mru : List (Fin NBUF)} (nodup : mru.Nodup)
    (complete : ∀ i, i ∈ mru) : Tallied p l { m with cache := { m.cache with mru } } where
  wf := t.wf.reorder nodup complete
  sole := t.sole
  held := t.held
  dirty := t.dirty
  cached := t.cached

/-! ## Requests -/

/-- A buffer the process holds caches a held block, and the other way round. -/
theorem held_some [DecidableEq π] (t : Tallied p l m) (found : m.held p blockno = some i) :
    blockno ∈ l.held := (t.held blockno).mpr ⟨i, Machine.held_some found⟩

/-- Where the process holds no buffer of a block the block is not held. -/
theorem held_none [DecidableEq π] (t : Tallied p l m) (missing : m.held p blockno = none) :
    blockno ∉ l.held := by
  intro member
  obtain ⟨i, locked, cached⟩ := (t.held blockno).mp member
  have test := List.find?_eq_none.mp missing i (List.mem_finRange i)
  simp only [Bool.and_eq_true, decide_eq_true_eq, beq_iff_eq, not_and] at test
  exact test ⟨locked, cached.1⟩ cached.2

/-- `bget` finds the buffer of the block, or recycles one without changing the ledger. -/
theorem bget (t : Tallied p l m) (room : l.Room) (blockno : Nat) :
    ∃ i m₀, Tallied p l m₀ ∧ (m₀.cache.buf i).caches blockno ∧ m₀.disk = m.disk ∧ m₀.log = m.log ∧
      m.cache.bget ROOTDEV blockno =
        .ok (i, m₀.cache.set i { m₀.cache.buf i with refcnt := (m₀.cache.buf i).refcnt + 1 }) := by
  unfold Bcache.bget
  cases hit : m.cache.cached ROOTDEV blockno with
  | some i => exact ⟨i, m, t, Bcache.cached_some hit, rfl, rfl, rfl⟩
  | none =>
    obtain ⟨i, spare⟩ := t.victim room
    have unused := Bcache.victim_some spare
    have fresh := Bcache.cached_none t.wf hit
    refine ⟨i, _, t.recycle unused.1 unused.2 fresh, ?_, rfl, rfl, ?_⟩
    · rw [Machine.setBuf_same]
      exact ⟨rfl, rfl⟩
    · simp [spare, Machine.setBuf, Bcache.set]

/-- Locking the buffer that `bget` returned. -/
theorem lock (t : Tallied p l m) (cached : (m.cache.buf i).caches blockno)
    (unlocked : (m.cache.buf i).holder = none) (data : Block) :
    Tallied p (l.after (.bread blockno)) (m.setBuf i { m.cache.buf i with
      holder := some p, refcnt := (m.cache.buf i).refcnt + 1, valid := true, data }) := by
  have idle : (m.cache.buf i).refcnt = 0 := by
    rcases t.sole i with ⟨_, zero⟩ | ⟨locked, _⟩
    · exact zero
    · rw [unlocked] at locked
      contradiction
  refine t.set ?_ cached rfl rfl ?_ ?_ ?_
  · exact t.wf.set rfl rfl (fun _ _ => ⟨Nat.succ_pos _, rfl, cached.1⟩) fun _ => ⟨rfl, cached.1⟩
  · exact .inr ⟨rfl, by rw [idle]⟩
  · intro n
    by_cases same : n = blockno <;> simp [Ledger.after, same]
  · intro n
    by_cases same : n = blockno
    · simp only [same, ↓reduceIte]
      exact (t.dirty i blockno cached).symm
    · simp only [same, ↓reduceIte]
      rfl

/-- `bread`. -/
theorem bread [DecidableEq π] (t : Tallied p l m) (room : l.Room) (blockno : Nat) :
    match m.bread p blockno with
    | .ok (_, m') => Tallied p (l.after (.bread blockno)) m'
    | .error reason => l.refuses m.log (.bread blockno) reason := by
  obtain ⟨i, m₀, t₀, cached, disk, log, found⟩ := t.bget room blockno
  unfold Machine.bread
  rw [found]
  simp only
  cases locked : (m₀.cache.buf i).holder with
  | some q =>
    have owner : (m₀.cache.buf i).holder = some p := by
      rcases t₀.sole i with ⟨free, _⟩ | ⟨mine, _⟩
      · rw [locked] at free
        contradiction
      · exact mine
    simp only [Bcache.acquiresleep, Bcache.set_same]
    exact .inl ⟨rfl, (t₀.held blockno).mpr ⟨i, owner, cached⟩⟩
  | none =>
    have after := t₀.lock cached locked
    simp only [Bcache.acquiresleep, Bcache.set_same, Bcache.set_set, Machine.fill]
    cases valid : (m₀.cache.buf i).valid with
    | true =>
      have read := after (m₀.cache.buf i).data
      rw [← disk, ← log]
      exact read
    | false =>
      have clean : (m₀.cache.buf i).dirty = false := by
        by_contra marked
        have filled := t₀.wf.dirty_filled i (Bool.eq_true_of_not_eq_false marked)
        rw [valid] at filled
        exact absurd filled.1 Bool.false_ne_true
      simp only [Bool.false_eq_true, ↓reduceIte, Machine.iderw, Bcache.set_same, ne_eq,
        not_true_eq_false, Bool.false_and, clean]
      by_cases beyond : FSSIZE ≤ (m₀.cache.buf i).blockno
      · rw [if_pos beyond]
        rw [cached.2] at beyond
        exact .inr ⟨rfl, beyond⟩
      · rw [if_neg beyond]
        have read := after (m₀.disk (m₀.cache.buf i).blockno)
        simp only [Machine.setBuf, Bcache.set_set]
        simp only [Machine.setBuf, clean] at read
        rw [← disk, ← log]
        exact read

/-- Only the cache is tallied. -/
theorem congr (t : Tallied p l m) (same : m'.cache = m.cache) : Tallied p l m' := by
  constructor
  · rw [same]
    exact t.wf
  · rw [same]
    exact t.sole
  · rw [same]
    exact t.held
  · rw [same]
    exact t.dirty
  · rw [same]
    exact t.cached

section Held

variable [DecidableEq π]

/-- Replacing the buffer of a held block by one that the process still holds. -/
theorem keep (t : Tallied p l m) (found : m.held p blockno = some i) {b : Buf π}
    (dev : b.dev = (m.cache.buf i).dev) (number : b.blockno = (m.cache.buf i).blockno)
    (holder : b.holder = (m.cache.buf i).holder) (refcnt : b.refcnt = (m.cache.buf i).refcnt)
    (valid : b.valid = true) (held : l'.held = l.held)
    (dirty : ∀ n, n ∈ l'.dirty ↔ if n = blockno then b.dirty = true else n ∈ l.dirty) :
    Tallied p l' (m.setBuf i b) := by
  obtain ⟨locked, cached⟩ := Machine.held_some found
  have root : b.dev = ROOTDEV := dev.trans cached.1
  refine t.set ?_ cached dev number ?_ ?_ dirty
  · refine t.wf.set dev number ?_ fun _ => ⟨valid, root⟩
    intro q owner
    rw [holder] at owner
    rw [refcnt]
    exact ⟨t.wf.referenced i q owner, valid, root⟩
  · rw [holder, refcnt]
    exact t.sole i
  · intro n
    rw [held, holder]
    by_cases same : n = blockno
    · simp only [same, locked, t.held_some found, ↓reduceIte]
    · simp only [same, ↓reduceIte]

/-- Releasing a held buffer. -/
theorem release (t : Tallied p l m) (found : m.held p blockno = some i) :
    Tallied p (l.after (.brelse blockno)) { m with cache := m.cache.release i } := by
  obtain ⟨locked, cached⟩ := Machine.held_some found
  have single : (m.cache.buf i).refcnt = 1 := by
    rcases t.sole i with ⟨free, _⟩ | ⟨_, one⟩
    · rw [locked] at free
      contradiction
    · exact one
  have dropped : Tallied p (l.after (.brelse blockno))
      (m.setBuf i { m.cache.buf i with holder := none, refcnt := (m.cache.buf i).refcnt - 1 }) := by
    refine t.set ?_ cached rfl rfl (.inl ⟨rfl, by rw [single]⟩) ?_ ?_
    · exact t.wf.set rfl rfl (fun _ owner => nomatch owner) (t.wf.dirty_filled i)
    · intro n
      by_cases same : n = blockno <;> simp [Ledger.after, same]
    · intro n
      by_cases same : n = blockno
      · simp only [same, ↓reduceIte]
        exact (t.dirty i blockno cached).symm
      · simp only [same, ↓reduceIte]
        rfl
  have front := dropped.wf.front i
  have moved := dropped.reorder front.nodup front.complete
  refine moved.congr ?_
  simp [Bcache.release, single, Machine.setBuf, Bcache.set]

/-- A request that returns changes the ledger as the request says. -/
theorem returns (t : Tallied p l m) (room : l.Room) {op : BufOp} {answer : bufSignature.Answer op}
    (returned : Machine.handler p op m = .ok (answer, m')) : Tallied p (l.after op) m' := by
  cases op with
  | bread blockno =>
    have read := t.bread room blockno
    have same : m.bread p blockno = .ok (answer, m') := returned
    rw [same] at read
    exact read
  | modify blockno update =>
    obtain ⟨i, found, rfl⟩ := Machine.modify_ok returned
    obtain ⟨locked, cached⟩ := Machine.held_some found
    have filled := t.wf.filled i p locked
    refine t.keep found rfl rfl rfl rfl filled.1 rfl ?_
    intro n
    by_cases same : n = blockno
    · simp only [same, ↓reduceIte]
      exact (t.dirty i blockno cached).symm
    · simp only [same, ↓reduceIte]
      rfl
  | logWrite blockno =>
    obtain ⟨i, log, found, _, rfl⟩ := Machine.logWrite_ok returned
    have filled := t.wf.filled i p (Machine.held_some found).1
    have marked : Tallied p (l.after (.logWrite blockno))
        (m.setBuf i { m.cache.buf i with dirty := true }) := by
      refine t.keep found rfl rfl rfl rfl filled.1 rfl ?_
      intro n
      by_cases same : n = blockno <;> simp [Ledger.after, same]
    exact marked.congr rfl
  | bwrite blockno =>
    obtain ⟨i, found, _, rfl⟩ := Machine.bwrite_ok returned
    have cleared : Tallied p (l.after (.bwrite blockno))
        (m.setBuf i { m.cache.buf i with valid := true, dirty := false }) := by
      refine t.keep found rfl rfl rfl rfl rfl rfl ?_
      intro n
      by_cases same : n = blockno <;> simp [Ledger.after, same]
    exact cleared.congr rfl
  | brelse blockno =>
    obtain ⟨i, found, rfl⟩ := Machine.brelse_ok returned
    exact t.release found

/-- A request that does not return is refused for a reason the ledger or the log tells. -/
theorem refused (t : Tallied p l m) (room : l.Room) {op : BufOp} {reason : Stop}
    (stopped : Machine.handler p op m = .error reason) : l.refuses m.log op reason := by
  cases op with
  | bread blockno =>
    have read := t.bread room blockno
    have same : m.bread p blockno = .error reason := stopped
    rw [same] at read
    exact read
  | modify blockno update =>
    simp only [Machine.handler] at stopped
    cases found : m.held p blockno with
    | none =>
      simp only [found] at stopped
      exact ⟨(Except.error.inj stopped).symm, t.held_none found⟩
    | some i => simp only [found] at stopped; contradiction
  | logWrite blockno =>
    simp only [Machine.handler] at stopped
    cases found : m.held p blockno with
    | none =>
      simp only [found] at stopped
      exact .inl ⟨(Except.error.inj stopped).symm, t.held_none found⟩
    | some i =>
      have number := (Machine.held_some found).2.2
      simp only [found, Machine.logWrite, number] at stopped
      cases result : m.log.write blockno with
      | ok log => simp only [result] at stopped; contradiction
      | error cause =>
        simp only [result] at stopped
        rw [← Except.error.inj stopped]
        exact .inr result
  | bwrite blockno =>
    simp only [Machine.handler] at stopped
    cases found : m.held p blockno with
    | none =>
      simp only [found] at stopped
      exact .inl ⟨(Except.error.inj stopped).symm, t.held_none found⟩
    | some i =>
      obtain ⟨locked, cached⟩ := Machine.held_some found
      simp only [found, Machine.bwrite, Machine.iderw, locked, Machine.setBuf_same, cached.2, ne_eq,
        not_true_eq_false, ↓reduceIte, Bool.not_true, Bool.and_false, Bool.false_eq_true] at stopped
      by_cases beyond : FSSIZE ≤ blockno
      · rw [if_pos beyond] at stopped
        exact .inr ⟨(Except.error.inj stopped).symm, beyond⟩
      · rw [if_neg beyond] at stopped
        contradiction
  | brelse blockno =>
    simp only [Machine.handler] at stopped
    cases found : m.held p blockno with
    | none =>
      simp only [found] at stopped
      exact ⟨(Except.error.inj stopped).symm, t.held_none found⟩
    | some i =>
      simp only [found, Machine.brelse, (Machine.held_some found).1, ne_eq, not_true_eq_false,
        ↓reduceIte] at stopped
      contradiction

end Held

end Tallied

/-! ## Commit -/

namespace Ledger

/-- A request on a block of the disk for which the buffer is held, or not held for `bread`. -/
def accepts (l : Ledger) : BufOp → Prop
  | .bread blockno => blockno ∉ l.held ∧ blockno < FSSIZE
  | .bwrite blockno => blockno ∈ l.held ∧ blockno < FSSIZE
  | .modify blockno _ => blockno ∈ l.held
  | .logWrite blockno => blockno ∈ l.held
  | .brelse blockno => blockno ∈ l.held

/-- A request other than `log_write` while there is room, and accepted where that matters. -/
def Step (careful : Prop) (l : Ledger) (op : BufOp) (l' : Ledger) : Prop :=
  l' = l.after op ∧ l.Room ∧ (∀ blockno, op ≠ .logWrite blockno) ∧ (careful → l.accepts op)

/-- An accepted request is not refused. -/
theorem not_refused {l : Ledger} {log : Log} {op : BufOp} {reason : Stop} (accepted : l.accepts op)
    (other : ∀ blockno, op ≠ .logWrite blockno) : ¬l.refuses log op reason := by
  intro refused
  cases op with
  | bread blockno =>
    rcases refused with ⟨_, held⟩ | ⟨_, beyond⟩
    · exact accepted.1 held
    · exact Nat.not_lt.mpr beyond accepted.2
  | modify blockno update => exact refused.2 accepted
  | logWrite blockno => exact other blockno rfl
  | bwrite blockno =>
    rcases refused with ⟨_, missing⟩ | ⟨_, beyond⟩
    · exact missing accepted.1
    · exact Nat.not_lt.mpr beyond accepted.2
  | brelse blockno => exact refused.2 accepted

/-- Only `log_write` is refused with the panic of a full log, and nothing for want of buffers. -/
theorem refused_reason {l : Ledger} {log : Log} {op : BufOp} {reason : Stop}
    (refused : l.refuses log op reason) (other : ∀ blockno, op ≠ .logWrite blockno) :
    reason ≠ .panic "bget: no buffers" ∧ reason ≠ .panic "too big a transaction" := by
  cases op with
  | bread blockno => rcases refused with ⟨rfl, _⟩ | ⟨rfl, _⟩ <;> decide
  | modify blockno update =>
    obtain ⟨rfl, _⟩ := refused
    exact ⟨Stop.noConfusion, Stop.noConfusion⟩
  | logWrite blockno => exact absurd rfl (other blockno)
  | bwrite blockno =>
    rcases refused with ⟨rfl, _⟩ | ⟨rfl, _⟩
    · exact ⟨Stop.noConfusion, Stop.noConfusion⟩
    · decide
  | brelse blockno =>
    obtain ⟨rfl, _⟩ := refused
    exact ⟨Stop.noConfusion, Stop.noConfusion⟩

/-- The ledger within given blocks, and nothing held where that matters. -/
structure Within (careful : Prop) (held dirty : Finset Nat) (l : Ledger) : Prop where
  /-- The held blocks are among the given ones. -/
  held : l.held ⊆ held
  /-- The dirty blocks are among the given ones. -/
  dirty : l.dirty ⊆ dirty
  none_held : careful → l.held = ∅

variable {careful : Prop} {held dirty : Finset Nat} {l : Ledger} {α : Type}
  {final : α → Ledger → Prop}

/-- With two more buffers there is room. -/
theorem Within.room (within : l.Within careful held dirty) (room : held.card + 2 + dirty.card < NBUF)
    (x y : Nat) (more : Finset Nat) (few : more ⊆ dirty) :
    Room ⟨insert y (insert x l.held), more⟩ ∧ Room ⟨insert x l.held, more⟩ ∧ Room ⟨l.held, more⟩ := by
  have first := Finset.card_insert_le x l.held
  have second := Finset.card_insert_le y (insert x l.held)
  have base := Finset.card_le_card within.held
  have marked := Finset.card_le_card few
  unfold Room
  simp only
  omega

/-- One pass of the loops of `write_log` and `install_trans`: two buffers are read, one of them
is changed and written, and both are released. -/
theorem follows_copy {x y z u v : Nat} {update : Block → Block → Block → Block} {rest : Kernel α}
    (within : l.Within careful held dirty) (room : held.card + 2 + dirty.card < NBUF)
    (target : z = x ∨ z = y) (order : (u = x ∧ v = y) ∨ (u = y ∧ v = x))
    (valid : careful → x ≠ y ∧ x < FSSIZE ∧ y < FSSIZE)
    (later : ∀ r, r.Within careful held (dirty.erase z) → Program.Follows (Step careful) final rest r) :
    Program.Follows (Step careful) final
      (do
        let first ← bread x
        let second ← bread y
        modify z (update first second)
        bwrite z
        brelse u
        brelse v
        rest) l := by
  obtain ⟨room₂, room₁, room₀⟩ := within.room room x y l.dirty within.dirty
  have fewer : l.dirty.erase z ⊆ dirty := (Finset.erase_subset z l.dirty).trans within.dirty
  obtain ⟨room₃, _, _⟩ := within.room room x y (l.dirty.erase z) fewer
  have smaller : Room ⟨(insert y (insert x l.held)).erase u, l.dirty.erase z⟩ := by
    have less := Finset.card_le_card (Finset.erase_subset u (insert y (insert x l.held)))
    unfold Room at room₃ ⊢
    simp only at room₃ ⊢
    omega
  have member : z ∈ insert y (insert x l.held) := by
    rcases target with rfl | rfl <;> simp
  have opened : ∀ w, w = x ∨ w = y → w ∈ insert y (insert x l.held) := by
    rintro w (rfl | rfl) <;> simp
  refine follows_perform ⟨rfl, room₀, fun _ => nofun, ?_⟩ fun first => ?_
  · intro matters
    exact ⟨by rw [within.none_held matters]; exact Finset.notMem_empty x, (valid matters).2.1⟩
  refine follows_perform ⟨rfl, room₁, fun _ => nofun, ?_⟩ fun second => ?_
  · intro matters
    obtain ⟨apart, _, inside⟩ := valid matters
    refine ⟨?_, inside⟩
    simp only [after, within.none_held matters, Finset.mem_insert, Finset.notMem_empty, or_false]
    exact Ne.symm apart
  refine follows_perform ⟨rfl, room₂, fun _ => nofun, fun _ => member⟩ fun _ => ?_
  refine follows_perform ⟨rfl, room₂, fun _ => nofun, ?_⟩ fun _ => ?_
  · intro matters
    obtain ⟨_, left, right⟩ := valid matters
    exact ⟨member, by rcases target with rfl | rfl <;> assumption⟩
  refine follows_perform ⟨rfl, room₃, fun _ => nofun, ?_⟩ fun _ => ?_
  · exact fun _ => opened u (by rcases order with ⟨rfl, _⟩ | ⟨rfl, _⟩ <;> simp)
  refine follows_perform ⟨rfl, smaller, fun _ => nofun, ?_⟩ fun _ => ?_
  · intro matters
    have apart := (valid matters).1
    refine Finset.mem_erase.mpr ⟨?_, opened v (by rcases order with ⟨_, rfl⟩ | ⟨_, rfl⟩ <;> simp)⟩
    rcases order with ⟨rfl, rfl⟩ | ⟨rfl, rfl⟩
    · exact Ne.symm apart
    · exact apart
  apply later
  have back : ((insert y (insert x l.held)).erase u).erase v ⊆ l.held := by
    intro b remains
    simp only [Finset.mem_erase, Finset.mem_insert] at remains
    rcases order with ⟨rfl, rfl⟩ | ⟨rfl, rfl⟩ <;> tauto
  constructor
  · exact back.trans within.held
  · exact Finset.erase_subset_erase z within.dirty
  · intro matters
    have empty := within.none_held matters
    rw [empty] at back
    exact Finset.subset_empty.mp (by simpa only [after, empty] using back)

/-- Within more blocks. -/
theorem Within.mono {dirty' : Finset Nat} (within : l.Within careful held dirty)
    (more : dirty ⊆ dirty') : l.Within careful held dirty' :=
  ⟨within.held, within.dirty.trans more, within.none_held⟩

/-- The loop of `write_log`. -/
theorem follows_writeLog {start tail : Nat} {lh : List Nat} (within : l.Within careful held dirty)
    (room : held.card + 2 + dirty.card < NBUF)
    (valid : careful → start + tail + lh.length < FSSIZE ∧
      ∀ b ∈ lh, b < FSSIZE ∧ (b ≤ start + tail ∨ start + tail + lh.length < b)) :
    Program.Follows (Step careful) (fun _ r => r.Within careful held dirty) (writeLogFrom start tail lh) l := by
  induction lh generalizing tail l with
  | nil => exact within
  | cons blockno rest ih =>
    refine follows_copy within room (.inl rfl) (.inr ⟨rfl, rfl⟩) ?_ fun r between => ?_
    · intro matters
      obtain ⟨area, each⟩ := valid matters
      obtain ⟨inside, apart⟩ := each blockno List.mem_cons_self
      simp only [List.length_cons] at area apart
      exact ⟨by omega, by omega, inside⟩
    · apply ih (between.mono (Finset.erase_subset _ dirty))
      intro matters
      obtain ⟨area, each⟩ := valid matters
      simp only [List.length_cons] at area each
      refine ⟨by omega, fun b member => ?_⟩
      obtain ⟨inside, apart⟩ := each b (List.mem_cons_of_mem _ member)
      exact ⟨inside, by omega⟩

/-- The loop of `install_trans`: it writes every logged block, which is then not dirty. -/
theorem follows_install {start tail : Nat} {lh : List Nat} (within : l.Within careful held dirty)
    (room : held.card + 2 + dirty.card < NBUF)
    (valid : careful → start + tail + lh.length < FSSIZE ∧
      ∀ b ∈ lh, b < FSSIZE ∧ (b ≤ start + tail ∨ start + tail + lh.length < b)) :
    Program.Follows (Step careful) (fun _ r => r.Within careful held (dirty \ lh.toFinset))
      (installFrom start tail lh) l := by
  induction lh generalizing tail l dirty with
  | nil =>
    apply within.mono
    simp
  | cons blockno rest ih =>
    refine follows_copy within room (.inr rfl) (.inl ⟨rfl, rfl⟩) ?_ fun r between => ?_
    · intro matters
      obtain ⟨area, each⟩ := valid matters
      obtain ⟨inside, apart⟩ := each blockno List.mem_cons_self
      simp only [List.length_cons] at area apart
      exact ⟨by omega, by omega, inside⟩
    · have fewer := Finset.card_le_card (Finset.erase_subset blockno dirty)
      have valid' : careful → start + (tail + 1) + rest.length < FSSIZE ∧
          ∀ b ∈ rest, b < FSSIZE ∧ (b ≤ start + (tail + 1) ∨ start + (tail + 1) + rest.length < b) := by
        intro matters
        obtain ⟨area, each⟩ := valid matters
        simp only [List.length_cons] at area each
        refine ⟨by omega, fun b member => ?_⟩
        obtain ⟨inside, apart⟩ := each b (List.mem_cons_of_mem _ member)
        exact ⟨inside, by omega⟩
      have later := ih between (by omega) valid'
      refine follows_mono later fun _ r after => after.mono ?_
      intro b remains
      simp only [Finset.mem_sdiff, Finset.mem_erase, List.mem_toFinset, List.mem_cons] at remains ⊢
      tauto

/-- `write_head`. -/
theorem follows_writeHead (log : Log) (within : l.Within careful held dirty)
    (room : held.card + 2 + dirty.card < NBUF) (valid : careful → log.start < FSSIZE) :
    Program.Follows (Step careful) (fun _ r => r.Within careful held dirty) (writeHead log) l := by
  obtain ⟨_, room₁, room₀⟩ := within.room room log.start log.start l.dirty within.dirty
  have fewer : l.dirty.erase log.start ⊆ dirty := (Finset.erase_subset _ l.dirty).trans within.dirty
  obtain ⟨_, room₂, _⟩ := within.room room log.start log.start _ fewer
  have member : log.start ∈ insert log.start l.held := Finset.mem_insert_self _ _
  have back : (insert log.start l.held).erase log.start ⊆ l.held := Finset.erase_insert_subset _ _
  refine follows_perform ⟨rfl, room₀, fun _ => nofun, ?_⟩ fun first => ?_
  · intro matters
    exact ⟨by rw [within.none_held matters]; exact Finset.notMem_empty _, valid matters⟩
  refine follows_perform ⟨rfl, room₁, fun _ => nofun, fun _ => member⟩ fun _ => ?_
  refine follows_perform ⟨rfl, room₁, fun _ => nofun, fun matters => ⟨member, valid matters⟩⟩ fun _ => ?_
  refine ⟨_, ⟨rfl, room₂, fun _ => nofun, fun _ => member⟩, fun _ => ?_⟩
  constructor
  · exact back.trans within.held
  · exact fewer
  · intro matters
    have empty := within.none_held matters
    rw [empty] at back
    exact Finset.subset_empty.mp (by simpa only [after, empty] using back)

/-- `commit` with the dirty blocks among the logged ones leaves no block dirty. -/
theorem follows_commit {log : Log} (within : l.Within careful held log.lh.toFinset)
    (room : held.card + 2 + log.lh.toFinset.card < NBUF)
    (valid : careful → log.start + log.lh.length < FSSIZE ∧ log.Placed ∧ ∀ b ∈ log.lh, b < FSSIZE) :
    Program.Follows (Step careful) (fun log' r => log' = log.clear ∧ r.Within careful held ∅) (commit log) l := by
  have copies : careful → log.start + 0 + log.lh.length < FSSIZE ∧
      ∀ b ∈ log.lh, b < FSSIZE ∧ (b ≤ log.start + 0 ∨ log.start + 0 + log.lh.length < b) := by
    intro matters
    obtain ⟨area, placed, inside⟩ := valid matters
    exact ⟨by omega, fun b member => ⟨inside b member, placed.apart b member⟩⟩
  have header : careful → log.start < FSSIZE := by
    intro matters
    have area := (valid matters).1
    omega
  unfold commit
  by_cases nonempty : 0 < log.lh.length
  · rw [if_pos nonempty]
    refine follows_bind (follows_writeLog within room copies) fun _ _ within₁ => ?_
    refine follows_bind (follows_writeHead log within₁ room header) fun _ _ within₂ => ?_
    refine follows_bind (follows_install within₂ room copies) fun _ _ within₃ => ?_
    rw [Finset.sdiff_self] at within₃
    have few : held.card + 2 + (∅ : Finset Nat).card < NBUF := by
      rw [Finset.card_empty]
      omega
    refine follows_bind (follows_writeHead log.clear within₃ few header) fun _ _ within₄ => ?_
    exact ⟨rfl, within₄⟩
  · have empty : log.lh = [] := List.length_eq_zero_iff.mp (Nat.eq_zero_of_not_pos nonempty)
    have same : log = log.clear := by
      unfold Log.clear
      rw [← empty]
    rw [if_neg nonempty]
    refine ⟨same, ?_⟩
    rw [empty] at within
    exact within

end Ledger

/-- `commit` by the process, with the dirty blocks among the logged ones. It never wants for
buffers, and stops for no reason at all where its blocks are on the disk and outside the log
area and the process holds nothing. -/
theorem Tallied.commit [DecidableEq π] {p : π} {l : Ledger} {m : Machine π} {log : Log} (t : Tallied p l m)
    (logged : l.dirty ⊆ log.lh.toFinset) (room : l.held.card + 2 + log.lh.toFinset.card < NBUF)
    (careful : Prop) (valid : careful → l.held = ∅ ∧ log.start + log.lh.length < FSSIZE ∧ log.Placed ∧
      ∀ b ∈ log.lh, b < FSSIZE) :
    wp (Machine.handler p) (commit log)
      (fun log' m' => log' = log.clear ∧ ∃ held, held ⊆ l.held ∧ Tallied p ⟨held, ∅⟩ m')
      (fun reason => ¬careful ∧ reason ≠ .panic "bget: no buffers" ∧
        reason ≠ .panic "too big a transaction") m := by
  have within : l.Within careful l.held log.lh.toFinset :=
    ⟨Finset.Subset.refl _, logged, fun matters => (valid matters).1⟩
  have follows := Ledger.follows_commit within room fun matters => (valid matters).2
  have run := follows.wp (Machine.handler p) (Tallied p) (fun reason => ¬careful ∧ reason ≠ .panic "bget: no buffers" ∧
    reason ≠ .panic "too big a transaction") ?_ t
  · refine wp_mono run ?_ fun _ h => h
    rintro log' m' ⟨r, ⟨cleared, within'⟩, after⟩
    refine ⟨cleared, r.held, within'.held, ?_⟩
    have clean : r.dirty = ∅ := Finset.subset_empty.mp within'.dirty
    rw [← clean]
    exact after
  · rintro q op r m' before ⟨rfl, room', other, accepted⟩
    cases result : Machine.handler p op m' with
    | ok passed => exact before.returns room' result
    | error reason =>
      have refused := before.refused room' result
      exact ⟨fun matters => Ledger.not_refused (accepted matters) other refused,
        Ledger.refused_reason refused other⟩

/-! ## Accepted requests -/

/-- What decides whether a request is accepted. -/
structure Books where
  /-- The buffers in use. -/
  ledger : Ledger
  log : Log

/-- An accepted request, with the log that `log_write` leaves. -/
def Books.Step (q : Books) (op : BufOp) (r : Books) : Prop :=
  r.ledger = q.ledger.after op ∧ q.ledger.Room ∧ q.ledger.accepts op ∧
    match op with
    | .logWrite blockno => q.log.write blockno = .ok r.log
    | _ => r.log = q.log

section Accepted

variable [DecidableEq π] {p : π} {m : Machine π} {q r : Books}

/-- An accepted request returns. -/
theorem Books.Step.returns {op : BufOp} (step : q.Step op r) (t : Tallied p q.ledger m) (same : m.log = q.log) :
    ∃ answer m', Machine.handler p op m = .ok (answer, m') ∧ Tallied p r.ledger m' ∧ m'.log = r.log := by
  obtain ⟨ledger, room, accepted, log⟩ := step
  cases result : Machine.handler p op m with
  | error reason =>
    exfalso
    have refused := t.refused room result
    by_cases recording : ∃ blockno, op = .logWrite blockno
    · obtain ⟨blockno, rfl⟩ := recording
      rcases refused with ⟨_, missing⟩ | full
      · exact missing accepted
      · rw [same] at full
        simp only [full] at log
        contradiction
    · exact Ledger.not_refused accepted (fun blockno => not_exists.mp recording blockno) refused
  | ok passed =>
    refine ⟨passed.1, passed.2, rfl, ?_, ?_⟩
    · rw [ledger]
      exact t.returns room result
    · cases op with
      | logWrite blockno =>
        obtain ⟨_, log', _, written, after⟩ := Machine.logWrite_ok result
        rw [same] at written
        rw [after]
        exact Except.ok.inj (written.symm.trans log)
      | bread blockno =>
        have kept := Machine.bread_log result
        rw [kept, same, log]
      | modify blockno update =>
        obtain ⟨_, _, after⟩ := Machine.modify_ok result
        rw [after, log]
        exact same
      | bwrite blockno =>
        obtain ⟨_, _, _, after⟩ := Machine.bwrite_ok result
        rw [after, log]
        exact same
      | brelse blockno =>
        obtain ⟨_, _, after⟩ := Machine.brelse_ok result
        rw [after, log]
        exact same

/-- Kernel code that makes accepted requests only returns. -/
theorem Books.runs {α : Type} {code : Kernel α} {final : α → Books → Prop}
    (follows : Program.Follows Books.Step final code q) (t : Tallied p q.ledger m) (same : m.log = q.log) :
    ∃ value m', m.exec p code = .ok (value, m') ∧
      ∃ r, final value r ∧ Tallied p r.ledger m' ∧ m'.log = r.log := by
  have run := follows.wp (Machine.handler p) (fun q m => Tallied p q.ledger m ∧ m.log = q.log)
    (fun _ => False) ?_ ⟨t, same⟩
  · exact wp_returns run
  · rintro q op r m ⟨before, log⟩ step
    obtain ⟨answer, m', returned, after⟩ := step.returns before log
    rw [returned]
    exact after

end Accepted

end Xv6
