import Mathlib.Data.Finset.Lattice.Fold
import Xv6.Verif.Tally

/-!
# A store that forgets

The worst that recycling does to one process. A store on which a change that is released before
`log_write` has seen it is lost, because another process recycles the buffer at once. Every request
this store answers the machine answers alike amid such recycling.
-/

namespace Xv6

open Program

variable {π : Type}

namespace Ledger

instance (l : Ledger) : Decidable l.Room := inferInstanceAs (Decidable (_ < _))

instance (l : Ledger) (op : BufOp) : Decidable (l.accepts op) :=
  match op with
  | .bread _ => inferInstanceAs (Decidable (_ ∧ _))
  | .bwrite _ => inferInstanceAs (Decidable (_ ∧ _))
  | .modify _ _ => inferInstanceAs (Decidable (_ ∈ _))
  | .logWrite _ => inferInstanceAs (Decidable (_ ∈ _))
  | .brelse _ => inferInstanceAs (Decidable (_ ∈ _))

end Ledger

/-- A store that forgets, with what one process does on it. -/
structure Frail where
  /-- Blocks whose buffers the process holds. -/
  held : Finset Nat
  /-- Blocks it has changed. -/
  changed : List Nat
  /-- The blocks and the log. -/
  store : Store

/-- An unrecorded change is lost. -/
def Store.forgotten (s : Store) (blockno : Nat) : Store :=
  { s with
    blocks := Function.update s.blocks blockno (s.disk blockno)
    unlogged := Function.update s.unlogged blockno false }

namespace Frail

/-- The buffers in use. -/
def ledger (x : Frail) : Ledger := ⟨x.held, x.store.log.lh.toFinset⟩

/-- Buffer requests, where buffers suffice. `bwrite` is left to the log. -/
def handler : Handler bufSignature Frail Stop := fun (op : BufOp) x =>
  if x.ledger.Room ∧ x.ledger.accepts op then
    match op with
    | .bread blockno => .ok (x.store.blocks blockno, { x with held := insert blockno x.held })
    | .modify blockno update =>
      .ok ((), { x with changed := blockno :: x.changed, store := x.store.modified blockno update })
    | .logWrite blockno =>
      match x.store.log.write blockno with
      | .ok log => .ok ((), { x with store := { x.store.logged blockno log with recorded := x.store.recorded } })
      | .error reason => .error reason
    | .bwrite blockno => .error (.unheld blockno)
    | .brelse blockno =>
      if x.store.unlogged blockno then
        if x.store.dirty blockno then .error (.unrecorded blockno)
        else .ok ((), ⟨x.held.erase blockno, blockno :: x.changed, x.store.forgotten blockno⟩)
      else .ok ((), { x with held := x.held.erase blockno })
  else .error .blocked

/-- Run kernel code on it. -/
abbrev exec {α : Type} (code : Kernel α) (x : Frail) : Except Stop (α × Frail) := Program.run handler code x

/-! ## What stays -/

/-- The disk stays, and so does every block that was not changed. -/
structure Keeps (x y : Frail) : Prop where
  disk : y.store.disk = x.store.disk
  /-- The changed blocks are kept in mind. -/
  changed : ∀ b ∈ x.changed, b ∈ y.changed
  /-- The other blocks. -/
  blocks : ∀ b, b ∉ y.changed → y.store.blocks b = x.store.blocks b

/-- One request. -/
theorem keeps {op : BufOp} {x y : Frail} {answer : bufSignature.Answer op}
    (answered : handler op x = .ok (answer, y)) : Keeps x y := by
  unfold handler at answered
  split at answered
  · cases op with
    | bread blockno =>
      cases answered
      exact ⟨rfl, fun _ => id, fun _ _ => rfl⟩
    | modify blockno update =>
      cases answered
      refine ⟨rfl, fun _ => List.mem_cons_of_mem _, fun b other => ?_⟩
      exact Function.update_of_ne (fun same => other (by rw [same]; exact List.mem_cons_self)) _ _
    | logWrite blockno =>
      simp only at answered
      cases written : x.store.log.write blockno with
      | error reason => rw [written] at answered; contradiction
      | ok log =>
        rw [written] at answered
        cases answered
        exact ⟨rfl, fun _ => id, fun _ _ => rfl⟩
    | bwrite blockno => contradiction
    | brelse blockno =>
      simp only at answered
      split at answered
      · split at answered
        · contradiction
        · cases answered
          refine ⟨rfl, fun _ => List.mem_cons_of_mem _, fun b other => ?_⟩
          exact Function.update_of_ne (fun same => other (by rw [same]; exact List.mem_cons_self)) _ _
      · cases answered
        exact ⟨rfl, fun _ => id, fun _ _ => rfl⟩
  · contradiction

/-- A run of kernel code. -/
theorem run_keeps {α : Type} {code : Kernel α} {x y : Frail} {value : α}
    (returned : exec code x = .ok (value, y)) : Keeps x y := by
  induction code generalizing x with
  | done result =>
    cases returned
    exact ⟨rfl, fun _ => id, fun _ _ => rfl⟩
  | stop reason => contradiction
  | call op rest ih =>
    unfold exec run at returned
    cases answered : handler op x with
    | error reason => rw [answered] at returned; contradiction
    | ok passed =>
      rw [answered] at returned
      have first := keeps answered
      have later := ih _ returned
      refine ⟨later.disk.trans first.disk, fun b member => later.changed b (first.changed b member), ?_⟩
      intro b other
      rw [later.blocks b other, first.blocks b fun member => other (later.changed b member)]

/-! ## The machine -/

/-- The machine shows the store to the process, which is alone with the cache. -/
structure Shows (p : π) (x : Frail) (m : Machine π) : Prop where
  /-- The buffers in use are those of the ledger. -/
  tallied : Tallied p x.ledger m
  implements : Implements p m x.store

end Frail

section Machines

variable {p : π} {x y : Frail} {m : Machine π}

/-- A buffer but the released one stays. -/
theorem Bcache.release_other {c : Bcache π} {i j : Fin NBUF} (other : j ≠ i) :
    (c.release i).buf j = c.buf j := by
  unfold release
  dsimp only
  split
  · exact set_other _ other
  · exact set_other _ other

/-- There is a block number that no buffer has. -/
theorem exists_uncached (m : Machine π) : ∃ blockno, ∀ j, ¬(m.cache.buf j).caches blockno := by
  refine ⟨(Finset.univ.sup fun j => (m.cache.buf j).blockno) + 1, fun j here => ?_⟩
  have bound : (m.cache.buf j).blockno ≤ Finset.univ.sup fun j => (m.cache.buf j).blockno :=
    Finset.le_sup (f := fun j => (m.cache.buf j).blockno) (Finset.mem_univ j)
  have same := here.2
  omega

variable [DecidableEq π]

/-- A change that is released unrecorded is lost when the buffer is recycled. -/
theorem Frail.Shows.forgets (shows : x.Shows p m) {i : Fin NBUF} {blockno : Nat}
    (found : m.held p blockno = some i) (clean : x.store.dirty blockno = false) :
    ∃ m', OthersAct { m with cache := m.cache.release i } m' ∧
      Frail.Shows p ⟨x.held.erase blockno, blockno :: x.changed, x.store.forgotten blockno⟩ m' := by
  obtain ⟨tallied, implements⟩ := shows
  obtain ⟨locked, cached⟩ := Machine.held_some found
  have dropped := tallied.release found
  have other : ∀ j, j ≠ i → (m.cache.release i).buf j = m.cache.buf j := fun j => Bcache.release_other
  obtain ⟨same, idle⟩ : ((m.cache.release i).buf i).dirty = (m.cache.buf i).dirty ∧
      ((m.cache.release i).buf i).refcnt = (m.cache.buf i).refcnt - 1 := by
    unfold Bcache.release
    dsimp only
    split <;> exact ⟨by simp, by simp⟩
  have single : (m.cache.buf i).refcnt = 1 := by
    rcases tallied.sole i with ⟨free, _⟩ | ⟨_, one⟩
    · rw [locked] at free
      contradiction
    · exact one
  rw [single] at idle
  rw [implements.dirty i blockno cached, clean] at same
  obtain ⟨fresh, uncached⟩ := exists_uncached { m with cache := m.cache.release i }
  have recycled := dropped.recycle idle same uncached
  refine ⟨_, .bget i ROOTDEV fresh 0 (by simp [Buf.unused, idle, same]) uncached, recycled, ?_⟩
  have place : ∀ j, j ≠ i → ∀ b, (m.cache.buf j).caches b → b ≠ blockno := by
    rintro j apart b here rfl
    exact apart (tallied.wf.unique j i b here cached)
  constructor
  · exact recycled.wf
  · exact implements.disk
  · exact implements.log
  · intro j b here valid
    by_cases equal : j = i
    · rw [equal, Machine.setBuf_same] at valid
      contradiction
    · rw [Machine.setBuf_other _ equal, other j equal] at here valid ⊢
      show _ = Function.update x.store.blocks blockno _ b
      rw [Function.update_of_ne (place j equal b here)]
      exact implements.data j b here valid
  · intro j b here
    by_cases equal : j = i
    · rw [equal] at here ⊢
      rw [Machine.setBuf_same] at here ⊢
      cases marked : x.store.dirty b with
      | false => exact marked.symm
      | true =>
        obtain ⟨k, there⟩ := implements.dirty_cached b marked
        have apart : k ≠ i := by
          rintro rfl
          have number : b = blockno := there.2.symm.trans cached.2
          rw [number, clean] at marked
          contradiction
        rw [← other k apart] at there
        rw [← here.2] at there
        exact absurd there (uncached k)
    · rw [Machine.setBuf_other _ equal, other j equal] at here ⊢
      exact implements.dirty j b here
  · intro b marked
    obtain ⟨j, here⟩ := implements.dirty_cached b marked
    have apart : j ≠ i := by
      rintro rfl
      have number : b = blockno := here.2.symm.trans cached.2
      rw [number] at marked
      exact absurd (clean.symm.trans marked) Bool.false_ne_true
    exact ⟨j, by rw [Machine.setBuf_other _ apart, other j apart]; exact here⟩
  · intro b unmarked recorded
    show Function.update x.store.blocks blockno _ b = _
    by_cases equal : b = blockno
    · rw [equal, Function.update_self]
      rfl
    · rw [Function.update_of_ne equal]
      have kept : Function.update x.store.unlogged blockno false b = false := recorded
      rw [Function.update_of_ne equal] at kept
      exact implements.synced b unmarked kept
  · intro b unrecorded
    have kept : Function.update x.store.unlogged blockno false b = true := unrecorded
    have equal : b ≠ blockno := by
      rintro rfl
      rw [Function.update_self] at kept
      contradiction
    rw [Function.update_of_ne equal] at kept
    obtain ⟨j, holder, here⟩ := implements.unlogged_held b kept
    have apart : j ≠ i := by
      rintro rfl
      exact equal (here.2.symm.trans cached.2)
    exact ⟨j, by rw [Machine.setBuf_other _ apart, other j apart]; exact ⟨holder, here⟩⟩

/-- Every request the store answers the machine answers alike, and others may act so that it shows
the store again. -/
theorem Frail.Shows.answers (shows : x.Shows p m) {op : BufOp} {answer : bufSignature.Answer op}
    (answered : Frail.handler op x = .ok (answer, y)) :
    ∃ m₁ m₂, Machine.handler p op m = .ok (answer, m₁) ∧ (m₁ = m₂ ∨ OthersAct m₁ m₂) ∧ y.Shows p m₂ := by
  obtain ⟨tallied, implements⟩ := shows
  unfold Frail.handler at answered
  split at answered
  · rename_i accepted
    obtain ⟨room, accepted⟩ := accepted
    -- what the machine answers, and that it implements what the store does
    have reply : ∀ log, Books.Step ⟨x.ledger, x.store.log⟩ op ⟨x.ledger.after op, log⟩ →
        ∃ answer m₁, Machine.handler p op m = .ok (answer, m₁) ∧ Tallied p (x.ledger.after op) m₁ ∧ m₁.log = log :=
      fun _ step => step.returns tallied implements.log
    cases op with
    | bread blockno =>
      obtain ⟨data, m₁, returned, tallied', -⟩ := reply x.store.log ⟨rfl, room, accepted, rfl⟩
      obtain ⟨current, after⟩ := implements.bread returned
      cases answered
      rw [← current]
      exact ⟨m₁, m₁, returned, .inl rfl, tallied', after⟩
    | modify blockno update =>
      obtain ⟨_, m₁, returned, tallied', -⟩ := reply x.store.log ⟨rfl, room, accepted, rfl⟩
      cases answered
      rcases implements.simulates _ returned with ⟨t, same, after⟩ | ⟨_, stopped, _⟩
      · cases same
        exact ⟨m₁, m₁, returned, .inl rfl, tallied', after⟩
      · contradiction
    | logWrite blockno =>
      simp only at answered
      cases written : x.store.log.write blockno with
      | error reason => rw [written] at answered; contradiction
      | ok log =>
        rw [written] at answered
        obtain ⟨_, _, _, rfl⟩ := Log.write_ok written
        obtain ⟨_, m₁, returned, tallied', -⟩ := reply _ ⟨rfl, room, accepted, written⟩
        cases answered
        rcases implements.simulates _ returned with ⟨t, same, after⟩ | ⟨_, stopped, _⟩
        · cases same
          refine ⟨m₁, m₁, returned, .inl rfl, ?_, ⟨after.wf, after.disk, after.log, after.data, after.dirty,
            after.dirty_cached, after.synced, after.unlogged_held⟩⟩
          have marked : (x.store.log.record blockno).lh.toFinset = insert blockno x.store.log.lh.toFinset := by
            ext b
            rw [Finset.mem_insert, List.mem_toFinset, List.mem_toFinset, Log.mem_record, or_comm]
          show Tallied p ⟨x.held, (x.store.log.record blockno).lh.toFinset⟩ m₁
          rw [marked]
          exact tallied'
        · contradiction
    | bwrite blockno => contradiction
    | brelse blockno =>
      obtain ⟨_, m₁, returned, tallied', -⟩ := reply x.store.log ⟨rfl, room, accepted, rfl⟩
      obtain ⟨i, found, rfl⟩ := Machine.brelse_ok returned
      simp only at answered
      split at answered
      · split at answered
        · contradiction
        · rename_i unmarked
          have clean : x.store.dirty blockno = false := by simpa using unmarked
          cases answered
          obtain ⟨m₂, other, shown⟩ := Frail.Shows.forgets ⟨tallied, implements⟩ found clean
          exact ⟨_, m₂, returned, .inr other, shown⟩
      · rename_i logged
        have recorded : x.store.unlogged blockno = false := by simpa using logged
        cases answered
        exact ⟨_, _, returned, .inl rfl, tallied', implements.release (Machine.held_some found).2 recorded⟩
  · contradiction

/-- Kernel code that returns on the store returns the same on the machine amid others. -/
theorem Frail.Shows.runsAmid {α : Type} {code : Kernel α} {value : α} (shows : x.Shows p m)
    (returned : Frail.exec code x = .ok (value, y)) :
    ∃ m', RunsAmid (Machine.handler p) OthersAct code m value m' ∧ y.Shows p m' := by
  induction code generalizing x m with
  | done result =>
    cases returned
    exact ⟨m, .done _ _, shows⟩
  | stop reason => contradiction
  | call op rest ih =>
    unfold Frail.exec run at returned
    cases answered : Frail.handler op x with
    | error reason => rw [answered] at returned; contradiction
    | ok passed =>
      rw [answered] at returned
      obtain ⟨m₁, m₂, reply, acts, shown⟩ := shows.answers answered
      obtain ⟨m', amid, after⟩ := ih _ shown returned
      rcases acts with rfl | other
      · exact ⟨m', .call reply amid, after⟩
      · exact ⟨m', .call reply (.interfere other amid), after⟩

end Machines

end Xv6
