import Xv6.Verif.BufLists

/-!
# Which buffer is recycled

The list of buffers is ordered by the time at which their last use ended. So `bget` recycles, of
the buffers that nobody uses and that are not `B_DIRTY`, the one that was returned longest ago, those
never returned coming first.
-/

namespace Xv6

namespace LinkedCache

variable {π : Type} {c : LinkedCache π} {order : List (Fin NBUF)}

/-- The order depends on the links only. -/
theorem Ordered.congr {c' : LinkedCache π} (ordered : c.Ordered order) (links : c'.links = c.links) :
    c'.Ordered order := by
  refine ⟨?_, ordered.all⟩
  rw [links]
  exact ordered.cycle

end LinkedCache

namespace BufState

variable {π : Type} [DecidableEq π] {s t : BufState π} {havedisk1 : Bool}

/-! ## Times of return -/

/-- The buffer whose last use ends in a step. -/
def returned (s : BufState π) : BufEvent π → Option (Fin NBUF)
  | .drop r => if (s.cache.buf r.buf).refcnt = 1 then some r.buf else none
  | _ => none

/-- The times after a step that has the number `now`. -/
def stamp (s : BufState π) (event : BufEvent π) (now : Nat) (times : Fin NBUF → Nat) : Fin NBUF → Nat :=
  match s.returned event with
  | some i => Function.update times i now
  | none => times

/-- When the last use of each buffer ended, the steps being numbered from `now` on. -/
def returnTimes (havedisk1 : Bool) : BufState π → Nat → (Fin NBUF → Nat) → List (BufEvent π) → Fin NBUF → Nat
  | _, _, times, [] => times
  | s, now, times, event :: events =>
    match next havedisk1 s event with
    | none => times
    | some t => returnTimes havedisk1 t (now + 1) (s.stamp event now times) events

/-- The first buffer was returned before the second one, or neither was and it has the lower number. -/
def Earlier (times : Fin NBUF → Nat) (i j : Fin NBUF) : Prop :=
  times i < times j ∨ times i = 0 ∧ times j = 0 ∧ i < j

/-- The list is ordered by the times of return, the latest first. -/
structure Stamped (s : BufState π) (now : Nat) (times : Fin NBUF → Nat) : Prop where
  /-- The order of the list. -/
  order : ∃ order, s.cache.Ordered order ∧ order.Pairwise fun i j => Earlier times j i
  /-- The times are past. -/
  past : ∀ i, times i < now

/-! ## Steps -/

/-- A step in which no last use ends leaves the list. -/
theorem links_kept {event : BufEvent π} (consistent : Consistent s) (taken : Step havedisk1 s event t)
    (stays : s.returned event = none) : t.cache.links = s.cache.links := by
  have io : ∀ {u v : BufState π} {p : π} {i : Fin NBUF}, iderw havedisk1 u p i = some v →
      v.cache.links = u.cache.links := by
    intro u v p i done
    obtain ⟨data, cache, _⟩ := iderw_spec done
    rw [cache]
    rfl
  cases event with
  | bget p dev blockno =>
    obtain ⟨order, ordered⟩ := consistent.ordered
    obtain ⟨answer, answered, got⟩ := ordered.bget_got dev blockno
    simp only [Step, next, subject, answered] at taken
    cases got with
    | hit i _ _ =>
      cases taken
      rfl
    | recycled i _ _ _ =>
      cases taken
      rfl
    | full _ _ => cases taken
  | acquire r =>
    change (if r ∈ s.refs then
      (if r.stage = .waiting ∧ (s.cache.buf r.buf).holder = none then _ else none) else none) = _ at taken
    split_ifs at taken
    cases taken
    rfl
  | fill r =>
    change (if r ∈ s.refs then (if r.stage = .locked then
      (if (s.cache.buf r.buf).valid = true then _ else _) else none) else none) = _ at taken
    split_ifs at taken
    · cases taken
      rfl
    · obtain ⟨u, done, same⟩ := Option.map_eq_some_iff.mp taken
      have kept := io done
      rw [← same]
      exact kept
  | modify r update =>
    change (if r ∈ s.refs then (if r.stage = .held then _ else none) else none) = _ at taken
    split_ifs at taken
    cases taken
    rfl
  | logWrite r =>
    change (if r ∈ s.refs then (if r.stage = .held then _ else none) else none) = _ at taken
    split_ifs at taken
    cases taken
    rfl
  | bwrite r =>
    change (if r ∈ s.refs then
      (if r.stage = .held ∧ (s.cache.buf r.buf).holder = some r.proc then _ else none) else none) = _ at taken
    split_ifs at taken
    have kept := io taken
    exact kept
  | releasesleep r =>
    change (if r ∈ s.refs then
      (if r.stage = .held ∧ (s.cache.buf r.buf).holder = some r.proc then _ else none) else none) = _ at taken
    split_ifs at taken
    cases taken
    rfl
  | drop r =>
    change (if r ∈ s.refs then (if r.stage = .leaving then _ else none) else none) = _ at taken
    split_ifs at taken with member leaving
    cases taken
    have referenced := consistent.referenced member
    have several : (s.cache.buf r.buf).refcnt ≠ 1 := by
      intro last
      change (if (s.cache.buf r.buf).refcnt = 1 then some r.buf else none) = none at stays
      rw [if_pos last] at stays
      contradiction
    change (s.cache.drop r.buf).links = s.cache.links
    unfold LinkedCache.drop
    have more : ((s.cache.set r.buf { s.cache.buf r.buf with refcnt := (s.cache.buf r.buf).refcnt - 1 }).buf r.buf).refcnt ≠
        0 := by
      change (Function.update s.cache.buf r.buf _ r.buf).refcnt ≠ 0
      rw [Function.update_self]
      change (s.cache.buf r.buf).refcnt - 1 ≠ 0
      omega
    dsimp only
    rw [if_neg more]
    rfl

/-- A step in which a last use ends moves the buffer to the front. -/
theorem links_front {event : BufEvent π} {i : Fin NBUF} {order : List (Fin NBUF)} (ordered : s.cache.Ordered order)
    (taken : Step havedisk1 s event t) (last : s.returned event = some i) :
    t.cache.Ordered (i :: order.erase i) := by
  cases event with
  | drop r =>
    change (if (s.cache.buf r.buf).refcnt = 1 then some r.buf else none) = some i at last
    split_ifs at last with one
    cases last
    change (if r ∈ s.refs then (if r.stage = .leaving then _ else none) else none) = _ at taken
    split_ifs at taken
    cases taken
    have zero : ((s.cache.set r.buf { s.cache.buf r.buf with refcnt := (s.cache.buf r.buf).refcnt - 1 }).buf r.buf).refcnt =
        0 := by
      change (Function.update s.cache.buf r.buf _ r.buf).refcnt = 0
      rw [Function.update_self]
      change (s.cache.buf r.buf).refcnt - 1 = 0
      omega
    change (s.cache.drop r.buf).Ordered _
    unfold LinkedCache.drop
    dsimp only
    rw [if_pos zero]
    exact (ordered.set _).front r.buf
  | _ => exact nomatch last

/-- Every step keeps the list ordered by the times of return. -/
theorem Stamped.step {event : BufEvent π} {now : Nat} {times : Fin NBUF → Nat} (stamped : Stamped s now times)
    (consistent : Consistent s) (taken : Step havedisk1 s event t) :
    Stamped t (now + 1) (s.stamp event now times) := by
  obtain ⟨order, ordered, sorted⟩ := stamped.order
  unfold stamp
  cases last : s.returned event with
  | none =>
    refine ⟨⟨order, ordered.congr (links_kept consistent taken last), sorted⟩, fun i => ?_⟩
    exact Nat.lt_succ_of_lt (stamped.past i)
  | some i =>
    dsimp only
    refine ⟨⟨_, links_front ordered taken last, ?_⟩, fun j => ?_⟩
    · rw [List.pairwise_cons]
      have others : ∀ j ∈ order.erase i, j ≠ i := by
        intro j member same
        rw [same] at member
        exact ordered.nodup.not_mem_erase member
      constructor
      · intro j member
        left
        rw [Function.update_of_ne (others j member), Function.update_self]
        exact stamped.past j
      · apply (sorted.sublist List.erase_sublist).imp_of_mem
        intro j k member member' earlier
        unfold Earlier
        rw [Function.update_of_ne (others j member), Function.update_of_ne (others k member')]
        exact earlier
    · by_cases same : j = i
      · rw [same, Function.update_self]
        exact Nat.lt_succ_self now
      · rw [Function.update_of_ne same]
        exact Nat.lt_succ_of_lt (stamped.past j)

/-- Every run keeps the list ordered by the times of return. -/
theorem Stamped.run {events : List (BufEvent π)} {now : Nat} {times : Fin NBUF → Nat}
    (run : Run (Step havedisk1) s events t) (stamped : Stamped s now times) (consistent : Consistent s) :
    ∃ later, Stamped t later (returnTimes havedisk1 s now times events) := by
  induction run generalizing now times with
  | nil s => exact ⟨now, stamped⟩
  | @cons s t u event events taken _ ih =>
    have stepped : next havedisk1 s event = some t := taken
    unfold returnTimes
    rw [stepped]
    exact ih (stamped.step consistent taken) (consistent.step taken).1

omit [DecidableEq π] in
/-- `binit` orders the list by number, the last buffer first. -/
theorem start_stamped (disk : Nat → Nat → Block) : Stamped (start disk : BufState π) 1 fun _ => 0 := by
  refine ⟨⟨_, LinkedCache.binit_ordered, ?_⟩, fun _ => Nat.one_pos⟩
  rw [List.pairwise_reverse]
  exact (List.pairwise_lt_finRange NBUF).imp fun less => .inr ⟨rfl, rfl, less⟩

/-! ## Recycling -/

/-- After any interleaving of the steps of `bread`, `bwrite`, `log_write` and `brelse`: a `bread` of a
block that is not cached panics, with "bget: no buffers", exactly where every buffer is in use or `B_DIRTY`, and
otherwise recycles one that is neither, leaves the others, and every other one that is neither was returned later than the
recycled one, or neither was ever returned and the other one has a higher number. -/
theorem recycles_least_recent {disk : Nat → Nat → Block} {events : List (BufEvent π)}
    (run : Run (Step havedisk1) (start disk) events s) {p : π} {dev blockno : Nat}
    (miss : ∀ j, (s.cache.buf j).dev = dev → (s.cache.buf j).blockno ≠ blockno) :
    (next havedisk1 s (.bget p dev blockno) = none ↔ ∀ j, (s.cache.buf j).unused = false) ∧
    (s.cache.bget dev blockno = some (.error (.panic "bget: no buffers")) ↔ ∀ j, (s.cache.buf j).unused = false) ∧
    ∀ t, Step havedisk1 s (.bget p dev blockno) t → ∃ i, (s.cache.buf i).unused = true ∧
      t.refs = ⟨p, i, dev, blockno, .waiting⟩ :: s.refs ∧
      t.cache.buf i = { s.cache.buf i with dev, blockno, valid := false, dirty := false, refcnt := 1 } ∧
      (∀ j ≠ i, t.cache.buf j = s.cache.buf j) ∧
      ∀ j ≠ i, (s.cache.buf j).unused = true →
        Earlier (returnTimes havedisk1 (start disk) 1 (fun _ => 0) events) i j := by
  have consistent : Consistent (start disk : BufState π) := Consistent.run (.nil (start disk) : Run (Step havedisk1) _ [] _)
  obtain ⟨_, stamped⟩ := Stamped.run run (start_stamped disk) consistent
  obtain ⟨order, ordered, sorted⟩ := stamped.order
  have uncached : order.find? (fun i => (s.cache.buf i).dev == dev && (s.cache.buf i).blockno == blockno) = none := by
    rw [List.find?_eq_none]
    intro j _ hit
    rw [Bool.and_eq_true, beq_iff_eq, beq_iff_eq] at hit
    exact miss j hit.1 hit.2
  have first : s.cache.cached dev blockno = some none := by
    rw [ordered.cached_eq, uncached]
    rfl
  cases found : order.reverse.find? fun i => (s.cache.buf i).unused with
  | none =>
    have second : s.cache.victim = some none := by
      rw [ordered.victim_eq, found]
      rfl
    have stops : next havedisk1 s (.bget p dev blockno) = none := by
      simp only [next, subject, LinkedCache.bget, first, second]
    have panics : s.cache.bget dev blockno = some (.error (.panic "bget: no buffers")) := by
      simp only [LinkedCache.bget, first, second]
    have busy : ∀ j, (s.cache.buf j).unused = false := fun j =>
      Bool.eq_false_of_not_eq_true (List.find?_eq_none.mp found j (List.mem_reverse.mpr (ordered.all j)))
    refine ⟨iff_of_true stops busy, iff_of_true panics busy, fun t taken => ?_⟩
    · change next havedisk1 s (.bget p dev blockno) = some t at taken
      rw [stops] at taken
      contradiction
  | some i =>
    have second : s.cache.victim = some (some (.buf i)) := by
      rw [ordered.victim_eq, found]
      rfl
    have idle := List.find?_some found
    have goes : next havedisk1 s (.bget p dev blockno) = some { s with
        cache := s.cache.set i { s.cache.buf i with dev, blockno, valid := false, dirty := false, refcnt := 1 }
        refs := ⟨p, i, dev, blockno, .waiting⟩ :: s.refs } := by
      simp only [next, subject, LinkedCache.bget, first, second]
    have free : ¬∀ j, (s.cache.buf j).unused = false := fun busy => by
      rw [busy i] at idle
      contradiction
    have answers : s.cache.bget dev blockno ≠ some (.error (.panic "bget: no buffers")) := by
      simp only [LinkedCache.bget, first, second, ne_eq, Option.some.injEq, reduceCtorEq, not_false_eq_true]
    refine ⟨iff_of_false (by rw [goes]; exact Option.some_ne_none _) free, iff_of_false answers free, fun t taken => ⟨i, idle, ?_⟩⟩
    · change next havedisk1 s (.bget p dev blockno) = some t at taken
      rw [goes] at taken
      cases taken
      refine ⟨rfl, Function.update_self i _ _, fun j other => Function.update_of_ne other _ _, ?_⟩
      intro j other unused
      obtain ⟨_, before, after, split, busy⟩ := List.find?_eq_some_iff_append.mp found
      have member : j ∈ order.reverse := List.mem_reverse.mpr (ordered.all j)
      rw [split, List.mem_append, List.mem_cons] at member
      have behind : j ∈ after := by
        rcases member with front | same | behind
        · have taken := busy j front
          rw [unused] at taken
          contradiction
        · exact absurd same other
        · exact behind
      have times := List.pairwise_reverse.mpr sorted
      rw [split] at times
      exact (List.pairwise_cons.mp (List.pairwise_append.mp times).2.1).1 j behind

/-- The last buffer of the list after `binit`. -/
def firstBuf : Fin NBUF := ⟨0, by decide⟩

/-- The one before it. -/
def secondBuf : Fin NBUF := ⟨1, by decide⟩

/-- A process reads block 5 and gives the buffer back. -/
def firstUse : List (BufEvent Nat) :=
  [.bget 0 1 5, .acquire ⟨0, firstBuf, 1, 5, .waiting⟩, .fill ⟨0, firstBuf, 1, 5, .locked⟩, .releasesleep ⟨0, firstBuf, 1, 5, .held⟩,
    .drop ⟨0, firstBuf, 1, 5, .leaving⟩]

/-- Then the next miss recycles the second buffer. -/
theorem recycles_least_recent_first : ∃ s t : BufState Nat, Run (Step true) (start fun _ _ => Block.zero) firstUse s ∧
    Step true s (.bget 0 1 6) t ∧ (t.cache.buf secondBuf).blockno = 6 := by
  have uses : (Run.exec (next true) firstUse (start fun _ _ => Block.zero)).map (fun s =>
      ((next true s (.bget 0 1 6)).isSome, decide (∀ j, (s.cache.buf j).blockno ≠ 6),
        (s.cache.buf secondBuf).unused)) = some (true, true, true) := by
    decide +kernel
  have times : returnTimes true (start fun _ _ => Block.zero) 1 (fun _ => 0) firstUse firstBuf ≠ 0 ∧
      returnTimes true (start fun _ _ => Block.zero) 1 (fun _ => 0) firstUse secondBuf = 0 := by
    decide +kernel
  obtain ⟨s, executed, summary⟩ := Option.map_eq_some_iff.mp uses
  simp only [Prod.mk.injEq, decide_eq_true_eq] at summary
  obtain ⟨goes, others, idle⟩ := summary
  obtain ⟨t, taken⟩ := Option.isSome_iff_exists.mp goes
  have run : Run (Step true) (start fun _ _ => Block.zero) firstUse s := Run.of_exec executed
  obtain ⟨i, _, _, recycled, _, latest⟩ := (recycles_least_recent run fun j (_ : _ = 1) => others j).2.2 t taken
  have second : i = secondBuf := by
    by_contra other
    rcases latest secondBuf (Ne.symm other) idle with later | ⟨zero, _, below⟩
    · rw [times.2] at later
      exact absurd later (Nat.not_lt_zero _)
    · obtain rfl : i = firstBuf := Fin.ext (Nat.lt_one_iff.mp below)
      exact times.1 zero
  refine ⟨s, t, run, taken, ?_⟩
  rw [← second, recycled]

end BufState

end Xv6
