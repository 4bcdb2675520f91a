import Mathlib.Data.Fintype.Card
import Mathlib.Data.List.FinRange
import Xv6.BufList
import Xv6.Lib.Runs

/-!
# The list of buffers

Every step leaves the buffers and the head linked in a circle in which each buffer occurs once,
the identities of the buffers distinct, and the reference counts equal to the number of uses. So
the two loops of `bget` end, the first finds a cached block, and the second takes only a buffer
that nobody uses and that is not `B_DIRTY`.
-/

namespace Xv6

namespace LinkedCache

variable {π : Type} {c : LinkedCache π} {order : List (Fin NBUF)} {i : Fin NBUF}

/-- The list visits the buffers in this order, each of them once. -/
structure Ordered (c : LinkedCache π) (order : List (Fin NBUF)) : Prop where
  /-- The circle. -/
  cycle : c.links.Cycle .head (order.map .buf)
  /-- Every buffer is on it. -/
  all : ∀ i, i ∈ order

/-- A buffer's node determines the buffer. -/
theorem buf_injective : Function.Injective BufNode.buf := by
  intro i j same
  injection same

/-- No buffer occurs twice. -/
theorem Ordered.nodup (ordered : c.Ordered order) : order.Nodup :=
  (List.nodup_cons.mp ordered.cycle.distinct).2.of_map

/-- All buffers are on the list. -/
theorem Ordered.length (ordered : c.Ordered order) : order.length = NBUF := by
  have perm : order.Perm (List.finRange NBUF) := by
    apply (List.perm_ext_iff_of_nodup ordered.nodup (List.nodup_finRange NBUF)).mpr
    intro i
    exact ⟨fun _ => List.mem_finRange i, fun _ => ordered.all i⟩
  rw [perm.length_eq, List.length_finRange]

/-- A search of the nodes is a search of the buffers. -/
theorem find_nodes (holds : Buf π → Bool) (order : List (Fin NBUF)) :
    (order.map BufNode.buf).find? (c.test holds) = (order.find? fun i => holds (c.buf i)).map .buf := by
  rw [List.find?_map]
  rfl

/-- The first loop of `bget` ends and searches the list. -/
theorem Ordered.cached_eq (ordered : c.Ordered order) (dev blockno : Nat) :
    c.cached dev blockno =
      some ((order.find? fun i => (c.buf i).dev == dev && (c.buf i).blockno == blockno).map .buf) := by
  have enough : (order.map BufNode.buf).length < NBUF + 1 := by
    rw [List.length_map, ordered.length]
    exact Nat.lt_succ_self _
  unfold cached
  rw [ordered.cycle.find_eq _ enough, find_nodes]

/-- The second loop of `bget` ends and searches the list backwards. -/
theorem Ordered.victim_eq (ordered : c.Ordered order) :
    c.victim = some ((order.reverse.find? fun i => (c.buf i).unused).map .buf) := by
  have enough : ((order.map BufNode.buf).reverse).length < NBUF + 1 := by
    rw [List.length_reverse, List.length_map, ordered.length]
    exact Nat.lt_succ_self _
  have found := ordered.cycle.flip.find_eq (c.test Buf.unused) enough
  unfold victim
  rw [← List.map_reverse, find_nodes] at found
  exact found

/-- What `bget` answers. -/
inductive Got (c : LinkedCache π) (dev blockno : Nat) : Except Stop (Fin NBUF × LinkedCache π) → Prop where
  /-- The block is cached. -/
  | hit (i : Fin NBUF) : (c.buf i).dev = dev → (c.buf i).blockno = blockno →
      Got c dev blockno (.ok (i, c.set i { c.buf i with refcnt := (c.buf i).refcnt + 1 }))
  /-- It is not, and a buffer that is not in use is recycled. -/
  | recycled (i : Fin NBUF) : (∀ j, (c.buf j).dev = dev → (c.buf j).blockno ≠ blockno) →
      (c.buf i).refcnt = 0 → (c.buf i).dirty = false →
      Got c dev blockno (.ok (i, c.set i { c.buf i with dev, blockno, valid := false, dirty := false, refcnt := 1 }))
  /-- It is not, and every buffer is in use. -/
  | full : (∀ j, (c.buf j).dev = dev → (c.buf j).blockno ≠ blockno) →
      (∀ j, 0 < (c.buf j).refcnt ∨ (c.buf j).dirty = true) → Got c dev blockno (.error (.panic "bget: no buffers"))

/-- A buffer may be recycled when nobody refers to it and it is clean. -/
theorem unused_iff (b : Buf π) : b.unused = true ↔ b.refcnt = 0 ∧ b.dirty = false := by
  unfold Buf.unused
  rw [Bool.and_eq_true, beq_iff_eq, Bool.not_eq_true']

/-- `bget` answers. -/
theorem Ordered.bget_got (ordered : c.Ordered order) (dev blockno : Nat) :
    ∃ answer, c.bget dev blockno = some answer ∧ Got c dev blockno answer := by
  unfold bget
  rw [ordered.cached_eq]
  cases hit : order.find? fun i => (c.buf i).dev == dev && (c.buf i).blockno == blockno with
  | some i =>
    have same := List.find?_some hit
    rw [Bool.and_eq_true, beq_iff_eq, beq_iff_eq] at same
    exact ⟨_, rfl, .hit i same.1 same.2⟩
  | none =>
    have miss : ∀ j, (c.buf j).dev = dev → (c.buf j).blockno ≠ blockno := by
      intro j device number
      apply List.find?_eq_none.mp hit j (ordered.all j)
      rw [Bool.and_eq_true, beq_iff_eq, beq_iff_eq]
      exact ⟨device, number⟩
    simp only [Option.map_none]
    rw [ordered.victim_eq]
    cases spare : order.reverse.find? fun i => (c.buf i).unused with
    | some i =>
      have idle := List.find?_some spare
      obtain ⟨zero, clean⟩ := (unused_iff (c.buf i)).mp idle
      exact ⟨_, rfl, .recycled i miss zero clean⟩
    | none =>
      refine ⟨_, rfl, .full miss ?_⟩
      intro j
      have busy := List.find?_eq_none.mp spare j (List.mem_reverse.mpr (ordered.all j))
      rw [unused_iff] at busy
      by_cases zero : (c.buf j).refcnt = 0
      · refine .inr ?_
        cases dirty : (c.buf j).dirty with
        | true => rfl
        | false => exact absurd ⟨zero, dirty⟩ busy
      · exact .inl (Nat.pos_of_ne_zero zero)

/-- Changing the buffers leaves the list. -/
theorem Ordered.set (ordered : c.Ordered order) (b : Buf π) : (c.set i b).Ordered order :=
  ⟨ordered.cycle, ordered.all⟩

/-- The last user of a buffer makes it the first of the list, the others staying as they are. -/
theorem Ordered.front (ordered : c.Ordered order) (i : Fin NBUF) :
    Ordered { c with links := (c.links.unlink (.buf i)).push .head (.buf i) } (i :: order.erase i) := by
  obtain ⟨before, after, split⟩ := List.append_of_mem (ordered.all i)
  have distinct := ordered.nodup
  rw [split, List.nodup_middle, List.nodup_cons, List.mem_append, not_or] at distinct
  have erased : order.erase i = before ++ after := by
    rw [split, List.erase_append_right _ distinct.1.1, List.erase_cons_head]
  have cycle := ordered.cycle
  rw [split, List.map_append, List.map_cons] at cycle
  have fresh : BufNode.buf i ∉ .head :: (before.map .buf ++ after.map .buf) := by
    rw [← List.map_append, List.mem_cons, not_or, List.mem_map]
    refine ⟨nofun, ?_⟩
    rintro ⟨j, member, same⟩
    rw [buf_injective same, List.mem_append] at member
    exact member.elim distinct.1.1 distinct.1.2
  refine ⟨?_, fun j => ?_⟩
  · rw [erased, List.map_cons, List.map_append]
    exact cycle.unlink.push fresh
  · by_cases same : j = i
    · rw [same]
      exact List.mem_cons_self
    · apply List.mem_cons_of_mem
      exact (List.mem_erase_of_ne same).mpr (ordered.all j)

/-- `binit` links each buffer once. -/
theorem binit_ordered : (binit : LinkedCache π).Ordered (List.finRange NBUF).reverse := by
  have pushes : ∀ (todo done : List (Fin NBUF)) (l : Links BufNode), (todo ++ done).Nodup →
      l.Cycle .head (done.map .buf) →
      (todo.foldl (fun l i => l.push .head (.buf i)) l).Cycle .head ((todo.reverse ++ done).map .buf) := by
    intro todo
    induction todo with
    | nil =>
      intro done l _ cycle
      exact cycle
    | cons i todo ih =>
      intro done l distinct cycle
      rw [List.cons_append, List.nodup_cons, List.mem_append, not_or] at distinct
      rw [List.foldl_cons, List.reverse_cons, List.append_assoc]
      apply ih (i :: done)
      · rw [List.nodup_middle, List.nodup_cons, List.mem_append, not_or]
        exact distinct
      · apply cycle.push
        rw [List.mem_cons, not_or, List.mem_map]
        refine ⟨nofun, ?_⟩
        rintro ⟨j, member, same⟩
        rw [buf_injective same] at member
        exact distinct.1.2 member
  refine ⟨?_, ?_⟩
  · have linked := pushes (List.finRange NBUF) [] ⟨fun _ => .head, fun _ => .head⟩
      (by rw [List.append_nil]; exact List.nodup_finRange NBUF) ⟨List.nodup_singleton _, rfl, rfl⟩
    rw [List.append_nil] at linked
    exact linked
  · intro i
    rw [List.mem_reverse]
    exact List.mem_finRange i

end LinkedCache

namespace BufState

variable {π : Type} {s t : BufState π} {havedisk1 : Bool}

/-- The number of uses of a buffer. -/
def uses (s : BufState π) (i : Fin NBUF) : Nat := s.refs.countP fun r => decide (r.buf = i)

/-- What holds after every run. -/
structure Consistent (s : BufState π) : Prop where
  /-- The list is a circle of all buffers. -/
  ordered : ∃ order, s.cache.Ordered order
  /-- Reference counts are numbers of uses. -/
  counted : ∀ i, (s.cache.buf i).refcnt = s.uses i
  /-- A buffer in use is that of the block asked for. -/
  identity : ∀ r ∈ s.refs, (s.cache.buf r.buf).dev = r.dev ∧ (s.cache.buf r.buf).blockno = r.blockno
  /-- A block of a device has at most one buffer. -/
  distinct : ∀ i j, (s.cache.buf i).dev ≠ 0 → (s.cache.buf j).dev = (s.cache.buf i).dev →
    (s.cache.buf j).blockno = (s.cache.buf i).blockno → i = j

/-- What a step leaves of a buffer: its identity, and valid data unless the step is a store. -/
structure Retained (stores : Prop) (b b' : Buf π) : Prop where
  dev : b'.dev = b.dev
  blockno : b'.blockno = b.blockno
  valid : b.valid = true → b'.valid = true
  /-- Valid data stays. -/
  data : b.valid = true → b'.data = b.data ∨ stores

/-- Steps compose. -/
theorem Retained.trans {stores : Prop} {b b' b'' : Buf π} (first : Retained stores b b') (second : Retained stores b' b'') :
    Retained stores b b'' where
  dev := second.dev.trans first.dev
  blockno := second.blockno.trans first.blockno
  valid := fun known => second.valid (first.valid known)
  data := by
    intro known
    rcases second.data (first.valid known) with same | stored
    · rw [same]
      exact first.data known
    · exact .inr stored

/-- Nothing has changed. -/
theorem Retained.refl {stores : Prop} (b : Buf π) : Retained stores b b := ⟨rfl, rfl, id, fun _ => .inl rfl⟩

/-- The buffer of a use is in use. -/
theorem Consistent.referenced (consistent : Consistent s) {r : BufRef π} (member : r ∈ s.refs) :
    0 < (s.cache.buf r.buf).refcnt := by
  rw [consistent.counted]
  exact List.countP_pos_iff.mpr ⟨r, member, decide_eq_true rfl⟩

/-- The buffers after one has been replaced. -/
theorem set_buf (i j : Fin NBUF) (b : Buf π) :
    (s.set i b).cache.buf j = if j = i then b else s.cache.buf j := Function.update_apply _ _ _ _

/-- The buffers after a use has ended. -/
theorem drop_buf (c : LinkedCache π) (i j : Fin NBUF) :
    (c.drop i).buf j = if j = i then { c.buf i with refcnt := (c.buf i).refcnt - 1 } else c.buf j := by
  have same : (c.drop i).buf = (c.set i { c.buf i with refcnt := (c.buf i).refcnt - 1 }).buf := by
    unfold LinkedCache.drop
    dsimp only
    split
    · rfl
    · rfl
  rw [same]
  exact Function.update_apply _ _ _ _

/-- A change of a buffer that keeps its identity and its count. -/
theorem Consistent.set (consistent : Consistent s) {i : Fin NBUF} {b : Buf π} (dev : b.dev = (s.cache.buf i).dev)
    (blockno : b.blockno = (s.cache.buf i).blockno) (refcnt : b.refcnt = (s.cache.buf i).refcnt) :
    Consistent (s.set i b) := by
  have devs : ∀ j, ((s.set i b).cache.buf j).dev = (s.cache.buf j).dev := by
    intro j
    rw [set_buf]
    by_cases same : j = i
    · rw [if_pos same, same, dev]
    · rw [if_neg same]
  have numbers : ∀ j, ((s.set i b).cache.buf j).blockno = (s.cache.buf j).blockno := by
    intro j
    rw [set_buf]
    by_cases same : j = i
    · rw [if_pos same, same, blockno]
    · rw [if_neg same]
  refine ⟨?_, ?_, ?_, ?_⟩
  · obtain ⟨order, ordered⟩ := consistent.ordered
    exact ⟨order, ordered.set b⟩
  · intro j
    rw [set_buf]
    by_cases same : j = i
    · rw [if_pos same, same, refcnt]
      exact consistent.counted i
    · rw [if_neg same]
      exact consistent.counted j
  · intro r member
    rw [devs, numbers]
    exact consistent.identity r member
  · intro j k known device number
    rw [devs] at known
    rw [devs, devs] at device
    rw [numbers, numbers] at number
    exact consistent.distinct j k known device number

/-- A change of one buffer leaves the others. -/
theorem Retained.set {stores : Fin NBUF → Prop} {i : Fin NBUF} {b : Buf π} (retained : Retained (stores i) (s.cache.buf i) b)
    (j : Fin NBUF) : Retained (stores j) (s.cache.buf j) ((s.set i b).cache.buf j) := by
  rw [set_buf]
  by_cases same : j = i
  · rw [if_pos same, same]
    exact retained
  · rw [if_neg same]
    exact Retained.refl _

/-- Whether an event stores into the data of a buffer. -/
def Stores (event : BufEvent π) (i : Fin NBUF) : Prop := ∃ r update, event = .modify r update ∧ r.buf = i

variable [DecidableEq π]

/-- A process goes on with its buffer. -/
theorem Consistent.advance (consistent : Consistent s) {r : BufRef π} (member : r ∈ s.refs) (stage : BufStage) :
    Consistent (s.advance r stage) := by
  refine ⟨consistent.ordered, ?_, ?_, consistent.distinct⟩
  · intro i
    show (s.cache.buf i).refcnt = ({ r with stage } :: s.refs.erase r).countP _
    rw [consistent.counted, uses, (List.perm_cons_erase member).countP_eq, List.countP_cons, List.countP_cons]
  · intro q inside
    rcases List.mem_cons.mp inside with same | other
    · rw [same]
      exact consistent.identity r member
    · exact consistent.identity q (List.mem_of_mem_erase other)

/-- What `iderw` does. -/
theorem iderw_spec {p : π} {i : Fin NBUF} (done : iderw havedisk1 s p i = some t) :
    ∃ data, t.cache = s.cache.set i { s.cache.buf i with valid := true, dirty := false, data := data } ∧
      t.refs = s.refs ∧ ((s.cache.buf i).dirty = true → data = (s.cache.buf i).data) ∧
      ((s.cache.buf i).valid = true → (s.cache.buf i).dirty = true) := by
  unfold iderw at done
  dsimp only at done
  split at done
  · exact nomatch done
  · rename_i allowed
    rw [not_or, not_or] at allowed
    have something : (s.cache.buf i).valid = true → (s.cache.buf i).dirty = true := by
      intro valid
      cases dirty : (s.cache.buf i).dirty with
      | true => rfl
      | false => exact absurd ⟨valid, dirty⟩ allowed.2.1
    by_cases dirty : (s.cache.buf i).dirty = true
    · rw [if_pos dirty] at done
      cases done
      exact ⟨(s.cache.buf i).data, rfl, rfl, fun _ => rfl, something⟩
    · rw [if_neg dirty] at done
      cases done
      have clean : (s.cache.buf i).dirty = false := Bool.eq_false_iff.mpr dirty
      refine ⟨s.disk ((s.cache.buf i).dev % 2) (s.cache.buf i).blockno, ?_, rfl, fun known => absurd known dirty, something⟩
      show s.cache.set i { s.cache.buf i with valid := true, data := _ } = _
      rw [← clean]

/-- `iderw` keeps the invariant and the buffers. -/
theorem Consistent.iderw {p : π} {i : Fin NBUF} (consistent : Consistent s)
    (done : BufState.iderw havedisk1 s p i = some t) (stores : Fin NBUF → Prop) :
    Consistent t ∧ t.refs = s.refs ∧ ∀ j, Retained (stores j) (s.cache.buf j) (t.cache.buf j) := by
  obtain ⟨data, cache, refs, kept, something⟩ := iderw_spec done
  have changed : Consistent (s.set i { s.cache.buf i with valid := true, dirty := false, data := data }) :=
    consistent.set rfl rfl rfl
  have retained : Retained (stores i) (s.cache.buf i)
      { s.cache.buf i with valid := true, dirty := false, data := data } :=
    ⟨rfl, rfl, fun _ => rfl, fun valid => .inl (kept (something valid))⟩
  refine ⟨?_, refs, ?_⟩
  · obtain ⟨ordered, counted, identity, distinct⟩ := changed
    refine ⟨?_, ?_, ?_, ?_⟩
    · rw [cache]
      exact ordered
    · intro j
      rw [uses, cache, refs]
      exact counted j
    · rw [cache, refs]
      exact identity
    · rw [cache]
      exact distinct
  · intro j
    rw [cache]
    exact retained.set j

/-- A use ends: the count goes down, and the last use moves the buffer to the front. -/
theorem Consistent.drop (consistent : Consistent s) {r : BufRef π} (member : r ∈ s.refs) :
    Consistent { s with cache := s.cache.drop r.buf, refs := s.refs.erase r } := by
  have devs : ∀ j, ((s.cache.drop r.buf).buf j).dev = (s.cache.buf j).dev := by
    intro j
    rw [drop_buf]
    by_cases same : j = r.buf
    · rw [if_pos same, same]
    · rw [if_neg same]
  have numbers : ∀ j, ((s.cache.drop r.buf).buf j).blockno = (s.cache.buf j).blockno := by
    intro j
    rw [drop_buf]
    by_cases same : j = r.buf
    · rw [if_pos same, same]
    · rw [if_neg same]
  refine ⟨?_, ?_, ?_, ?_⟩
  · obtain ⟨order, ordered⟩ := consistent.ordered
    show ∃ order, (s.cache.drop r.buf).Ordered order
    unfold LinkedCache.drop
    dsimp only
    split
    · exact ⟨_, (ordered.set _).front r.buf⟩
    · exact ⟨order, ordered.set _⟩
  · intro j
    show ((s.cache.drop r.buf).buf j).refcnt = (s.refs.erase r).countP fun q => decide (q.buf = j)
    have total := consistent.counted j
    rw [uses, (List.perm_cons_erase member).countP_eq, List.countP_cons] at total
    rw [drop_buf]
    by_cases same : j = r.buf
    · rw [if_pos same]
      subst same
      rw [if_pos (decide_eq_true rfl)] at total
      show (s.cache.buf r.buf).refcnt - 1 = _
      omega
    · rw [if_neg same, total]
      rw [if_neg (by simpa using Ne.symm same)]
      rfl
  · intro q inside
    show ((s.cache.drop r.buf).buf q.buf).dev = q.dev ∧ ((s.cache.drop r.buf).buf q.buf).blockno = q.blockno
    rw [devs, numbers]
    exact consistent.identity q (List.mem_of_mem_erase inside)
  · intro j k known device number
    change ((s.cache.drop r.buf).buf j).dev ≠ 0 at known
    change ((s.cache.drop r.buf).buf k).dev = ((s.cache.drop r.buf).buf j).dev at device
    change ((s.cache.drop r.buf).buf k).blockno = ((s.cache.drop r.buf).buf j).blockno at number
    rw [devs] at known
    rw [devs, devs] at device
    rw [numbers, numbers] at number
    exact consistent.distinct j k known device number

/-- A step of a process with a buffer it uses. -/
theorem Consistent.use (consistent : Consistent s) {r : BufRef π} {event : BufEvent π} (member : r ∈ s.refs)
    (subject : subject event = some r) (used : BufState.use havedisk1 s r event = some t) :
    Consistent t ∧ ∀ i, Retained (Stores event i) (s.cache.buf i) (t.cache.buf i) := by
  cases event with
  | bget p dev blockno => exact nomatch subject
  | acquire q =>
    cases subject
    change (if r.stage = .waiting ∧ (s.cache.buf r.buf).holder = none then _ else none) = _ at used
    split at used
    · cases used
      have changed : Consistent (s.set r.buf { s.cache.buf r.buf with holder := some r.proc }) :=
        consistent.set rfl rfl rfl
      refine ⟨changed.advance member .locked, ?_⟩
      exact Retained.set ⟨rfl, rfl, id, fun _ => .inl rfl⟩
    · exact nomatch used
  | fill q =>
    cases subject
    change (if r.stage = .locked then _ else none) = _ at used
    split at used
    · split at used
      · cases used
        exact ⟨consistent.advance member .held, fun i => Retained.refl _⟩
      · obtain ⟨u, done, same⟩ := Option.map_eq_some_iff.mp used
        cases same
        obtain ⟨next, refs, retained⟩ := consistent.iderw done (Stores (.fill r))
        rw [← refs] at member
        exact ⟨next.advance member .held, retained⟩
    · exact nomatch used
  | modify q update =>
    cases subject
    change (if r.stage = .held then _ else none) = _ at used
    split at used
    · cases used
      refine ⟨consistent.set rfl rfl rfl, ?_⟩
      exact Retained.set ⟨rfl, rfl, id, fun _ => .inr ⟨r, update, rfl, rfl⟩⟩
    · exact nomatch used
  | logWrite q =>
    cases subject
    change (if r.stage = .held then _ else none) = _ at used
    split at used
    · cases used
      refine ⟨consistent.set rfl rfl rfl, ?_⟩
      exact Retained.set ⟨rfl, rfl, id, fun _ => .inl rfl⟩
    · exact nomatch used
  | bwrite q =>
    cases subject
    change (if r.stage = .held ∧ (s.cache.buf r.buf).holder = some r.proc then _ else none) = _ at used
    split at used
    · have marked : Consistent (s.set r.buf { s.cache.buf r.buf with dirty := true }) :=
        consistent.set rfl rfl rfl
      obtain ⟨next, _, retained⟩ := marked.iderw used (Stores (.bwrite r))
      refine ⟨next, ?_⟩
      intro i
      have first : Retained (Stores (.bwrite r) i) (s.cache.buf i)
          ((s.set r.buf { s.cache.buf r.buf with dirty := true }).cache.buf i) := by
        apply Retained.set
        exact ⟨rfl, rfl, id, fun _ => .inl rfl⟩
      exact first.trans (retained i)
    · exact nomatch used
  | releasesleep q =>
    cases subject
    change (if r.stage = .held ∧ (s.cache.buf r.buf).holder = some r.proc then _ else none) = _ at used
    split at used
    · cases used
      have changed : Consistent (s.set r.buf { s.cache.buf r.buf with holder := none }) :=
        consistent.set rfl rfl rfl
      refine ⟨changed.advance member .leaving, ?_⟩
      exact Retained.set ⟨rfl, rfl, id, fun _ => .inl rfl⟩
    · exact nomatch used
  | drop q =>
    cases subject
    change (if r.stage = .leaving then _ else none) = _ at used
    split at used
    · cases used
      refine ⟨consistent.drop member, ?_⟩
      intro i
      show Retained _ (s.cache.buf i) ((s.cache.drop r.buf).buf i)
      rw [drop_buf]
      by_cases same : i = r.buf
      · rw [if_pos same, same]
        exact ⟨rfl, rfl, id, fun _ => .inl rfl⟩
      · rw [if_neg same]
        exact Retained.refl _
    · exact nomatch used

omit [DecidableEq π] in
/-- `bread` up to `acquiresleep`. -/
theorem Consistent.bget (consistent : Consistent s) {p : π} {dev blockno : Nat} {i : Fin NBUF} {cache : LinkedCache π}
    (got : s.cache.Got dev blockno (.ok (i, cache))) :
    Consistent { s with cache, refs := ⟨p, i, dev, blockno, .waiting⟩ :: s.refs } ∧
      ∀ j, 0 < (s.cache.buf j).refcnt ∨ (s.cache.buf j).dirty = true →
        Retained False (s.cache.buf j) (cache.buf j) := by
  obtain ⟨order, ordered⟩ := consistent.ordered
  cases got with
  | hit _ device number =>
    have bufs : ∀ j, ((s.cache.set i { s.cache.buf i with refcnt := (s.cache.buf i).refcnt + 1 }).buf j).dev =
        (s.cache.buf j).dev ∧ ((s.cache.set i { s.cache.buf i with refcnt := (s.cache.buf i).refcnt + 1 }).buf j).blockno =
        (s.cache.buf j).blockno := by
      intro j
      show ((s.set i _).cache.buf j).dev = _ ∧ ((s.set i _).cache.buf j).blockno = _
      rw [set_buf]
      by_cases same : j = i
      · rw [if_pos same, same]
        exact ⟨rfl, rfl⟩
      · rw [if_neg same]
        exact ⟨rfl, rfl⟩
    refine ⟨⟨⟨order, ordered.set _⟩, ?_, ?_, ?_⟩, ?_⟩
    · intro j
      show ((s.set i _).cache.buf j).refcnt = (_ :: s.refs).countP fun r => decide (r.buf = j)
      rw [set_buf, List.countP_cons]
      by_cases same : j = i
      · rw [if_pos same, if_pos (decide_eq_true same.symm), same]
        exact congrArg (· + 1) (consistent.counted i)
      · rw [if_neg same, if_neg (by simpa using Ne.symm same)]
        exact consistent.counted j
    · intro r member
      rw [(bufs r.buf).1, (bufs r.buf).2]
      rcases List.mem_cons.mp member with same | other
      · rw [same]
        exact ⟨device, number⟩
      · exact consistent.identity r other
    · intro j k
      rw [(bufs j).1, (bufs k).1, (bufs j).2, (bufs k).2]
      exact consistent.distinct j k
    · intro j _
      show Retained _ _ ((s.set i _).cache.buf j)
      rw [set_buf]
      by_cases same : j = i
      · rw [if_pos same, same]
        exact ⟨rfl, rfl, id, fun _ => .inl rfl⟩
      · rw [if_neg same]
        exact Retained.refl _
  | recycled _ miss zero clean =>
    have unused : ∀ r ∈ s.refs, r.buf ≠ i := by
      intro r member same
      have positive := consistent.referenced member
      rw [same, zero] at positive
      exact absurd positive (Nat.lt_irrefl 0)
    refine ⟨⟨⟨order, ordered.set _⟩, ?_, ?_, ?_⟩, ?_⟩
    · intro j
      show ((s.set i _).cache.buf j).refcnt = (_ :: s.refs).countP fun r => decide (r.buf = j)
      rw [set_buf, List.countP_cons]
      by_cases same : j = i
      · rw [if_pos same, if_pos (decide_eq_true same.symm), same]
        have none : s.refs.countP (fun r => decide (r.buf = i)) = 0 := by
          rw [← zero]
          exact (consistent.counted i).symm
        rw [none]
      · rw [if_neg same, if_neg (by simpa using Ne.symm same)]
        exact consistent.counted j
    · intro r member
      show ((s.set i _).cache.buf r.buf).dev = _ ∧ ((s.set i _).cache.buf r.buf).blockno = _
      rw [set_buf]
      rcases List.mem_cons.mp member with same | other
      · rw [same, if_pos rfl]
        exact ⟨rfl, rfl⟩
      · rw [if_neg (unused r other)]
        exact consistent.identity r other
    · intro j k
      show ((s.set i _).cache.buf j).dev ≠ 0 → ((s.set i _).cache.buf k).dev = ((s.set i _).cache.buf j).dev →
        ((s.set i _).cache.buf k).blockno = ((s.set i _).cache.buf j).blockno → j = k
      rw [set_buf, set_buf]
      by_cases left : j = i
      · by_cases right : k = i
        · intro _ _ _
          exact left.trans right.symm
        · rw [if_pos left, if_neg right]
          intro _ device number
          exact absurd number (miss k device)
      · by_cases right : k = i
        · rw [if_neg left, if_pos right]
          intro _ device number
          exact absurd number.symm (miss j device.symm)
        · rw [if_neg left, if_neg right]
          exact consistent.distinct j k
    · intro j busy
      show Retained _ _ ((s.set i _).cache.buf j)
      rw [set_buf]
      by_cases same : j = i
      · subst same
        rw [zero, clean] at busy
        rcases busy with positive | dirty
        · exact absurd positive (Nat.lt_irrefl 0)
        · exact nomatch dirty
      · rw [if_neg same]
        exact Retained.refl _

/-- Every step keeps the invariant, and the identity and the data of a buffer that is in use or
`B_DIRTY`. -/
theorem Consistent.step {event : BufEvent π} (consistent : Consistent s) (taken : Step havedisk1 s event t) :
    Consistent t ∧ ∀ i, 0 < (s.cache.buf i).refcnt ∨ (s.cache.buf i).dirty = true →
      Retained (Stores event i) (s.cache.buf i) (t.cache.buf i) := by
  unfold Step next at taken
  cases about : subject event with
  | some r =>
    simp only [about] at taken
    split at taken
    · rename_i member
      obtain ⟨next, retained⟩ := consistent.use member about taken
      exact ⟨next, fun i _ => retained i⟩
    · exact nomatch taken
  | none =>
    cases event with
    | bget p dev blockno =>
      obtain ⟨order, ordered⟩ := consistent.ordered
      obtain ⟨answer, answered, got⟩ := ordered.bget_got dev blockno
      simp only [about, answered] at taken
      cases answer with
      | error reason => exact nomatch taken
      | ok found =>
        cases taken
        obtain ⟨next, retained⟩ := consistent.bget got
        refine ⟨next, ?_⟩
        intro i busy
        obtain ⟨device, number, valid, data⟩ := retained i busy
        exact ⟨device, number, valid, fun known => .inl ((data known).resolve_right id)⟩
    | _ => exact nomatch about

/-- The invariant holds after every run. -/
theorem Consistent.run {disk : Nat → Nat → Block} {events : List (BufEvent π)}
    (run : Run (Step havedisk1) (start disk) events s) : Consistent s := by
  apply run.invariant Consistent
  · intro s event t consistent taken
    exact (consistent.step taken).1
  · refine ⟨⟨_, LinkedCache.binit_ordered⟩, ?_, ?_, ?_⟩
    · intro i
      rfl
    · intro r member
      exact absurd member List.not_mem_nil
    · intro i j known
      exact absurd rfl known

/-- After `binit` and any sequence of steps of `bread`, `bwrite`, `log_write` and `brelse`: following
`next` from the head visits each buffer once and returns, `prev` is the inverse of `next`, a block of
a device has at most one buffer, and the reference counts are the numbers of uses. A `bread` of a
block with a valid copy gets that copy and does not read the disk, a buffer in use stays that of its
block, and a buffer that is in use or `B_DIRTY` is not recycled and keeps its valid data but for
stores. -/
theorem buffers_linked {disk : Nat → Nat → Block} {events : List (BufEvent π)}
    (run : Run (Step havedisk1) (start disk) events s) :
    (∃ order : List (Fin NBUF), order.length = NBUF ∧ order.Nodup ∧ (∀ i, i ∈ order) ∧
      (∀ k, (inside : k < order.length) → s.cache.links.next^[k + 1] .head = .buf order[k]) ∧
      s.cache.links.next^[NBUF + 1] .head = .head) ∧
    (∀ node, s.cache.links.prev (s.cache.links.next node) = node ∧ s.cache.links.next (s.cache.links.prev node) = node) ∧
    (∀ i j, (s.cache.buf i).dev ≠ 0 → (s.cache.buf j).dev = (s.cache.buf i).dev →
      (s.cache.buf j).blockno = (s.cache.buf i).blockno → i = j) ∧
    (∀ i, (s.cache.buf i).refcnt = s.uses i) ∧
    (∀ r ∈ s.refs, (s.cache.buf r.buf).dev = r.dev ∧ (s.cache.buf r.buf).blockno = r.blockno) ∧
    (∀ p i, (s.cache.buf i).dev ≠ 0 → (s.cache.buf i).valid = true →
      ∃ t, Step havedisk1 s (.bget p (s.cache.buf i).dev (s.cache.buf i).blockno) t ∧
        t.refs = ⟨p, i, (s.cache.buf i).dev, (s.cache.buf i).blockno, .waiting⟩ :: s.refs ∧
        (t.cache.buf i).valid = true ∧ (t.cache.buf i).data = (s.cache.buf i).data) ∧
    (∀ r t, (s.cache.buf r.buf).valid = true → Step havedisk1 s (.fill r) t → t.cache = s.cache) ∧
    ∀ event t, Step havedisk1 s event t → ∀ i, 0 < (s.cache.buf i).refcnt ∨ (s.cache.buf i).dirty = true →
      Retained (Stores event i) (s.cache.buf i) (t.cache.buf i) := by
  have consistent := Consistent.run run
  obtain ⟨order, ordered⟩ := consistent.ordered
  have onCircle : ∀ node : BufNode, node ∈ BufNode.head :: order.map .buf := by
    intro node
    cases node with
    | head => exact List.mem_cons_self
    | buf i => exact List.mem_cons_of_mem _ (List.mem_map_of_mem (ordered.all i))
  refine ⟨⟨order, ordered.length, ordered.nodup, ordered.all, ?_, ?_⟩, ?_, consistent.distinct, consistent.counted,
    consistent.identity, ?_, ?_, fun event t taken => (consistent.step taken).2⟩
  · intro k inside
    rw [ordered.cycle.path.visits k (by rw [List.length_map]; exact inside), List.getElem_map]
  · have arrives := ordered.cycle.path.arrives
    rw [List.length_map, ordered.length] at arrives
    exact arrives
  · intro node
    refine ⟨ordered.cycle.path.prev_next (onCircle node), ordered.cycle.path.next_prev ?_⟩
    rw [List.mem_append, List.mem_singleton, or_comm]
    exact List.mem_cons.mp (onCircle node)
  · intro p i known valid
    obtain ⟨answer, answered, got⟩ := ordered.bget_got (s.cache.buf i).dev (s.cache.buf i).blockno
    cases got with
    | hit j device number =>
      have same : i = j := consistent.distinct i j known device number
      subst same
      refine ⟨{ s with
          cache := s.cache.set i { s.cache.buf i with refcnt := (s.cache.buf i).refcnt + 1 }
          refs := ⟨p, i, (s.cache.buf i).dev, (s.cache.buf i).blockno, .waiting⟩ :: s.refs }, ?_, rfl, ?_, ?_⟩
      · simp only [Step, next, subject, answered]
      · show ((s.set i _).cache.buf i).valid = true
        rw [set_buf, if_pos rfl]
        exact valid
      · show ((s.set i _).cache.buf i).data = _
        rw [set_buf, if_pos rfl]
    | recycled j miss => exact absurd rfl (miss i rfl)
    | full miss => exact absurd rfl (miss i rfl)
  · intro r t valid taken
    change (if r ∈ s.refs then (if r.stage = .locked then _ else none) else none) = some t at taken
    split at taken
    · split at taken
      · cases taken
        rfl
      · exact nomatch taken
    · exact nomatch taken

set_option maxRecDepth 20000 in
/-- A process reads the block 5 of disk 1 and gives it back. -/
theorem buffers_linked_read : ∃ s : BufState Nat, (s.cache.buf ⟨0, by decide⟩).blockno = 5 ∧ s.refs = [] ∧
    ∀ i, (s.cache.buf i).refcnt = s.uses i :=
  have run : Run (Step true) (start fun _ _ => Block.zero)
      [.bget 0 1 5, .acquire ⟨0, ⟨0, by decide⟩, 1, 5, .waiting⟩, .fill ⟨0, ⟨0, by decide⟩, 1, 5, .locked⟩,
        .releasesleep ⟨0, ⟨0, by decide⟩, 1, 5, .held⟩, .drop ⟨0, ⟨0, by decide⟩, 1, 5, .leaving⟩] _ :=
    .cons rfl <| .cons rfl <| .cons rfl <| .cons rfl <| .cons rfl <| .nil _
  ⟨_, rfl, rfl, (buffers_linked run).2.2.2.1⟩

end BufState

end Xv6
