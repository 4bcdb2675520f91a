import Xv6.Verif.Files
import Xv6.FileWrite
import Mathlib.Data.Finset.Card
import Mathlib.Data.Finset.Union
import Mathlib.Order.Interval.Finset.Nat
import Mathlib.Data.List.Sort

/-!
# What one piece of a write records

`filewrite` and `filepwrite` reserve `MAXOPBLOCKS` log blocks for a piece. How many block numbers
a piece passes to `log_write` is determined before it starts: by the vacant places on the paths of
its block numbers, and by the free map blocks that the first free blocks belong to. `Filling` says
which places a part of `writei` fills, with which blocks, and what it records; it composes along the
levels of `bmap` and the iterations of the copy loop.
-/

namespace Xv6

open Program

variable {ι : Type}

/-! ## Free blocks -/

/-- The free blocks in the order of their numbers. -/
def freeBlocks (sb : Superblock) (blocks : Nat → Block) : List Nat :=
  (List.range sb.size).filter fun b => !(blocks (BBLOCK b sb)).bit (b % BPB)

/-- The first free block. -/
def FirstFree (sb : Superblock) (blocks : Nat → Block) (c : Nat) : Prop :=
  c < sb.size ∧ ¬Used sb blocks c ∧ ∀ a, a < c → Used sb blocks a

/-- The free blocks are the ones whose bit is clear. -/
theorem mem_freeBlocks {sb : Superblock} {blocks : Nat → Block} {b : Nat} :
    b ∈ freeBlocks sb blocks ↔ b < sb.size ∧ ¬Used sb blocks b := by
  simp only [freeBlocks, Used, List.mem_filter, List.mem_range, Bool.not_eq_true', Bool.not_eq_true]

/-- No free block is listed twice. -/
theorem freeBlocks_nodup (sb : Superblock) (blocks : Nat → Block) : (freeBlocks sb blocks).Nodup :=
  List.nodup_range.filter _

/-- The free blocks depend on the free map only. -/
theorem freeBlocks_congr {sb : Superblock} {blocks blocks' : Nat → Block}
    (same : ∀ b, b < sb.size → (Used sb blocks' b ↔ Used sb blocks b)) :
    freeBlocks sb blocks' = freeBlocks sb blocks := by
  apply List.filter_congr
  intro b member
  have bit := same b (List.mem_range.mp member)
  simp only [Used] at bit
  rw [Bool.eq_iff_iff.mpr bit]

/-- Taking the first free block leaves the others. -/
theorem freeBlocks_taken {sb : Superblock} {blocks blocks' : Nat → Block} {c : Nat}
    (first : FirstFree sb blocks c)
    (taken : ∀ b, b < sb.size → (Used sb blocks' b ↔ Used sb blocks b ∨ b = c)) :
    freeBlocks sb blocks = c :: freeBlocks sb blocks' := by
  obtain ⟨small, free, least⟩ := first
  obtain ⟨rest, length⟩ : ∃ rest, sb.size = c + (rest + 1) := ⟨sb.size - c - 1, by omega⟩
  have below : ∀ b ∈ List.range c, (blocks (BBLOCK b sb)).bit (b % BPB) = true ∧
      (blocks' (BBLOCK b sb)).bit (b % BPB) = true := by
    intro b member
    have low := List.mem_range.mp member
    have used : Used sb blocks b := least b low
    exact ⟨used, (taken b (by omega)).mpr (.inl used)⟩
  have here : (blocks (BBLOCK c sb)).bit (c % BPB) = false := by simpa [Used] using free
  have here' : (blocks' (BBLOCK c sb)).bit (c % BPB) = true := (taken c small).mpr (.inr rfl)
  have above : ∀ j, j < rest → (blocks' (BBLOCK (c + (j + 1)) sb)).bit ((c + (j + 1)) % BPB) =
      (blocks (BBLOCK (c + (j + 1)) sb)).bit ((c + (j + 1)) % BPB) := by
    intro j low
    have used := taken (c + (j + 1)) (by omega)
    simp only [show ¬c + (j + 1) = c by omega, or_false, Used] at used
    exact Bool.eq_iff_iff.mpr used
  have none : ((List.range c).filter fun b => !(blocks (BBLOCK b sb)).bit (b % BPB)) = [] := by
    rw [List.filter_eq_nil_iff]
    intro b member
    simp [(below b member).1]
  have none' : ((List.range c).filter fun b => !(blocks' (BBLOCK b sb)).bit (b % BPB)) = [] := by
    rw [List.filter_eq_nil_iff]
    intro b member
    simp [(below b member).2]
  simp only [freeBlocks]
  rw [length, List.range_add, List.filter_append, List.filter_append, none, none',
    List.range_succ_eq_map, List.map_cons, List.map_map, Nat.add_zero, List.nil_append, List.nil_append,
    List.filter_cons, List.filter_cons, here, here']
  simp only [Bool.not_false, ↓reduceIte, Bool.not_true, Bool.false_eq_true, List.cons.injEq, true_and]
  apply List.filter_congr
  intro b member
  obtain ⟨j, low, rfl⟩ := List.mem_map.mp member
  simp only [Function.comp, Nat.succ_eq_add_one]
  rw [above j (List.mem_range.mp low)]

/-- A sorted list of the free blocks below a bound is what comes first. -/
theorem freeBlocks_take {sb : Superblock} {blocks : Nat → Block} {bound : Nat} (inside : bound ≤ sb.size)
    {list : List Nat} (sorted : list.Pairwise (· < ·))
    (members : ∀ b, b ∈ list ↔ b < bound ∧ ¬Used sb blocks b) :
    (freeBlocks sb blocks).take list.length = list := by
  obtain ⟨rest, length⟩ : ∃ rest, sb.size = bound + rest := ⟨sb.size - bound, by omega⟩
  have head : ((List.range bound).filter fun b => !(blocks (BBLOCK b sb)).bit (b % BPB)) = list := by
    apply List.Pairwise.eq_of_mem_iff (List.pairwise_lt_range.filter _) sorted
    intro b
    rw [members b, List.mem_filter, List.mem_range, Used, Bool.not_eq_true', Bool.not_eq_true]
  rw [freeBlocks, length, List.range_add, List.filter_append, head, List.take_left]

/-- `balloc` takes the first free block, or panics when there is none. -/
theorem balloc_first {sb : Superblock} {s : Store} :
    wp (Store.handler (recording false)) (balloc sb)
      (fun c t => FirstFree sb s.blocks c ∧ t = allocated sb s c)
      (fun reason => outOfBlocks reason ∧ freeBlocks sb s.blocks = []) s := by
  refine wp_mono (ballocFrom_spec (settled_unchecked s) 0 _ rfl) ?_ ?_
  · intro c t after
    obtain ⟨small, free, least, same⟩ := after
    exact ⟨⟨small, free, fun a low => least a (Nat.zero_le a) low⟩, same⟩
  · intro reason after
    obtain ⟨stopped, full⟩ := after
    refine ⟨stopped, ?_⟩
    have enough : sb.size ≤ 0 + (sb.size / BPB + 1) * BPB := by
      simp only [BPB, BSIZE]
      omega
    apply List.eq_nil_iff_forall_not_mem.mpr
    intro b member
    obtain ⟨small, free⟩ := mem_freeBlocks.mp member
    exact free (full enough b (Nat.zero_le b) small)

/-! ## Places -/

/-- A place in the block tree of one inode. -/
abbrev TreePlace : Type := Slot × List Nat

/-- The place of a path and the places above it. -/
def pathPlaces (i : Slot) : List Nat → Finset TreePlace
  | [] => {(i, [])}
  | j :: up => pathPlaces i up ∪ {(i, j :: up)}

/-- They are the tails of the path. -/
theorem mem_pathPlaces {i : Slot} {path : List Nat} {place : TreePlace} :
    place ∈ pathPlaces i path ↔ place.1 = i ∧ place.2 <:+ path := by
  induction path with
  | nil => simp [pathPlaces, Prod.ext_iff]
  | cons j up ih =>
    rw [pathPlaces, Finset.mem_union, ih, Finset.mem_singleton, List.suffix_cons_iff, Prod.ext_iff]
    constructor
    · intro member
      rcases member with ⟨slot, above⟩ | ⟨slot, here⟩
      · exact ⟨slot, .inr above⟩
      · exact ⟨slot, .inl here⟩
    · intro member
      obtain ⟨slot, here | above⟩ := member
      · exact .inr ⟨slot, here⟩
      · exact .inl ⟨slot, above⟩

namespace FsState

/-- The address at a place of an inode. -/
abbrev placed (s : FsState ι) (k : ι) (place : TreePlace) : Nat := s.forest.address (k, place.1) place.2

/-- The places that hold no address. -/
def vacant (s : FsState ι) (k : ι) (places : Finset TreePlace) : Finset TreePlace :=
  places.filter fun place => s.placed k place = 0

/-- Membership in the vacant places. -/
theorem mem_vacant {s : FsState ι} {k : ι} {places : Finset TreePlace} {place : TreePlace} :
    place ∈ s.vacant k places ↔ place ∈ places ∧ s.placed k place = 0 := Finset.mem_filter

end FsState

/-- There are fewer free blocks than vacant places. -/
def Short (sb : Superblock) (s : FsState ι) (k : ι) (places : Finset TreePlace) : Prop :=
  (freeBlocks sb s.store.blocks).length < (s.vacant k places).card

/-- More places are short as well. -/
theorem Short.mono {sb : Superblock} {s : FsState ι} {k : ι} {places places' : Finset TreePlace}
    (short : Short sb s k places) (wider : places ⊆ places') : Short sb s k places' :=
  Nat.lt_of_lt_of_le short (Finset.card_le_card (Finset.filter_subset_filter _ wider))

/-! ## Filling places -/

/-- From `s` to `t` the vacant ones of `places` got the blocks `new`, which were the first free
blocks, and these, their free map blocks and the blocks at the places `extra` were recorded. -/
structure Filling (sb : Superblock) (nmeta : Nat) (k : ι) (s t : FsState ι) (places extra : Finset TreePlace)
    (new : List Nat) : Prop where
  owned : Owned sb nmeta t.inodes t.store.blocks
  /-- An address once there stays. -/
  kept : ∀ r p, InTree r p → s.forest.address r p ≠ 0 → t.forest.address r p = s.forest.address r p
  /-- Addresses appear at the given places only. -/
  others : ∀ r p, InTree r p → ¬(r.1 = k ∧ (r.2, p) ∈ places) →
    t.forest.address r p = s.forest.address r p
  /-- The places are in the tree and hold addresses. -/
  filled : ∀ place ∈ places ∪ extra, InTree (k, place.1) place.2 ∧ t.placed k place ≠ 0
  /-- The new blocks were the first free ones. -/
  first : freeBlocks sb s.store.blocks = new ++ freeBlocks sb t.store.blocks
  /-- They are at the places that were vacant. -/
  fresh : new.toFinset = (s.vacant k places).image (t.placed k)
  /-- The block numbers that were recorded. -/
  recorded : ∃ added, t.store.recorded = s.store.recorded ++ added ∧
    added.toFinset = new.toFinset ∪ new.toFinset.image (BBLOCK · sb) ∪ extra.image (t.placed k)
  /-- Only the addresses of an inode change. -/
  inode : ∀ k', t.inodes k' = { s.inodes k' with addrs := (t.inodes k').addrs }

section Composition

variable {sb : Superblock} {nmeta : Nat} {k : ι} {s t u : FsState ι} {places places' extra extra' : Finset TreePlace}
  {new new' : List Nat}

namespace Filling

/-- Filling nothing. -/
theorem refl (owned : Owned sb nmeta s.inodes s.store.blocks)
    (filled : ∀ place ∈ places, InTree (k, place.1) place.2 ∧ s.placed k place ≠ 0) :
    Filling sb nmeta k s s places ∅ [] where
  owned := owned
  kept _ _ _ _ := rfl
  others _ _ _ _ := rfl
  filled place member := filled place (by rwa [Finset.union_empty] at member)
  first := rfl
  fresh := by
    have none : s.vacant k places = ∅ :=
      Finset.filter_eq_empty_iff.mpr fun _ member vacant => (filled _ member).2 vacant
    rw [none, Finset.image_empty, List.toFinset_nil]
  recorded := ⟨[], (List.append_nil _).symm, by simp⟩
  inode _ := rfl

/-- A place filled before is as it was. -/
theorem placed_kept (fills : Filling sb nmeta k s t places extra new) {place : TreePlace}
    (inside : InTree (k, place.1) place.2) (occupied : s.placed k place ≠ 0) :
    t.placed k place = s.placed k place :=
  fills.kept _ _ inside occupied

/-- The vacant ones of two sets of places: those of the first before, and those of the second after
the first was filled. -/
theorem mem_vacant_union (fills : Filling sb nmeta k s t places extra new)
    (inside : ∀ place ∈ places', InTree (k, place.1) place.2) {place : TreePlace} :
    place ∈ s.vacant k (places ∪ places') ↔ place ∈ s.vacant k places ∨ place ∈ t.vacant k places' := by
  simp only [FsState.mem_vacant, Finset.mem_union]
  constructor
  · intro both
    obtain ⟨member, vacant⟩ := both
    by_cases first : place ∈ places
    · exact .inl ⟨first, vacant⟩
    · have second := member.resolve_left first
      have same := fills.others _ _ (inside place second) fun both => first both.2
      exact .inr ⟨second, same.trans vacant⟩
  · intro either
    rcases either with ⟨member, vacant⟩ | ⟨member, vacant⟩
    · exact ⟨.inl member, vacant⟩
    · refine ⟨.inr member, ?_⟩
      by_contra occupied
      have same := fills.placed_kept (inside place member) occupied
      exact occupied (same.symm.trans vacant)

/-- Both kinds of vacant places are apart. -/
theorem vacant_disjoint (fills : Filling sb nmeta k s t places extra new) :
    Disjoint (s.vacant k places) (t.vacant k places') := by
  rw [Finset.disjoint_left]
  intro place first second
  have member := (FsState.mem_vacant.mp first).1
  exact (fills.filled place (Finset.mem_union_left _ member)).2 (FsState.mem_vacant.mp second).2

/-- Their numbers add up. -/
theorem card_vacant_union (fills : Filling sb nmeta k s t places extra new)
    (inside : ∀ place ∈ places', InTree (k, place.1) place.2) :
    (s.vacant k (places ∪ places')).card = (s.vacant k places).card + (t.vacant k places').card := by
  have split : s.vacant k (places ∪ places') = s.vacant k places ∪ t.vacant k places' := by
    ext place
    rw [fills.mem_vacant_union inside, Finset.mem_union]
  rw [split, Finset.card_union_of_disjoint fills.vacant_disjoint]

/-- Different filled places hold different blocks. -/
theorem placed_injOn (fills : Filling sb nmeta k s t places extra new) :
    Set.InjOn (t.placed k) (places ∪ extra : Finset TreePlace) := by
  intro place member place' member' same
  have here := fills.filled place member
  have there := fills.filled place' member'
  have equal := fills.owned.exclusive _ _ _ _ here.1 there.1 here.2 same
  exact Prod.ext (congrArg Prod.snd equal.1) equal.2

/-- No new block is counted twice. -/
theorem new_nodup (fills : Filling sb nmeta k s t places extra new) : new.Nodup := by
  have all := freeBlocks_nodup sb s.store.blocks
  rw [fills.first] at all
  exact (List.nodup_append.mp all).1

/-- There are as many new blocks as there were vacant places. -/
theorem new_length (fills : Filling sb nmeta k s t places extra new) :
    new.length = (s.vacant k places).card := by
  have injective : Set.InjOn (t.placed k) (s.vacant k places) := by
    refine fills.placed_injOn.mono ?_
    intro place member
    exact Finset.mem_union_left _ (FsState.mem_vacant.mp member).1
  rw [← List.toFinset_card_of_nodup fills.new_nodup, fills.fresh, Finset.card_image_of_injOn injective]

/-- So they are determined by what was free and what was vacant. -/
theorem new_eq (fills : Filling sb nmeta k s t places extra new) :
    new = (freeBlocks sb s.store.blocks).take (s.vacant k places).card := by
  rw [fills.first]
  exact (List.take_left' fills.new_length).symm

/-- What the second part is short of, both are short of. -/
theorem short (fills : Filling sb nmeta k s t places extra new)
    (inside : ∀ place ∈ places', InTree (k, place.1) place.2) (short : Short sb t k places') :
    Short sb s k (places ∪ places') := by
  have length := fills.new_length
  unfold Short at short ⊢
  rw [fills.card_vacant_union inside, fills.first, List.length_append]
  omega

/-- Filling one set of places after the other. -/
theorem trans (first : Filling sb nmeta k s t places extra new)
    (second : Filling sb nmeta k t u places' extra' new') :
    Filling sb nmeta k s u (places ∪ places') (extra ∪ extra') (new ++ new') := by
  have inside : ∀ place ∈ places', InTree (k, place.1) place.2 := fun place member =>
    (second.filled place (Finset.mem_union_left _ member)).1
  have before : ∀ place ∈ places ∪ extra, u.placed k place = t.placed k place := fun place member =>
    second.placed_kept (first.filled place member).1 (first.filled place member).2
  have vacant_before : (s.vacant k places).image (t.placed k) = (s.vacant k places).image (u.placed k) := by
    apply Finset.image_congr
    intro place member
    exact (before place (Finset.mem_union_left _ (FsState.mem_vacant.mp member).1)).symm
  have extra_before : extra.image (t.placed k) = extra.image (u.placed k) := by
    apply Finset.image_congr
    intro place member
    exact (before place (Finset.mem_union_right _ member)).symm
  constructor
  · exact second.owned
  · intro r p place occupied
    have once := first.kept r p place occupied
    rw [second.kept r p place (by rw [once]; exact occupied), once]
  · intro r p place outside
    rw [second.others r p place fun both => outside ⟨both.1, Finset.mem_union_right _ both.2⟩,
      first.others r p place fun both => outside ⟨both.1, Finset.mem_union_left _ both.2⟩]
  · intro place member
    by_cases early : place ∈ places ∪ extra
    · rw [before place early]
      exact first.filled place early
    · apply second.filled place
      simp only [Finset.mem_union] at member early ⊢
      tauto
  · rw [first.first, second.first, List.append_assoc]
  · rw [List.toFinset_append, first.fresh, second.fresh, vacant_before, ← Finset.image_union]
    congr 1
    ext place
    rw [Finset.mem_union, first.mem_vacant_union inside]
  · obtain ⟨added, once, blocks⟩ := first.recorded
    obtain ⟨added', again, blocks'⟩ := second.recorded
    refine ⟨added ++ added', by rw [again, once, List.append_assoc], ?_⟩
    rw [List.toFinset_append, List.toFinset_append, blocks, blocks', extra_before, Finset.image_union,
      Finset.image_union]
    ext b
    simp only [Finset.mem_union]
    tauto
  · intro k'
    rw [second.inode k', first.inode k']

end Filling

end Composition

/-! ## One level -/

section Level

variable {sb : Superblock} {nmeta : Nat} {k : ι} {s t : FsState ι}

/-- The slot level leaves the store alone or takes the first free block. -/
theorem loadSlot_first {store : Store} {ip : Inode} {i : Slot} :
    wp (Store.handler (recording false)) (loadSlot sb ip i)
      (fun result after =>
        if ip.addrs i = 0 then FirstFree sb store.blocks result.2 ∧ after = allocated sb store result.2
        else result = (ip, ip.addrs i) ∧ after = store)
      (fun reason => outOfBlocks reason ∧ ip.addrs i = 0 ∧ freeBlocks sb store.blocks = []) store := by
  rw [loadSlot]
  by_cases vacant : ip.addrs i = 0
  · rw [if_pos vacant, wp_bind]
    refine wp_mono balloc_first ?_ ?_
    · intro c after taken
      rw [wp_pure, if_pos vacant]
      exact taken
    · exact fun reason none => ⟨none.1, vacant, none.2⟩
  · rw [if_neg vacant, wp_pure, if_neg vacant]
    exact ⟨rfl, rfl⟩

/-- The store after an index block got the block that `balloc` returned. -/
def entered (sb : Superblock) (logged : Bool) (store : Store) (addr j c : Nat) : Store :=
  let stored := (allocated sb store c).modified addr (Block.setWord · j c)
  if logged then stored.record addr else stored

/-- An index block level leaves the store alone or takes the first free block. -/
theorem loadEntry_first {store : Store} {logged : Bool} {addr j : Nat} :
    wp (Store.handler (recording false)) (loadEntry sb logged addr j)
      (fun c after =>
        if (store.blocks addr).word j = 0 then
          FirstFree sb store.blocks c ∧ after = entered sb logged store addr j c
        else after = store)
      (fun reason => outOfBlocks reason ∧ (store.blocks addr).word j = 0 ∧ freeBlocks sb store.blocks = [])
      store := by
  rw [loadEntry, Store.wp_bread]
  by_cases vacant : (store.blocks addr).word j = 0
  · rw [if_pos vacant, wp_bind]
    refine wp_mono balloc_first ?_ ?_
    · intro c after taken
      obtain ⟨first, rfl⟩ := taken
      cases logged with
      | true =>
        simp only [Store.wp_modify, ↓reduceIte, Store.wp_logWrite_recording]
        rw [Store.wp_brelse (.inl rfl), wp_pure, if_pos vacant]
        exact ⟨first, rfl⟩
      | false =>
        simp only [Store.wp_modify, Bool.false_eq_true, ↓reduceIte]
        rw [Store.wp_brelse (.inl rfl), wp_pure, if_pos vacant]
        exact ⟨first, rfl⟩
    · exact fun reason none => ⟨none.1, vacant, none.2⟩
  · rw [if_neg vacant, Store.wp_brelse (.inl rfl), wp_pure, if_neg vacant]

/-- Growth at one vacant place by the first free block fills this place. -/
theorem Grows.filling (layout : Layout sb nmeta) (owned : Owned sb nmeta s.inodes s.store.blocks)
    {i : Slot} {path : List Nat} (grows : Grows sb nmeta false (fun r p => r = (k, i) ∧ p = path) s t)
    (inside : InTree (k, i) path) (vacant : s.placed k (i, path) = 0) {c : Nat}
    (address : t.placed k (i, path) = c) (first : FirstFree sb s.store.blocks c)
    (maps : ∀ b, b < sb.size →
      t.store.blocks (BBLOCK b sb) = (allocated sb s.store c).blocks (BBLOCK b sb))
    {marks : Finset TreePlace} (marked : ∀ mark ∈ marks, InTree (k, mark.1) mark.2 ∧ t.placed k mark ≠ 0)
    {last : List Nat} (recorded : t.store.recorded = s.store.recorded ++ (BBLOCK c sb :: c :: last))
    (marks_last : last.toFinset = marks.image (t.placed k)) :
    Filling sb nmeta k s t {(i, path)} marks [c] := by
  have high := (free_block owned first.1 first.2.1).1
  have positive := layout.nmeta_pos
  constructor
  · exact grows.owned
  · exact grows.kept
  · intro r p spot outside
    apply grows.others r p spot
    intro here
    obtain ⟨root, here⟩ := here
    apply outside
    rw [root, here, Finset.mem_singleton]
    exact ⟨rfl, rfl⟩
  · intro spot member
    rw [Finset.mem_union, Finset.mem_singleton] at member
    rcases member with rfl | mark
    · have occupied : t.placed k (i, path) ≠ 0 := by
        rw [address]
        omega
      exact ⟨inside, occupied⟩
    · exact marked spot mark
  · apply freeBlocks_taken first
    intro b small
    have low := layout.bblock_lt small
    rw [← allocated_used (show BBLOCK b sb ≠ c by omega), Used, Used, maps b small]
  · have all : s.vacant k {(i, path)} = {(i, path)} := by
      apply Finset.filter_true_of_mem
      intro spot member
      rw [Finset.mem_singleton.mp member]
      exact vacant
    rw [all, Finset.image_singleton, address]
    rfl
  · refine ⟨BBLOCK c sb :: c :: last, recorded, ?_⟩
    rw [List.toFinset_cons, List.toFinset_cons, marks_last]
    ext b
    simp only [Finset.mem_insert, Finset.mem_union, List.toFinset_cons, List.toFinset_nil,
      insert_empty_eq, Finset.image_singleton, Finset.mem_singleton]
    tauto
  · exact grows.inode

/-- A vacant place is short of blocks when none is free. -/
theorem short_of_none {place : TreePlace} (vacant : s.placed k place = 0)
    (none : freeBlocks sb s.store.blocks = []) : Short sb s k {place} := by
  have all : s.vacant k {place} = {place} := by
    apply Finset.filter_true_of_mem
    intro spot member
    rw [Finset.mem_singleton.mp member]
    exact vacant
  rw [Short, all, none, Finset.card_singleton]
  exact Nat.zero_lt_one

/-- The slot level fills its place. -/
theorem loadSlot_fills [DecidableEq ι] (layout : Layout sb nmeta)
    (owned : Owned sb nmeta s.inodes s.store.blocks) (k : ι) (i : Slot) :
    wp (Store.handler (recording false)) (loadSlot sb (s.inodes k) i)
      (fun result store =>
        let t : FsState ι := ⟨Function.update s.inodes k result.1, store⟩
        (∃ new, Filling sb nmeta k s t {(i, [])} ∅ new) ∧ result.2 = t.placed k (i, []))
      (fun reason => outOfBlocks reason ∧ Short sb s k {(i, [])}) s.store := by
  have inside : InTree (k, i) [] := ⟨Nat.zero_le _, fun _ member => absurd member List.not_mem_nil⟩
  refine wp_mono (wp_and (loadSlot_spec layout owned (settled_unchecked _) k i) loadSlot_first) ?_ ?_
  · intro result store after
    obtain ⟨⟨grows, address, occupied⟩, taken⟩ := after
    refine ⟨?_, address⟩
    by_cases vacant : (s.inodes k).addrs i = 0
    · rw [if_pos vacant] at taken
      obtain ⟨first, same⟩ := taken
      have recorded : store.recorded = s.store.recorded ++ (BBLOCK result.2 sb :: result.2 :: []) := by
        rw [same, allocated_recorded]
      have fill : Filling sb nmeta k s ⟨Function.update s.inodes k result.1, store⟩ {(i, [])} ∅ [result.2] := by
        apply Grows.filling layout owned grows inside vacant address.symm first
        · intro b _
          show store.blocks _ = _
          rw [same]
        · exact fun mark none => absurd none (Finset.notMem_empty _)
        · exact recorded
        · rfl
      exact ⟨[result.2], fill⟩
    · rw [if_neg vacant] at taken
      obtain ⟨rfl, rfl⟩ := taken
      simp only [Function.update_eq_self]
      refine ⟨[], Filling.refl owned ?_⟩
      intro place member
      rw [Finset.mem_singleton.mp member]
      exact ⟨inside, vacant⟩
  · intro reason none
    obtain ⟨-, stopped, vacant, empty⟩ := none
    exact ⟨stopped, short_of_none vacant empty⟩

/-- The places that an index block level records beside a new block: the index block above, where
the level calls `log_write`. -/
def marked (s : FsState ι) (k : ι) (logged : Bool) (i : Slot) (j : Nat) (up : List Nat) : Finset TreePlace :=
  if logged = true ∧ s.placed k (i, j :: up) = 0 then {(i, up)} else ∅

/-- An index block level fills its place. -/
theorem loadEntry_fills (layout : Layout sb nmeta) (owned : Owned sb nmeta s.inodes s.store.blocks)
    (logged : Bool) {i : Slot} {j : Nat} {up : List Nat} (place : InTree (k, i) (j :: up))
    (attached : s.placed k (i, up) ≠ 0) :
    wp (Store.handler (recording false)) (loadEntry sb logged (s.placed k (i, up)) j)
      (fun c store =>
        (∃ new, Filling sb nmeta k s ⟨s.inodes, store⟩ {(i, j :: up)} (marked s k logged i j up) new) ∧
          c = FsState.placed ⟨s.inodes, store⟩ k (i, j :: up))
      (fun reason => outOfBlocks reason ∧ Short sb s k {(i, j :: up)}) s.store := by
  have below : s.placed k (i, j :: up) = (s.store.blocks (s.placed k (i, up))).word j :=
    Forest.address_below attached j
  have spec := loadEntry_spec layout owned (settled_unchecked _) logged place attached
    fun checked => absurd checked Bool.false_ne_true
  refine wp_mono (wp_and spec loadEntry_first) ?_ ?_
  · intro c store after
    obtain ⟨⟨grows, address, occupied⟩, taken⟩ := after
    refine ⟨?_, address⟩
    by_cases vacant : (s.store.blocks (s.placed k (i, up))).word j = 0
    · rw [if_pos vacant] at taken
      obtain ⟨first, same⟩ := taken
      have empty : s.placed k (i, j :: up) = 0 := below.trans vacant
      have maps : ∀ b, b < sb.size →
          store.blocks (BBLOCK b sb) = (allocated sb s.store c).blocks (BBLOCK b sb) := by
        intro b small
        have other : BBLOCK b sb ≠ s.placed k (i, up) :=
          (address_ne_bblock layout owned (inTree_up place) attached small).symm
        rw [same]
        cases logged with
        | true => exact Function.update_of_ne other _ _
        | false => exact Function.update_of_ne other _ _
      have above : FsState.placed ⟨s.inodes, store⟩ k (i, up) = s.placed k (i, up) :=
        grows.kept (k, i) up (inTree_up place) attached
      refine ⟨[c], ?_⟩
      cases logged with
      | true =>
        have recorded : store.recorded =
            s.store.recorded ++ (BBLOCK c sb :: c :: [s.placed k (i, up)]) := by
          rw [same]
          show (allocated sb s.store c).recorded ++ [s.placed k (i, up)] = _
          rw [allocated_recorded, List.append_assoc]
          rfl
        have marks : marked s k true i j up = {(i, up)} := if_pos ⟨rfl, empty⟩
        rw [marks]
        apply Grows.filling layout owned grows place empty address.symm first maps
        · intro mark member
          rw [Finset.mem_singleton.mp member]
          exact ⟨inTree_up place, by rw [above]; exact attached⟩
        · exact recorded
        · rw [Finset.image_singleton, above]
          rfl
      | false =>
        have recorded : store.recorded = s.store.recorded ++ (BBLOCK c sb :: c :: []) := by
          rw [same]
          exact allocated_recorded sb s.store c
        have marks : marked s k false i j up = ∅ := if_neg fun both => Bool.false_ne_true both.1
        rw [marks]
        apply Grows.filling layout owned grows place empty address.symm first maps
        · exact fun mark none => absurd none (Finset.notMem_empty _)
        · exact recorded
        · rfl
    · rw [if_neg vacant] at taken
      subst taken
      have held : s.placed k (i, j :: up) ≠ 0 := by
        rw [below]
        exact vacant
      have marks : marked s k logged i j up = ∅ := if_neg fun both => held both.2
      rw [marks]
      refine ⟨[], Filling.refl owned ?_⟩
      intro spot member
      rw [Finset.mem_singleton.mp member]
      exact ⟨place, held⟩
  · intro reason none
    obtain ⟨-, stopped, vacant, empty⟩ := none
    exact ⟨stopped, short_of_none (below.trans vacant) empty⟩

/-- Recording a data block, with any store into it, fills nothing. -/
theorem Filling.touch (layout : Layout sb nmeta) (owned : Owned sb nmeta s.inodes s.store.blocks) {bn : Nat}
    (inside : bn < MAXFILE) (occupied : s.mapped k bn ≠ 0) {store : Store}
    (recorded : store.recorded = s.store.recorded ++ [s.mapped k bn])
    (blocks : ∀ b, b ≠ s.mapped k bn → store.blocks b = s.store.blocks b) :
    Filling sb nmeta k s ⟨s.inodes, store⟩ ∅ {position bn} [] := by
  have place := position_inTree k inside
  have maps : ∀ b, b < sb.size → store.blocks (BBLOCK b sb) = s.store.blocks (BBLOCK b sb) :=
    fun b small => blocks _ (address_ne_bblock layout owned place.1 occupied small).symm
  have index : ∀ (r : ι × Slot) j up, InTree r (j :: up) → s.forest.address r up ≠ 0 →
      store.blocks (s.forest.address r up) = s.store.blocks (s.forest.address r up) :=
    fun r j up below _ => blocks _ (owned.mapping_ne_index inside occupied below).symm
  have same : ∀ r p, InTree r p →
      (blockForest s.inodes store.blocks).address r p = s.forest.address r p :=
    Owned.address_frame (fun _ => rfl) index
  constructor
  · exact owned.frame (fun _ => rfl) maps index
  · exact fun r p here _ => same r p here
  · exact fun r p here _ => same r p here
  · intro spot member
    rw [Finset.empty_union] at member
    rw [Finset.mem_singleton.mp member]
    refine ⟨place.1, ?_⟩
    show (blockForest s.inodes store.blocks).address (k, (position bn).1) (position bn).2 ≠ 0
    rw [same _ _ place.1]
    exact occupied
  · rw [List.nil_append]
    refine (freeBlocks_congr ?_).symm
    intro b small
    rw [Used, Used, maps b small]
  · rfl
  · refine ⟨[s.mapped k bn], recorded, ?_⟩
    have here : FsState.placed ⟨s.inodes, store⟩ k (position bn) = s.mapped k bn := same _ _ place.1
    rw [Finset.image_singleton, here]
    rfl
  · exact fun _ => rfl

end Level

/-! ## The block map -/

section Ranges

variable {sb : Superblock} {nmeta : Nat} {k : ι} {s t : FsState ι} {i : Slot} {path : List Nat}

/-- From `s` to `t` the places of a path down to `up` were filled, the blocks at `extra` were recorded
beside the new ones, and `addr` is the address at `up`. -/
def FilledTo (sb : Superblock) (nmeta : Nat) (k : ι) (s t : FsState ι) (i : Slot) (up : List Nat)
    (extra : Finset TreePlace) (addr : Nat) : Prop :=
  (∃ new, Filling sb nmeta k s t (pathPlaces i up) extra new) ∧ addr = t.placed k (i, up)

/-- `balloc` panicked, and there are fewer free blocks than vacant places on the path. -/
def PanicsShort (sb : Superblock) (s : FsState ι) (k : ι) (i : Slot) (path : List Nat) (reason : Stop) : Prop :=
  outOfBlocks reason ∧ Short sb s k (pathPlaces i path)

/-- The places of a path are in the tree when its end is. -/
theorem pathPlaces_inTree (place : InTree (k, i) path) : ∀ spot ∈ pathPlaces i path, InTree (k, spot.1) spot.2 := by
  intro spot member
  obtain ⟨slot, above⟩ := mem_pathPlaces.mp member
  rw [slot]
  exact inTree_suffix above place

/-- The end of a path is one of its places. -/
theorem mem_pathPlaces_self (i : Slot) (path : List Nat) : (i, path) ∈ pathPlaces i path :=
  mem_pathPlaces.mpr ⟨rfl, List.suffix_refl _⟩

/-- The slot of a path. -/
theorem slot_filledTo [DecidableEq ι] (layout : Layout sb nmeta)
    (owned : Owned sb nmeta s.inodes s.store.blocks) (k : ι) (i : Slot) (path : List Nat) :
    wp (Store.handler (recording false)) (loadSlot sb (s.inodes k) i)
      (fun result store =>
        FilledTo sb nmeta k s ⟨Function.update s.inodes k result.1, store⟩ i [] ∅ result.2)
      (PanicsShort sb s k i path) s.store := by
  refine wp_mono (loadSlot_fills layout owned k i) (fun _ _ after => after) ?_
  intro reason none
  refine ⟨none.1, none.2.mono ?_⟩
  intro place member
  rw [Finset.mem_singleton.mp member]
  exact mem_pathPlaces.mpr ⟨rfl, List.nil_suffix⟩

/-- The next entry of a path. -/
theorem entry_filledTo (layout : Layout sb nmeta) (logged : Bool) {up : List Nat} {j addr : Nat}
    {extra : Finset TreePlace} (before : FilledTo sb nmeta k s t i up extra addr)
    (place : InTree (k, i) path) (above : j :: up <:+ path) :
    wp (Store.handler (recording false)) (loadEntry sb logged addr j)
      (fun c store =>
        FilledTo sb nmeta k s ⟨t.inodes, store⟩ i (j :: up) (extra ∪ marked t k logged i j up) c)
      (PanicsShort sb s k i path) t.store := by
  obtain ⟨⟨new, fills⟩, rfl⟩ := before
  have below := inTree_suffix above place
  have attached := (fills.filled (i, up) (Finset.mem_union_left _ (mem_pathPlaces_self i up))).2
  refine wp_mono (loadEntry_fills layout fills.owned logged below attached) ?_ ?_
  · intro c store after
    obtain ⟨⟨new', more⟩, address⟩ := after
    exact ⟨⟨new ++ new', fills.trans more⟩, address⟩
  · intro reason none
    refine ⟨none.1, (fills.short ?_ none.2).mono ?_⟩
    · intro spot member
      rw [Finset.mem_singleton.mp member]
      exact below
    · intro spot member
      rw [mem_pathPlaces]
      have inside : spot ∈ pathPlaces i (j :: up) := member
      obtain ⟨slot, tail⟩ := mem_pathPlaces.mp inside
      exact ⟨slot, tail.trans above⟩

/-- The data block at the end of the path of a block number. -/
theorem touch_filledTo (layout : Layout sb nmeta) {bn addr : Nat} (inside : bn < MAXFILE)
    (here : position bn = (i, path)) {extra : Finset TreePlace} (before : FilledTo sb nmeta k s t i path extra addr)
    {store : Store} (recorded : store.recorded = t.store.recorded ++ [addr])
    (blocks : ∀ b, b ≠ addr → store.blocks b = t.store.blocks b) :
    FilledTo sb nmeta k s ⟨t.inodes, store⟩ i path (extra ∪ {(i, path)}) addr := by
  obtain ⟨⟨new, fills⟩, address⟩ := before
  have occupied := (fills.filled _ (Finset.mem_union_left _ (mem_pathPlaces_self i path))).2
  have place := (position_inTree k inside).1
  have mapped : t.mapped k bn = t.placed k (i, path) := by
    rw [FsState.mapped, mapping, here]
  rw [address, ← mapped] at recorded blocks
  have touch := Filling.touch layout fills.owned inside (by rw [mapped]; exact occupied) recorded blocks
  rw [here] at touch place
  have both := fills.trans touch
  rw [Finset.union_empty, List.append_nil] at both
  exact ⟨⟨new, both⟩, address.trans (touch.placed_kept place occupied).symm⟩

/-- The final `log_write` of the doubly and triply indirect ranges. -/
theorem touchData_filledTo (layout : Layout sb nmeta) {bn addr : Nat} (inside : bn < MAXFILE)
    (here : position bn = (i, path)) {extra : Finset TreePlace} (before : FilledTo sb nmeta k s t i path extra addr) :
    wp (Store.handler (recording false)) (touchData addr)
      (fun _ store => FilledTo sb nmeta k s ⟨t.inodes, store⟩ i path (extra ∪ {(i, path)}) addr)
      (fun _ => False) t.store := by
  rw [touchData, Store.wp_bread, Store.wp_logWrite_recording, Store.wp_brelse_last (.inl rfl)]
  exact touch_filledTo layout inside here before rfl fun _ _ => rfl

/-- A level that does not call `log_write` records new blocks only. -/
theorem marked_unlogged (s : FsState ι) (k : ι) (i : Slot) (j : Nat) (up : List Nat) :
    marked s k false i j up = ∅ := if_neg fun both => Bool.false_ne_true both.1

/-- The single indirect range. -/
theorem bmapSingle_filledTo [DecidableEq ι] (layout : Layout sb nmeta)
    (owned : Owned sb nmeta s.inodes s.store.blocks) (k : ι) {b : Nat} (place : InTree (k, slotSingle) [b]) :
    wp (Store.handler (recording false)) (bmapSingle sb (s.inodes k) b)
      (fun result store => FilledTo sb nmeta k s ⟨Function.update s.inodes k result.1, store⟩ slotSingle [b]
        (marked s k true slotSingle b []) result.2)
      (PanicsShort sb s k slotSingle [b]) s.store := by
  rw [bmapSingle, wp_bind]
  refine wp_mono (slot_filledTo layout owned k slotSingle [b]) ?_ fun _ none => none
  rintro ⟨ip, top⟩ store₀ after₀
  rw [wp_bind]
  have level := entry_filledTo layout true after₀ place (List.suffix_refl _)
  refine wp_mono level ?_ fun _ none => none
  intro addr store₁ after₁
  -- the slot level leaves the entry as it was
  obtain ⟨new, fills⟩ := after₀.1
  have entry : FsState.placed ⟨Function.update s.inodes k ip, store₀⟩ k (slotSingle, [b]) =
      s.placed k (slotSingle, [b]) := by
    apply fills.others (k, slotSingle) [b] place
    intro both
    have above := (mem_pathPlaces.mp both.2).2.length_le
    simp at above
  have same : marked ⟨Function.update s.inodes k ip, store₀⟩ k true slotSingle b [] =
      marked s k true slotSingle b [] := by
    rw [marked, marked, entry]
  rw [Finset.empty_union, same] at after₁
  rw [wp_pure]
  exact after₁

/-- The doubly indirect range. -/
theorem bmapDouble_filledTo [DecidableEq ι] (layout : Layout sb nmeta)
    (owned : Owned sb nmeta s.inodes s.store.blocks) (k : ι) {bn b : Nat} (inside : bn < MAXFILE)
    (here : position bn = (slotDouble, doublePath b)) (place : InTree (k, slotDouble) (doublePath b)) :
    wp (Store.handler (recording false)) (bmapDouble sb (s.inodes k) b)
      (fun result store => FilledTo sb nmeta k s ⟨Function.update s.inodes k result.1, store⟩ slotDouble
        (doublePath b) {(slotDouble, doublePath b)} result.2)
      (PanicsShort sb s k slotDouble (doublePath b)) s.store := by
  rw [bmapDouble, wp_bind]
  refine wp_mono (slot_filledTo layout owned k slotDouble (doublePath b)) ?_ fun _ none => none
  rintro ⟨ip, top⟩ store₀ after₀
  rw [wp_bind]
  have level := entry_filledTo layout false after₀ place ⟨[b % NINDIRECT], rfl⟩
  refine wp_mono level ?_ fun _ none => none
  intro first store₁ after₁
  rw [wp_bind]
  have level := entry_filledTo layout false after₁ place (List.suffix_refl _)
  refine wp_mono level ?_ fun _ none => none
  intro addr store₂ after₂
  rw [wp_bind]
  have level := touchData_filledTo layout inside here after₂
  refine wp_mono level ?_ fun _ none => none.elim
  intro _ store₃ after₃
  simp only [marked_unlogged, Finset.empty_union] at after₃
  rw [wp_pure]
  exact after₃

/-- The triply indirect range. -/
theorem bmapTriple_filledTo [DecidableEq ι] (layout : Layout sb nmeta)
    (owned : Owned sb nmeta s.inodes s.store.blocks) (k : ι) {bn b : Nat} (inside : bn < MAXFILE)
    (here : position bn = (slotTriple, triplePath b)) (place : InTree (k, slotTriple) (triplePath b)) :
    wp (Store.handler (recording false)) (bmapTriple sb (s.inodes k) b)
      (fun result store => FilledTo sb nmeta k s ⟨Function.update s.inodes k result.1, store⟩ slotTriple
        (triplePath b) {(slotTriple, triplePath b)} result.2)
      (PanicsShort sb s k slotTriple (triplePath b)) s.store := by
  rw [bmapTriple, wp_bind]
  refine wp_mono (slot_filledTo layout owned k slotTriple (triplePath b)) ?_ fun _ none => none
  rintro ⟨ip, top⟩ store₀ after₀
  rw [wp_bind]
  have level := entry_filledTo layout false after₀ place
    ⟨[b % NINDIRECT, b % (NINDIRECT * NINDIRECT) / NINDIRECT], rfl⟩
  refine wp_mono level ?_ fun _ none => none
  intro first store₁ after₁
  rw [wp_bind]
  have level := entry_filledTo layout false after₁ place ⟨[b % NINDIRECT], rfl⟩
  refine wp_mono level ?_ fun _ none => none
  intro second store₂ after₂
  rw [wp_bind]
  have level := entry_filledTo layout false after₂ place (List.suffix_refl _)
  refine wp_mono level ?_ fun _ none => none
  intro addr store₃ after₃
  rw [wp_bind]
  have level := touchData_filledTo layout inside here after₃
  refine wp_mono level ?_ fun _ none => none.elim
  intro _ store₄ after₄
  simp only [marked_unlogged, Finset.empty_union] at after₄
  rw [wp_pure]
  exact after₄

/-- What the writer of a block number records beside new blocks: the data block, and the single
indirect block when it gets an entry. -/
def recordedPlaces (s : FsState ι) (k : ι) (bn : Nat) : Finset TreePlace :=
  {position bn} ∪
    if (position bn).1 = slotSingle ∧ s.placed k (position bn) = 0 then {(slotSingle, [])} else ∅

/-- `bmap` fills the path of the block number, and panics only when it is short of free blocks. -/
theorem bmap_filledTo [DecidableEq ι] (layout : Layout sb nmeta)
    (owned : Owned sb nmeta s.inodes s.store.blocks) (k : ι) {bn : Nat} (inside : bn < MAXFILE) :
    ∃ extra, extra ∪ {position bn} = recordedPlaces s k bn ∧
      wp (Store.handler (recording false)) (bmap sb (s.inodes k) bn)
        (fun result store => FilledTo sb nmeta k s ⟨Function.update s.inodes k result.1, store⟩ (position bn).1
          (position bn).2 extra result.2)
        (PanicsShort sb s k (position bn).1 (position bn).2) s.store := by
  have place := (position_inTree k inside).1
  have unmarked : (position bn).1 ≠ slotSingle → recordedPlaces s k bn = {position bn} := by
    intro other
    rw [recordedPlaces, if_neg fun both => other both.1, Finset.union_empty]
  by_cases direct : bn < NDIRECT
  · have here := position_direct direct
    have other : (position bn).1 ≠ slotSingle := by
      rw [here]
      intro same
      have value := congrArg Fin.val same
      simp only [slotSingle] at value
      omega
    refine ⟨∅, by rw [unmarked other, Finset.empty_union], ?_⟩
    rw [bmap, dif_pos direct, here]
    exact slot_filledTo layout owned k _ _
  · rw [bmap, dif_neg direct]
    by_cases single : bn - NDIRECT < NINDIRECT
    · have here := position_single direct single
      refine ⟨marked s k true slotSingle (bn - NDIRECT) [], ?_, ?_⟩
      · rw [recordedPlaces, here, Finset.union_comm, marked]
        simp only [true_and]
      · rw [here] at place ⊢
        rw [if_pos single]
        exact bmapSingle_filledTo layout owned k place
    · rw [if_neg single]
      by_cases double : bn - NDIRECT - NINDIRECT < NINDIRECT * NINDIRECT
      · have here := position_double direct single double
        have apart : slotDouble ≠ slotSingle := by decide
        have other : (position bn).1 ≠ slotSingle := by
          rw [here]
          exact apart
        refine ⟨{position bn}, by rw [unmarked other, Finset.union_self], ?_⟩
        rw [here] at place ⊢
        rw [if_pos double]
        exact bmapDouble_filledTo layout owned k inside here place
      · have here := position_triple direct single double
        have apart : slotTriple ≠ slotSingle := by decide
        have other : (position bn).1 ≠ slotSingle := by
          rw [here]
          exact apart
        refine ⟨{position bn}, by rw [unmarked other, Finset.union_self], ?_⟩
        rw [here] at place ⊢
        rw [if_neg double, if_pos (triple_range inside)]
        exact bmapTriple_filledTo layout owned k inside here place

end Ranges

/-! ## The copy loop -/

/-- The block numbers that a write of `n` bytes at `off` touches. -/
def touchedBlocks (off n : Nat) : Finset Nat := (Finset.Ico off (off + n)).image (· / BSIZE)

/-- The places on their paths. -/
def touchedPlaces (off n : Nat) : Finset TreePlace :=
  (touchedBlocks off n).biUnion fun bn => pathPlaces (position bn).1 (position bn).2

/-- The places that the write records beside new blocks. -/
def touchedRecords (s : FsState ι) (k : ι) (off n : Nat) : Finset TreePlace :=
  (touchedBlocks off n).biUnion (recordedPlaces s k)

/-- The first part of a write touches one block number. -/
theorem touchedBlocks_first {off n : Nat} (some : 0 < n) :
    touchedBlocks off n = {off / BSIZE} ∪
      touchedBlocks (off + min n (BSIZE - off % BSIZE)) (n - min n (BSIZE - off % BSIZE)) := by
  ext bn
  simp only [touchedBlocks, Finset.mem_union, Finset.mem_singleton, Finset.mem_image, Finset.mem_Ico, BSIZE]
  constructor
  · intro member
    obtain ⟨i, range, rfl⟩ := member
    by_cases early : i < off + min n (512 - off % 512)
    · exact .inl (by omega)
    · exact .inr ⟨i, by omega, rfl⟩
  · intro member
    rcases member with rfl | ⟨i, range, rfl⟩
    · exact ⟨off, by omega, rfl⟩
    · exact ⟨i, by omega, rfl⟩

/-- The other parts touch later ones. -/
theorem touchedBlocks_later {off n bn : Nat}
    (member : bn ∈ touchedBlocks (off + min n (BSIZE - off % BSIZE)) (n - min n (BSIZE - off % BSIZE))) :
    off / BSIZE < bn := by
  simp only [touchedBlocks, Finset.mem_image, Finset.mem_Ico, BSIZE] at member
  obtain ⟨i, range, rfl⟩ := member
  simp only [BSIZE]
  omega

/-- A write within the largest file touches block numbers in range. -/
theorem touchedBlocks_lt {off n bn : Nat} (inside : off + n ≤ MAXFILE * BSIZE)
    (member : bn ∈ touchedBlocks off n) : bn < MAXFILE := by
  simp only [touchedBlocks, Finset.mem_image, Finset.mem_Ico] at member
  obtain ⟨i, range, rfl⟩ := member
  exact Nat.div_lt_of_lt_mul (by rw [Nat.mul_comm]; omega)

/-- The data place of another block number is not on the path. -/
theorem position_off_path {bn bn' : Nat} (inside : bn < MAXFILE) (inside' : bn' < MAXFILE) (other : bn' ≠ bn) :
    position bn' ∉ pathPlaces (position bn).1 (position bn).2 := by
  intro member
  obtain ⟨slot, above⟩ := mem_pathPlaces.mp member
  have full := (position_inTree () inside).2
  have full' := (position_inTree () inside').2
  have path : (position bn').2 = (position bn).2 := by
    apply above.eq_of_length
    rw [full, full', slot]
  exact other (position_injective (Prod.ext slot path))

section Loop

variable {sb : Superblock} {nmeta : Nat} {s t : FsState ι}

/-- Filling one path leaves the data places of the other block numbers, and what they record. -/
theorem Filling.recordedPlaces_eq {k : ι} {bn bn' : Nat} {extra : Finset TreePlace} {new : List Nat}
    (fills : Filling sb nmeta k s t (pathPlaces (position bn).1 (position bn).2) extra new)
    (inside : bn < MAXFILE) (inside' : bn' < MAXFILE) (other : bn' ≠ bn) :
    recordedPlaces t k bn' = recordedPlaces s k bn' := by
  have same : t.placed k (position bn') = s.placed k (position bn') :=
    fills.others _ _ (position_inTree k inside').1 fun both => position_off_path inside inside' other both.2
  rw [recordedPlaces, recordedPlaces, same]

/-- `bmap` and a store into the data block fill the path, and record the places of the block number. -/
theorem FilledTo.stored (layout : Layout sb nmeta) {k : ι} {bn addr : Nat} (inside : bn < MAXFILE)
    {extra : Finset TreePlace} (together : extra ∪ {position bn} = recordedPlaces s k bn)
    (reached : FilledTo sb nmeta k s t (position bn).1 (position bn).2 extra addr) (update : Block → Block) :
    ∃ new, Filling sb nmeta k s ⟨t.inodes, (t.store.modified addr update).record addr⟩
      (pathPlaces (position bn).1 (position bn).2) (recordedPlaces s k bn) new := by
  have here : position bn = ((position bn).1, (position bn).2) := rfl
  have recorded : ((t.store.modified addr update).record addr).recorded = t.store.recorded ++ [addr] := rfl
  have blocks : ∀ b, b ≠ addr → ((t.store.modified addr update).record addr).blocks b = t.store.blocks b :=
    fun b other => Function.update_of_ne other _ _
  have touched := touch_filledTo layout inside here reached recorded blocks
  rw [← here, together] at touched
  exact touched.1

/-- What the later parts of a write record is what they would have recorded at once. -/
theorem Filling.touchedRecords_eq {k : ι} {bn off n : Nat} {extra : Finset TreePlace} {new : List Nat}
    (fills : Filling sb nmeta k s t (pathPlaces (position bn).1 (position bn).2) extra new)
    (inside : bn < MAXFILE) (inside' : off + n ≤ MAXFILE * BSIZE) (later : ∀ bn' ∈ touchedBlocks off n, bn < bn') :
    touchedRecords t k off n = touchedRecords s k off n := by
  apply Finset.biUnion_congr rfl
  intro bn' member
  exact fills.recordedPlaces_eq inside (touchedBlocks_lt inside' member) (Nat.ne_of_gt (later bn' member))

/-- The places of a write are in the tree. -/
theorem touchedPlaces_inTree (k : ι) {off n : Nat} (inside : off + n ≤ MAXFILE * BSIZE) :
    ∀ place ∈ touchedPlaces off n, InTree (k, place.1) place.2 := by
  intro place member
  obtain ⟨bn, touched, above⟩ := Finset.mem_biUnion.mp member
  exact pathPlaces_inTree (position_inTree k (touchedBlocks_lt inside touched)).1 place above

/-- A write of nothing fills nothing. -/
theorem Filling.untouched (owned : Owned sb nmeta s.inodes s.store.blocks) (k : ι) (off : Nat) :
    Filling sb nmeta k s s (touchedPlaces off 0) (touchedRecords s k off 0) [] := by
  have none : touchedBlocks off 0 = ∅ := by
    rw [touchedBlocks, Nat.add_zero, Finset.Ico_self, Finset.image_empty]
  rw [touchedPlaces, touchedRecords, none, Finset.biUnion_empty, Finset.biUnion_empty]
  exact Filling.refl owned fun _ member => absurd member (Finset.notMem_empty _)

/-- The copy loop fills the paths of the block numbers it touches, and panics only when it is short
of free blocks. -/
theorem writeLoop_fills [DecidableEq ι] (layout : Layout sb nmeta) (k : ι) (off : Nat) (src : List UInt8)
    {fuel : Nat} (owned : Owned sb nmeta s.inodes s.store.blocks)
    (inside : off + src.length ≤ MAXFILE * BSIZE) (enough : src.length ≤ fuel) :
    wp (Store.handler (recording false)) (writeLoop sb (s.inodes k) off src fuel)
      (fun result store => ∃ new, Filling sb nmeta k s ⟨Function.update s.inodes k result.1, store⟩
        (touchedPlaces off src.length) (touchedRecords s k off src.length) new)
      (fun reason => outOfBlocks reason ∧ Short sb s k (touchedPlaces off src.length)) s.store := by
  induction fuel generalizing s off src with
  | zero =>
    have empty : src.length = 0 := Nat.le_zero.mp enough
    rw [writeLoop, wp_pure, empty, Function.update_eq_self]
    exact ⟨[], .untouched owned k off⟩
  | succ fuel ih =>
    rw [writeLoop]
    by_cases none : src.length = 0
    · rw [if_pos none, wp_pure, none, Function.update_eq_self]
      exact ⟨[], .untouched owned k off⟩
    · have block : off / BSIZE < MAXFILE := Nat.div_lt_of_lt_mul (by rw [Nat.mul_comm]; omega)
      have progress : 0 < min src.length (BSIZE - off % BSIZE) := by
        simp only [BSIZE]
        omega
      have left : (src.drop (min src.length (BSIZE - off % BSIZE))).length =
          src.length - min src.length (BSIZE - off % BSIZE) := List.length_drop
      have first : touchedBlocks off src.length = _ := touchedBlocks_first (Nat.pos_of_ne_zero none)
      have places : touchedPlaces off src.length =
          pathPlaces (position (off / BSIZE)).1 (position (off / BSIZE)).2 ∪
            touchedPlaces (off + min src.length (BSIZE - off % BSIZE))
              (src.length - min src.length (BSIZE - off % BSIZE)) := by
        rw [touchedPlaces, first, Finset.union_biUnion, Finset.singleton_biUnion, touchedPlaces]
      have records : touchedRecords s k off src.length = recordedPlaces s k (off / BSIZE) ∪
          touchedRecords s k (off + min src.length (BSIZE - off % BSIZE))
            (src.length - min src.length (BSIZE - off % BSIZE)) := by
        rw [touchedRecords, first, Finset.union_biUnion, Finset.singleton_biUnion, touchedRecords]
      obtain ⟨extra, together, mapped⟩ := bmap_filledTo layout owned k block
      rw [if_neg none, wp_bind]
      refine wp_mono mapped ?_ ?_
      · rintro ⟨ip, addr⟩ store reached
        rw [Store.wp_bread, Store.wp_modify, Store.wp_logWrite_recording, Store.wp_brelse (.inl rfl)]
        obtain ⟨new, fills⟩ := reached.stored layout block together
          (Block.splice · (off % BSIZE) (src.take (min src.length (BSIZE - off % BSIZE))))
        have bound : off + min src.length (BSIZE - off % BSIZE) +
            (src.length - min src.length (BSIZE - off % BSIZE)) ≤ MAXFILE * BSIZE := by omega
        have rest := ih (off + min src.length (BSIZE - off % BSIZE))
          (src.drop (min src.length (BSIZE - off % BSIZE))) fills.owned (by omega) (by omega)
        simp only [Function.update_self, Function.update_idem, left] at rest
        refine wp_mono rest ?_ ?_
        · intro final store' after
          obtain ⟨new', more⟩ := after
          have both := fills.trans more
          rw [fills.touchedRecords_eq block bound fun _ => touchedBlocks_later, ← places, ← records] at both
          exact ⟨new ++ new', both⟩
        · intro reason stopped
          refine ⟨stopped.1, ?_⟩
          rw [places]
          exact fills.short (touchedPlaces_inTree k bound) stopped.2
      · intro reason stopped
        refine ⟨stopped.1, stopped.2.mono ?_⟩
        rw [places]
        exact Finset.subset_union_left

end Loop

/-! ## Counting -/

/-- The block numbers passed to `log_write` from one state of the store to another. -/
def loggedBetween (s t : Store) : Finset Nat := (t.recorded.drop s.recorded.length).toFinset

/-- One more block number. -/
theorem loggedBetween_record {s t u : Store} {added : List Nat} (before : t.recorded = s.recorded ++ added)
    {b : Nat} {update : Block → Block} (after : u = (t.modified b update).record b) :
    loggedBetween s u = insert b (loggedBetween s t) := by
  have recorded : u.recorded = s.recorded ++ (added ++ [b]) := by
    rw [after, ← List.append_assoc, ← before]
    rfl
  rw [loggedBetween, loggedBetween, recorded, before, List.drop_left, List.drop_left, List.toFinset_append,
    Finset.union_comm]
  rfl

/-- The blocks that a write of `n` bytes at `off` has to record, from the state before it: the missing
ones on the paths of the touched block numbers with the data blocks and a single indirect block that
gets an entry, the free map blocks of the free blocks that come first, and the inode block if the
file grows. -/
def blocksToLog (sb : Superblock) (s : FsState ι) (k : ι) (off n : Nat) : Nat :=
  let missing := s.vacant k (touchedPlaces off n)
  (missing ∪ touchedRecords s k off n).card +
    (((freeBlocks sb s.store.blocks).take missing.card).toFinset.image (BBLOCK · sb)).card +
    if (s.inodes k).size < off + n then 1 else 0

section Counting

variable {sb : Superblock} {nmeta : Nat} {k : ι} {s t : FsState ι} {places extra : Finset TreePlace}
  {new : List Nat}

/-- The block numbers recorded while places were filled. -/
theorem Filling.loggedBetween_eq (fills : Filling sb nmeta k s t places extra new) :
    loggedBetween s.store t.store =
      (s.vacant k places ∪ extra).image (t.placed k) ∪ new.toFinset.image (BBLOCK · sb) := by
  obtain ⟨added, recorded, blocks⟩ := fills.recorded
  rw [loggedBetween, recorded, List.drop_left, blocks, Finset.image_union, ← fills.fresh]
  ext b
  simp only [Finset.mem_union]
  tauto

/-- The blocks of the inode that were recorded are data-area blocks. -/
theorem Filling.recorded_high (fills : Filling sb nmeta k s t places extra new) {b : Nat}
    (member : b ∈ (s.vacant k places ∪ extra).image (t.placed k)) : nmeta ≤ b := by
  obtain ⟨place, spot, rfl⟩ := Finset.mem_image.mp member
  have inside : place ∈ places ∪ extra := by
    rcases Finset.mem_union.mp spot with vacant | other
    · exact Finset.mem_union_left _ (FsState.mem_vacant.mp vacant).1
    · exact Finset.mem_union_right _ other
  have filled := fills.filled place inside
  exact (fills.owned.data_area _ _ filled.1 filled.2).1

/-- The free map blocks that were recorded are metadata. -/
theorem Filling.maps_low (layout : Layout sb nmeta) (fills : Filling sb nmeta k s t places extra new) {b : Nat}
    (member : b ∈ new.toFinset.image (BBLOCK · sb)) : b < nmeta := by
  obtain ⟨c, fresh, rfl⟩ := Finset.mem_image.mp member
  have free : c ∈ freeBlocks sb s.store.blocks := by
    rw [fills.first]
    exact List.mem_append_left _ (List.mem_toFinset.mp fresh)
  exact layout.bblock_lt (mem_freeBlocks.mp free).1

/-- How many they are. -/
theorem Filling.card_loggedBetween (layout : Layout sb nmeta) (fills : Filling sb nmeta k s t places extra new) :
    (loggedBetween s.store t.store).card = (s.vacant k places ∪ extra).card +
      (((freeBlocks sb s.store.blocks).take (s.vacant k places).card).toFinset.image (BBLOCK · sb)).card := by
  have injective : Set.InjOn (t.placed k) (s.vacant k places ∪ extra : Finset TreePlace) := by
    refine fills.placed_injOn.mono ?_
    exact Finset.union_subset_union_left (Finset.filter_subset _ _)
  have apart : Disjoint ((s.vacant k places ∪ extra).image (t.placed k)) (new.toFinset.image (BBLOCK · sb)) := by
    rw [Finset.disjoint_left]
    intro b high low
    have above := fills.recorded_high high
    have below := fills.maps_low layout low
    omega
  rw [fills.loggedBetween_eq, Finset.card_union_of_disjoint apart, Finset.card_image_of_injOn injective,
    ← fills.new_eq]

/-- The inode block is not among them. -/
theorem Filling.iblock_notMem (layout : Layout sb nmeta) (fills : Filling sb nmeta k s t places extra new)
    {inum : Nat} (numbered : inum < sb.ninodes) : IBLOCK inum sb ∉ loggedBetween s.store t.store := by
  rw [fills.loggedBetween_eq, Finset.mem_union]
  intro member
  rcases member with high | map
  · have above := fills.recorded_high high
    have low := layout.iblock_lt numbered
    omega
  · obtain ⟨c, _, same⟩ := Finset.mem_image.mp map
    exact layout.iblock_ne_bblock numbered c same.symm

/-- A write that fits records exactly the blocks it has to, and panics only when it is short of free
blocks. -/
theorem writei_logs [DecidableEq ι] (devsw : Devsw) (layout : Layout sb nmeta)
    (owned : Owned sb nmeta s.inodes s.store.blocks) {off : Nat} {src : List UInt8}
    (numbered : (s.inodes k).inum < sb.ninodes) (file : (s.inodes k).type ≠ T_DEV)
    (off_fits : off < 2 ^ 32) (length_fits : src.length < 2 ^ 32)
    (accepted : Accepts (s.inodes k).size off src.length) :
    wp (Store.handler (recording false)) (writei sb devsw (s.inodes k) src off)
      (fun _ store => (loggedBetween s.store store).card = blocksToLog sb s k off src.length)
      (fun reason => outOfBlocks reason ∧ Short sb s k (touchedPlaces off src.length)) s.store := by
  have tests := (accepts_iff off_fits length_fits).mp accepted
  have bytes := writeLoop_spec layout k off src owned accepted.2.2 (Nat.le_refl _) (settled_unchecked _)
    fun checked => absurd checked Bool.false_ne_true
  have fills := writeLoop_fills layout k off src owned accepted.2.2 (Nat.le_refl _)
  rw [writei, if_neg file, if_neg tests.1, if_neg tests.2, wp_bind]
  refine wp_mono (wp_and bytes fills) ?_ fun _ none => none.2
  rintro ⟨ip, last⟩ store after
  obtain ⟨⟨_, ⟨size, rfl⟩, _⟩, new, fills⟩ := after
  have count := fills.card_loggedBetween layout
  have inum : ip.inum = (s.inodes k).inum := by
    have inode := fills.inode k
    simp only [Function.update_self] at inode
    rw [inode]
  dsimp only at size ⊢
  by_cases grown : (s.inodes k).size < off + src.length
  · have grows : 0 < src.length ∧ off + src.length > ip.size := by omega
    have fresh := fills.iblock_notMem layout numbered
    obtain ⟨added, recorded, _⟩ := fills.recorded
    rw [if_pos grows, wp_bind, wp_iupdate, wp_pure]
    dsimp only
    rw [inum, loggedBetween_record recorded rfl, Finset.card_insert_of_notMem fresh, blocksToLog, if_pos grown, count]
  · have stays : ¬(0 < src.length ∧ off + src.length > ip.size) := by omega
    rw [if_neg stays, wp_pure, blocksToLog, if_neg grown]
    exact count

/-- The functions of devices call no `log_write`. -/
def SilentDevices (devsw : Devsw) : Prop :=
  ∀ major write, devsw.write major = some write → ∀ ip src store result store',
    Store.exec (recording false) (write ip src) store = .ok (result, store') → store'.recorded = store.recorded

/-- A write of no more bytes than one piece of `filewrite` or `filepwrite` stays within `MAXOPBLOCKS`
exactly when it is refused, or the blocks it has to record are no more than that. -/
theorem piece_reserved_iff [DecidableEq ι] {devsw : Devsw} (silent : SilentDevices devsw)
    (layout : Layout sb nmeta) (owned : Owned sb nmeta s.inodes s.store.blocks)
    (numbered : (s.inodes k).inum < sb.ninodes) {off : Nat} {src : List UInt8} (off_fits : off < 2 ^ 32)
    (piece : src.length ≤ maxPiece) {result : Inode × Int} {store : Store}
    (returned : Store.exec (recording false) (writei sb devsw (s.inodes k) src off) s.store =
      .ok (result, store)) :
    (loggedBetween s.store store).card ≤ MAXOPBLOCKS ↔
      ((s.inodes k).type ≠ T_DEV → Accepts (s.inodes k).size off src.length →
        blocksToLog sb s k off src.length ≤ MAXOPBLOCKS) := by
  have length_fits : src.length < 2 ^ 32 := Nat.lt_of_le_of_lt piece (by decide)
  have quiet : store.recorded = s.store.recorded → (loggedBetween s.store store).card ≤ MAXOPBLOCKS := by
    intro same
    rw [loggedBetween, same, List.drop_length]
    exact Nat.zero_le _
  by_cases device : (s.inodes k).type = T_DEV
  · have none : (loggedBetween s.store store).card ≤ MAXOPBLOCKS := by
      apply quiet
      rw [writei, if_pos device] at returned
      by_cases major : (s.inodes k).major < 0 ∨ NDEV ≤ (s.inodes k).major
      · rw [if_pos major] at returned
        cases returned
        rfl
      · rw [if_neg major] at returned
        cases found : devsw.write (s.inodes k).major with
        | none =>
          rw [found] at returned
          cases returned
          rfl
        | some write =>
          rw [found] at returned
          obtain ⟨r, between, wrote, rest⟩ := run_bind_eq_ok returned
          cases rest
          exact silent _ write found _ _ _ _ _ wrote
    exact ⟨fun _ file => absurd device file, fun _ => none⟩
  · by_cases accepted : Accepts (s.inodes k).size off src.length
    · have count := wp_ok (writei_logs devsw layout owned numbered device off_fits length_fits accepted) returned
      rw [count]
      exact ⟨fun bound _ _ => bound, fun bound => bound device accepted⟩
    · have refused := writei_refused sb devsw device off_fits length_fits accepted
      rw [refused] at returned
      cases returned
      exact ⟨fun _ _ fits => absurd fits accepted, fun _ => quiet rfl⟩

end Counting

/-- No device is silent. -/
theorem noDevices_silent : SilentDevices noDevices := by
  intro major write found
  nomatch found

/-- A write of three bytes to the small disk returns and stays within the reservation. -/
theorem piece_reserved_small : ∃ result store,
    Store.exec (recording false) (writei smallSuperblock noDevices (smallState.inodes 0) [1, 2, 3] 0)
      smallState.store = .ok (result, store) ∧
    ((loggedBetween smallState.store store).card ≤ MAXOPBLOCKS ↔
      ((smallState.inodes 0).type ≠ T_DEV → Accepts (smallState.inodes 0).size 0 [1, 2, 3].length →
        blocksToLog smallSuperblock smallState (0 : Fin 2) 0 [1, 2, 3].length ≤ MAXOPBLOCKS)) := by
  have numbered : (smallState.inodes 0).inum < smallSuperblock.ninodes := by decide
  have start : 0 < 2 ^ 32 := by decide
  have piece : ([1, 2, 3] : List UInt8).length ≤ maxPiece := by decide
  refine ⟨_, _, rfl, ?_⟩
  exact piece_reserved_iff noDevices_silent small_layout small_owned numbered start piece rfl

/-! ## A crowded disk -/

/-- On the disk of `mkfs`: block 78 is the index block of a file of 138 blocks, and the free blocks are
207, 208 and the first blocks of the other free map blocks. -/
def crowdedBlocks (b : Nat) : Block :=
  if b = 78 then Block.ofWords fun j => 79 + j
  else if b = 58 then Block.ofFn fun i => if i = 25 then 127 else if i = 26 then 254 else 255
  else if 58 < b ∧ b < 68 then Block.ofFn fun i => if i = 0 then 254 else 255
  else Block.zero

/-- A file that ends one byte before the end of the single indirect range. -/
def longInode : Inode where
  inum := 2
  type := T_FILE
  major := 0
  minor := 0
  nlink := 1
  size := 137 * BSIZE + 511
  addrs i := if i.val < NDIRECT then 68 + i.val else if i = slotSingle then 78 else 0

/-- This file alone on the crowded disk, in an open operation with an empty log. -/
def crowdedState : FsState Unit where
  inodes _ := longInode
  store := Store.boot crowdedBlocks ⟨2, LOGSIZE, 1, false, []⟩

/-- The place of a block in that file. -/
def crowdedPlace (b : Nat) : Nat × List Nat :=
  if b < 78 then (b - 68, []) else if b = 78 then (10, []) else (10, [b - 79])

/-- Every block of the file has its place. -/
theorem crowdedPlace_address (r : Unit × Slot) (p : List Nat) (inside : InTree r p)
    (occupied : crowdedState.forest.address r p ≠ 0) :
    crowdedPlace (crowdedState.forest.address r p) = (r.2.val, p) ∧
      68 ≤ crowdedState.forest.address r p ∧ crowdedState.forest.address r p < 207 := by
  have roots : ∀ i : Slot, longInode.addrs i ≠ 0 → crowdedPlace (longInode.addrs i) = (i.val, []) ∧
      68 ≤ longInode.addrs i ∧ longInode.addrs i < 79 ∧ (1 ≤ slotDepth i → longInode.addrs i = 78) := by decide
  cases p with
  | nil =>
    obtain ⟨place, low, high, _⟩ := roots r.2 occupied
    exact ⟨place, low, Nat.lt_trans high (by decide)⟩
  | cons j up =>
    obtain ⟨above, same⟩ := Forest.address_occupied occupied
    cases up with
    | nil =>
      obtain ⟨place, _, _, index⟩ := roots r.2 above
      have here : longInode.addrs r.2 = 78 := index inside.1
      have small : j < 128 := inside.2 j List.mem_cons_self
      have entry : crowdedState.forest.address r [j] = 79 + j := by
        rw [same]
        show (crowdedBlocks (longInode.addrs r.2)).word j = 79 + j
        rw [here, crowdedBlocks, if_pos rfl]
        exact Block.word_ofWords small (by omega)
      have slot : r.2.val = 10 := by
        rw [here] at place
        exact (congrArg Prod.fst place).symm
      rw [entry, slot, crowdedPlace, if_neg (by omega), if_neg (by omega), Nat.add_sub_cancel_left]
      exact ⟨rfl, by omega, by omega⟩
    | cons j' up' =>
      -- the deeper slots are empty
      have deep : 2 ≤ slotDepth r.2 := Nat.le_trans (by simp) inside.1
      have empty : ∀ i : Slot, 2 ≤ slotDepth i → longInode.addrs i = 0 := by decide
      have vacant : crowdedState.forest.address r [] = 0 := empty r.2 deep
      have under := Forest.address_under_vacant vacant (j :: j' :: up')
      rw [List.append_nil] at under
      exact absurd under occupied

/-- The free map of that disk. -/
theorem crowded_used {a : Nat} (exist : a < 40000) : Used mkfsSuperblock crowdedBlocks a ↔
    a ≠ 207 ∧ a ≠ 208 ∧ (a < 4096 ∨ a % 4096 ≠ 0) := by
  have start : BBLOCK a mkfsSuperblock = a / 4096 + 58 := rfl
  have bits : a % BPB = a % 4096 := rfl
  have inside : a % 4096 / 8 < BSIZE := by
    simp only [BSIZE]
    omega
  have all : ∀ j, j < 8 → (255 : UInt8).toNat.testBit j = true ∧
      ((254 : UInt8).toNat.testBit j = true ↔ j ≠ 0) ∧ ((127 : UInt8).toNat.testBit j = true ↔ j ≠ 7) := by decide
  obtain ⟨ones, low, high⟩ := all (a % 4096 % 8) (Nat.mod_lt _ (by decide))
  unfold Used crowdedBlocks
  rw [start, bits, if_neg (by omega)]
  by_cases first : a < 4096
  · rw [if_pos (by omega), Block.bit_testBit, Block.byte_ofFn _ inside]
    by_cases last : a % 4096 / 8 = 25
    · rw [if_pos last, high]
      omega
    · rw [if_neg last]
      by_cases next : a % 4096 / 8 = 26
      · rw [if_pos next, low]
        omega
      · rw [if_neg next]
        simp only [ones, true_iff]
        omega
  · rw [if_neg (by omega), if_pos (by omega), Block.bit_testBit, Block.byte_ofFn _ inside]
    by_cases edge : a % 4096 / 8 = 0
    · rw [if_pos edge, low]
      omega
    · rw [if_neg edge]
      simp only [ones, true_iff]
      omega

/-- The file has the ownership invariant. -/
theorem crowded_owned : Owned mkfsSuperblock 68 crowdedState.inodes crowdedState.store.blocks where
  exclusive := by
    intro r p r' p' inside inside' occupied same
    have left := (crowdedPlace_address r p inside occupied).1
    have right := (crowdedPlace_address r' p' inside' fun vacant => occupied (same.trans vacant)).1
    have place : (r.2.val, p) = (r'.2.val, p') := by
      rw [← left, ← right]
      exact congrArg crowdedPlace same
    obtain ⟨slot, path⟩ := Prod.mk.inj place
    exact ⟨Prod.ext rfl (Fin.ext slot), path⟩
  data_area r p inside occupied := by
    obtain ⟨-, low, high⟩ := crowdedPlace_address r p inside occupied
    exact ⟨low, Nat.lt_trans high (by decide)⟩
  used r p inside occupied := by
    obtain ⟨-, low, high⟩ := crowdedPlace_address r p inside occupied
    have exist := Nat.lt_trans high (show 207 < 40000 by decide)
    exact (crowded_used exist).mpr ⟨Nat.ne_of_lt high, Nat.ne_of_lt (Nat.lt_succ_of_lt high),
      .inl (Nat.lt_trans high (by decide))⟩
  meta_used b low exist := by
    apply (crowded_used exist).mpr
    omega

/-- The file is mapped below its size. -/
theorem crowded_mapped : MappedBelow longInode crowdedState.store.blocks longInode.size := by
  intro bn inside
  have bound : bn < 138 := by
    simp only [longInode, BSIZE] at inside
    omega
  have all : ∀ b, b < 138 → b < MAXFILE ∧ blockAt longInode crowdedState.store.blocks b ≠ 0 := by decide
  exact all bn bound

/-- The first free blocks. -/
theorem crowded_free : (freeBlocks mkfsSuperblock crowdedState.store.blocks).take 5 =
    [207, 208, 4096, 8192, 12288] := by
  have inside : 12289 ≤ mkfsSuperblock.size := by decide
  have sorted : [207, 208, 4096, 8192, 12288].Pairwise (· < ·) := by decide
  apply freeBlocks_take inside sorted
  intro b
  simp only [List.mem_cons, List.not_mem_nil, or_false]
  by_cases low : b < 12289
  · have used := crowded_used (Nat.lt_trans low (show 12289 < 40000 by decide))
    show _ ↔ b < 12289 ∧ ¬Used mkfsSuperblock crowdedBlocks b
    rw [used]
    omega
  · omega

/-- The block numbers that a piece at the end of the file touches. -/
theorem long_touched : touchedBlocks longInode.size maxPiece = {137, 138, 139, 140} := by
  have start : longInode.size = 70655 := rfl
  have piece : maxPiece = 1536 := rfl
  ext bn
  simp only [touchedBlocks, start, piece, Finset.mem_image, Finset.mem_Ico, Finset.mem_insert,
    Finset.mem_singleton, BSIZE]
  constructor
  · intro member
    obtain ⟨i, range, rfl⟩ := member
    omega
  · intro member
    exact ⟨max 70655 (512 * bn), by omega, by omega⟩

/-- The doubly indirect range starts there: five blocks are missing. -/
theorem long_missing : (crowdedState.vacant () (touchedPlaces longInode.size maxPiece)).card = 5 ∧
    (crowdedState.vacant () (touchedPlaces longInode.size maxPiece) ∪
      touchedRecords crowdedState () longInode.size maxPiece).card = 6 := by
  rw [touchedPlaces, touchedRecords, long_touched]
  decide +kernel

/-- A piece at the end of a well-formed file on the crowded disk records eleven blocks. -/
theorem piece_overflows :
    Owned mkfsSuperblock 68 crowdedState.inodes crowdedState.store.blocks ∧
      MappedBelow longInode crowdedState.store.blocks longInode.size ∧
      ∃ result store, Store.exec (recording false)
          (writei mkfsSuperblock noDevices (crowdedState.inodes ()) (List.replicate maxPiece 1) longInode.size)
          crowdedState.store = .ok (result, store) ∧
        MAXOPBLOCKS < (loggedBetween crowdedState.store store).card := by
  have layout : Layout mkfsSuperblock 68 := mkfs_layout
  have numbered : (crowdedState.inodes ()).inum < mkfsSuperblock.ninodes := by decide
  have file : (crowdedState.inodes ()).type ≠ T_DEV := by decide
  have length : (List.replicate maxPiece (1 : UInt8)).length = maxPiece := List.length_replicate
  have accepts : Accepts longInode.size longInode.size maxPiece := by decide +kernel
  have enough : ¬Short mkfsSuperblock crowdedState () (touchedPlaces longInode.size maxPiece) := by
    have free := congrArg List.length crowded_free
    rw [List.length_take] at free
    simp only [List.length_cons, List.length_nil] at free
    rw [Short, long_missing.1]
    omega
  have count : blocksToLog mkfsSuperblock crowdedState () longInode.size maxPiece = 11 := by
    rw [blocksToLog, long_missing.1, long_missing.2, crowded_free]
    decide
  refine ⟨crowded_owned, crowded_mapped, ?_⟩
  obtain ⟨off, here⟩ : ∃ off, off = longInode.size := ⟨_, rfl⟩
  rw [← here] at accepts enough count ⊢
  have accepted : Accepts (crowdedState.inodes ()).size off (List.replicate maxPiece (1 : UInt8)).length := by
    rw [length]
    show Accepts longInode.size off maxPiece
    rw [← here]
    exact accepts
  have off_fits : off < 2 ^ 32 := Nat.lt_of_le_of_lt (Nat.le_add_right off _) accepted.2.1
  have length_fits : (List.replicate maxPiece (1 : UInt8)).length < 2 ^ 32 :=
    Nat.lt_of_le_of_lt (Nat.le_add_left _ off) accepted.2.1
  have spec := writei_logs noDevices layout crowded_owned numbered file off_fits length_fits accepted
  rw [length] at spec
  cases ran : Store.exec (recording false)
      (writei mkfsSuperblock noDevices (crowdedState.inodes ()) (List.replicate maxPiece 1) off)
      crowdedState.store with
  | error reason => exact absurd (wp_error spec ran).2 enough
  | ok passed =>
    obtain ⟨result, store⟩ := passed
    have logged := wp_ok spec ran
    refine ⟨result, store, rfl, ?_⟩
    rw [logged, count]
    decide

end Xv6
