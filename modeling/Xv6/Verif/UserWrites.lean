import Xv6.UserPages
import Xv6.Verif.NewPages

/-!
# Writing to user pages

`copyout` to pages that the user can access writes into their frames only, and `clearpteu` takes one
page away from the user.
-/

namespace Xv6

/-- An entry without `PTE_U`. -/
def withoutUser (w : Nat) : Nat := w - w / PTE_U % 2 * PTE_U

section Words

variable {w : Nat}

/-- The entry is present as before. -/
theorem present_withoutUser (w : Nat) : present (withoutUser w) = present w := by
  have same : withoutUser w % 2 = w % 2 := by
    unfold withoutUser PTE_U
    omega
  unfold present
  rw [same]

/-- Its frame is the same. -/
theorem withoutUser_frame (w : Nat) : withoutUser w / PGSIZE = w / PGSIZE := by
  unfold withoutUser PTE_U PGSIZE
  omega

/-- The user cannot access its page. -/
theorem withoutUser_user (w : Nat) : withoutUser w / PTE_U % 2 = 0 := by
  unfold withoutUser PTE_U
  omega

end Words

section Tables

variable {k : KernelImage} {m m' m₁ : Memory} {d f g pn t w : Nat}

/-- The same tables over two steps. -/
theorem SameTables.trans (first : SameTables m d m₁) (second : SameTables m₁ d m') : SameTables m d m' := by
  refine ⟨second.1.trans first.1, fun i index t named => ?_⟩
  have kept := second.2 i index t
  rw [first.1] at kept
  exact (kept named).trans (first.2 i index t named)

/-- Writes to other pages keep the tables. -/
theorem SameTables.of_kept (dir : f ≠ d) (table : ∀ i < NPDENTRIES, frameOf (m.word d i) ≠ some f)
    (kept : ∀ g, g ≠ f → m'.word g = m.word g) : SameTables m d m' := by
  refine ⟨kept d (Ne.symm dir), fun i index t named => kept t fun here => ?_⟩
  exact table i index (here ▸ named)

/-- The frame of a page is the same under an entry that is rewritten. -/
theorem OwnPages.rewrite (own : OwnPages k m d) (inside : pn < TABLEPAGES)
    (named : frameOf (m.word d (pn / NPDENTRIES)) = some t) (shown : present w = present (m.word t (pn % NPDENTRIES)))
    (frame : w / PGSIZE = m.word t (pn % NPDENTRIES) / PGSIZE) :
    OwnPages k (m.set t (pn % NPDENTRIES) w) d ∧ ∀ q < TABLEPAGES,
      (m.set t (pn % NPDENTRIES) w).mapping d q = if q = pn then (m.mapping d q).map fun _ => w else m.mapping d q := by
  have table := own.table _ (table_index inside) t named
  have dir : (m.set t (pn % NPDENTRIES) w).word d = m.word d := Memory.set_other (Ne.symm table.2)
  have mapping : ∀ q < TABLEPAGES, (m.set t (pn % NPDENTRIES) w).mapping d q =
      if q = pn then (m.mapping d q).map fun _ => w else m.mapping d q := by
    intro q within
    rw [own.set_mapping inside named w within]
    by_cases here : q = pn
    · rw [if_pos here, if_pos here, here, Memory.mapping_eq_entry, Memory.entry_table named, shown, Option.filter_some]
      split
      · rfl
      · rfl
    · rw [if_neg here, if_neg here]
  have before : ∀ q < USERPAGES, ∀ w', (m.set t (pn % NPDENTRIES) w).mapping d q = some w' →
      ∃ old, m.mapping d q = some old ∧ old / PGSIZE = w' / PGSIZE := by
    intro q user w' found
    rw [mapping q (user_inside user)] at found
    split at found
    · rename_i here
      obtain ⟨old, mapped, rfl⟩ := Option.map_eq_some_iff.mp found
      refine ⟨old, mapped, ?_⟩
      obtain ⟨t', named', entry, _⟩ := Memory.mapping_some mapped
      rw [here, named] at named'
      cases named'
      rw [frame, ← entry, here]
    · exact ⟨w', found, rfl⟩
  refine ⟨⟨own.dir, ?_, ?_, ?_, ?_⟩, mapping⟩
  · rw [dir]
    exact own.table
  · rw [dir]
    exact own.tables
  · intro q user w' found
    obtain ⟨old, mapped, same⟩ := before q user w' found
    rw [dir, ← same]
    exact own.page q user old mapped
  · intro q user q' user' w₁ w₂ found found' same
    obtain ⟨old, mapped, frame₁⟩ := before q user w₁ found
    obtain ⟨old', mapped', frame₂⟩ := before q' user' w₂ found'
    exact own.pages q user q' user' old old' mapped mapped' (frame₁.trans (same.trans frame₂.symm))

/-- `clearpteu` of a page with a page table rewrites its entry. -/
theorem clearpteu_writes (missing : d ∉ m.free) {uva : Nat} (here : uva / PGSIZE = pn)
    (named : frameOf (m.word d (pn / NPDENTRIES)) = some t) (table : t ∉ m.free) :
    Returns k (Vm.clearpteu d uva) m fun _ m' => m' = m.set t (pn % NPDENTRIES) (withoutUser (m.word t (pn % NPDENTRIES))) := by
  unfold Vm.clearpteu
  refine .bind (walkpgdir_reads missing uva) fun r m₁ known => ?_
  obtain ⟨rfl, rfl⟩ := known
  rw [PDX_eq, PTX, here, named]
  dsimp only [Option.map_some]
  refine .bind (Vm.load_returns table _) fun pte m₂ known => ?_
  obtain ⟨rfl, rfl⟩ := known
  exact Vm.store_returns table _ _

/-- The entry without `PTE_U`, and the others. -/
theorem OwnPages.cleared (own : OwnPages k m d) (inside : pn < TABLEPAGES)
    (named : frameOf (m.word d (pn / NPDENTRIES)) = some t) :
    OwnPages k (m.set t (pn % NPDENTRIES) (withoutUser (m.word t (pn % NPDENTRIES)))) d ∧ ∀ q < TABLEPAGES,
      (m.set t (pn % NPDENTRIES) (withoutUser (m.word t (pn % NPDENTRIES)))).mapping d q =
        if q = pn then (m.mapping d q).map withoutUser else m.mapping d q := by
  have rewritten := own.rewrite inside named (present_withoutUser _) (withoutUser_frame _)
  refine ⟨rewritten.1, fun q inside' => (rewritten.2 q inside').trans ?_⟩
  by_cases same : q = pn
  · rw [if_pos same, if_pos same]
    cases mapped : m.mapping d q with
    | none => rfl
    | some w =>
      obtain ⟨t', named', entry, _⟩ := Memory.mapping_some mapped
      rw [same, named] at named'
      cases named'
      rw [Option.map_some, Option.map_some, ← entry, same]
  · rw [if_neg same, if_neg same]

/-- What `clearpteu` leaves, unless there is no page table and it panics. -/
theorem clearpteu_yields (own : OwnPages k m d) {uva : Nat} (inside : uva / PGSIZE < TABLEPAGES) :
    Yields k (Vm.clearpteu d uva) m fun _ m' => OwnPages k m' d ∧ m'.free = m.free ∧ m'.word d = m.word d ∧
      ∀ q < TABLEPAGES, m'.mapping d q = if q = uva / PGSIZE then (m.mapping d q).map withoutUser else m.mapping d q := by
  cases named : frameOf (m.word d (uva / PGSIZE / NPDENTRIES)) with
  | none =>
    unfold Vm.clearpteu
    refine (walkpgdir_reads own.dir uva).yields.bind fun r m₁ known => ?_
    obtain ⟨rfl, rfl⟩ := known
    rw [PDX_eq, named]
    exact .panic _
  | some t =>
    have table := own.table _ (table_index inside) t named
    refine (clearpteu_writes own.dir rfl named table.1).yields.mono fun _ m' known => ?_
    subst known
    obtain ⟨own', mapping⟩ := own.cleared inside named
    exact ⟨own', rfl, Memory.set_other (Ne.symm table.2), mapping⟩

end Tables

/-! ## `copyout` -/

section Copies

variable {k : KernelImage} {m m' : Memory} {d f pn t w va : Nat} {buf : List UInt8}

/-- Bytes are stored into one page. -/
theorem storeBytes_returns (missing : f ∉ m.free) (offset : Nat) (bytes : List UInt8) :
    Returns k (Vm.storeBytes f offset bytes) m fun _ m' => m'.free = m.free ∧ ∀ g, g ≠ f → m'.word g = m.word g := by
  induction bytes generalizing m offset with
  | nil => exact Returns.pure ⟨rfl, fun _ _ => rfl⟩
  | cons byte rest ih =>
    unfold Vm.storeBytes
    refine .bind (Vm.load_returns missing _) fun w m₁ known => ?_
    obtain ⟨rfl, rfl⟩ := known
    refine .bind (Vm.store_returns missing _ _) fun _ m₂ known => ?_
    subst known
    have missing' : f ∉ (m₁.set f (offset / 4) (withByte (m₁.word f (offset / 4)) (offset % 4) byte)).free := missing
    refine (ih missing' (offset + 1)).mono fun _ m' left => ⟨left.1, fun g other => ?_⟩
    rw [left.2 g other, Memory.set_other other]

/-- `uva2ka` of a page with a page table. -/
theorem uva2ka_reads (dir : d ∉ m.free) (table : t ∉ m.free)
    (named : frameOf (m.word d (pn / NPDENTRIES)) = some t) {uva : Nat} (here : uva / PGSIZE = pn) :
    Returns k (Vm.uva2ka d uva) m fun r m' => m' = m ∧
      r = ((m.mapping d pn).filter fun w => w / PTE_U % 2 ≠ 0).map (· / PGSIZE) := by
  unfold Vm.uva2ka
  refine .bind (walkpgdir_reads dir uva) fun r m₁ known => ?_
  obtain ⟨rfl, rfl⟩ := known
  rw [PDX_eq, here, named, PTX, here]
  dsimp only [Option.map_some]
  refine .bind (Vm.load_returns table _) fun pte m₂ known => ?_
  obtain ⟨rfl, rfl⟩ := known
  rw [Memory.mapping, named]
  dsimp only
  by_cases shown : present (m₂.word t (pn % NPDENTRIES)) = true
  · rw [if_pos shown, if_neg (by rw [shown]; decide)]
    by_cases hidden : m₂.word t (pn % NPDENTRIES) / PTE_U % 2 = 0
    · rw [if_pos hidden, Option.filter_some_neg (by simp [hidden])]
      exact Returns.pure ⟨rfl, rfl⟩
    · rw [if_neg hidden, Option.filter_some_pos (by simp [hidden])]
      exact Returns.pure ⟨rfl, rfl⟩
  · rw [if_neg shown, if_pos (by simpa using shown)]
    exact Returns.pure ⟨rfl, rfl⟩

/-- `copyout` to user pages that the user can access. -/
theorem copyoutLoop_returns (own : OwnPages k m d) (inside : va + buf.length ≤ KERNBASE)
    (user : ∀ pn, va / PGSIZE ≤ pn → pn * PGSIZE < va + buf.length → ∃ w, m.mapping d pn = some w ∧ w / PTE_U % 2 ≠ 0)
    {fuel : Nat} (enough : buf.length ≤ fuel) :
    Returns k (Vm.copyoutLoop d fuel va buf) m fun r m' => r = true ∧ m'.free = m.free ∧ SameTables m d m' := by
  induction fuel generalizing m va buf with
  | zero => exact Returns.pure ⟨rfl, rfl, rfl, fun _ _ _ _ => rfl⟩
  | succ fuel ih =>
    unfold Vm.copyoutLoop
    by_cases empty : buf.length = 0
    · rw [if_pos empty]
      exact Returns.pure ⟨rfl, rfl, rfl, fun _ _ _ _ => rfl⟩
    · rw [if_neg empty]
      have first : va / PGSIZE * PGSIZE < va + buf.length := by
        have below := Nat.div_mul_le_self va PGSIZE
        omega
      obtain ⟨w, mapped, accessible⟩ := user _ (Nat.le_refl _) first
      obtain ⟨t, named, _, _⟩ := Memory.mapping_some mapped
      have page : va / PGSIZE < USERPAGES := by
        unfold USERPAGES
        unfold KERNBASE PGSIZE at *
        omega
      have here : va / PGSIZE * PGSIZE / PGSIZE = va / PGSIZE := Nat.mul_div_cancel _ (by decide)
      have table := own.table _ (table_index (user_inside page)) t named
      refine .bind (uva2ka_reads own.dir table.1 named here) fun r m₁ known => ?_
      obtain ⟨rfl, rfl⟩ := known
      rw [mapped, Option.filter_some_pos (by simp [accessible])]
      dsimp only [Option.map_some]
      obtain ⟨_, missing, apart, untabled⟩ := own.page _ page w mapped
      refine .bind (storeBytes_returns missing _ _) fun _ m₂ stored => ?_
      obtain ⟨free, kept⟩ := stored
      have same : SameTables m₁ d m₂ := .of_kept apart untabled kept
      have own₂ : OwnPages k m₂ d := own.congr (fun g member => free ▸ member) same
      have wraps : uint ((va / PGSIZE * PGSIZE : Nat) + PGSIZE) = (va / PGSIZE + 1) * PGSIZE := by
        unfold KERNBASE at inside
        unfold uint PGSIZE
        omega
      rw [wraps]
      have dropped : (buf.drop (min (PGSIZE - (va - va / PGSIZE * PGSIZE)) buf.length)).length =
          buf.length - min (PGSIZE - (va - va / PGSIZE * PGSIZE)) buf.length := List.length_drop
      by_cases done : va + buf.length ≤ (va / PGSIZE + 1) * PGSIZE
      · have rest : (buf.drop (min (PGSIZE - (va - va / PGSIZE * PGSIZE)) buf.length)).length = 0 := by
          rw [dropped]
          unfold PGSIZE at *
          omega
        cases fuel with
        | zero => exact Returns.pure ⟨rfl, free, same⟩
        | succ fuel =>
          unfold Vm.copyoutLoop
          rw [if_pos rest]
          exact Returns.pure ⟨rfl, free, same⟩
      · have bound : (va / PGSIZE + 1) * PGSIZE + (buf.drop (min (PGSIZE - (va - va / PGSIZE * PGSIZE)) buf.length)).length =
            va + buf.length := by
          rw [dropped]
          unfold PGSIZE at *
          omega
        have later : ∀ pn, (va / PGSIZE + 1) * PGSIZE / PGSIZE ≤ pn → pn * PGSIZE < (va / PGSIZE + 1) * PGSIZE +
            (buf.drop (min (PGSIZE - (va - va / PGSIZE * PGSIZE)) buf.length)).length →
            ∃ w, m₂.mapping d pn = some w ∧ w / PTE_U % 2 ≠ 0 := by
          intro pn above below
          rw [bound] at below
          have user' : pn < USERPAGES := by
            unfold USERPAGES
            unfold KERNBASE PGSIZE at *
            omega
          rw [same.mapping (user_inside user')]
          refine user pn ?_ below
          rw [Nat.mul_div_cancel _ (by decide)] at above
          omega
        have fewer : (buf.drop (min (PGSIZE - (va - va / PGSIZE * PGSIZE)) buf.length)).length ≤ fuel := by
          rw [dropped]
          unfold PGSIZE at *
          omega
        refine (ih own₂ (by omega) later fewer).mono fun r m' left => ?_
        exact ⟨left.1, left.2.1.trans free, same.trans left.2.2⟩

/-- `copyout` to a page that the user cannot access fails, unless there is no page table. -/
theorem copyout_yields (own : OwnPages k m d) (inside : va < 2 ^ 32) (some_bytes : buf ≠ [])
    (hidden : ∀ w, m.mapping d (va / PGSIZE) = some w → w / PTE_U % 2 = 0) :
    Yields k (Vm.copyout d va buf) m fun r m' => r = false ∧ m' = m := by
  have page : va / PGSIZE < TABLEPAGES := by
    unfold TABLEPAGES NPDENTRIES PGSIZE
    omega
  have here : va / PGSIZE * PGSIZE / PGSIZE = va / PGSIZE := Nat.mul_div_cancel _ (by decide)
  obtain ⟨byte, rest, rfl⟩ := List.exists_cons_of_ne_nil some_bytes
  unfold Vm.copyout
  rw [List.length_cons]
  unfold Vm.copyoutLoop
  rw [if_neg (show (byte :: rest).length ≠ 0 from Nat.succ_ne_zero _)]
  have read : Yields k (Vm.uva2ka d (va / PGSIZE * PGSIZE)) m fun r m' => r = none ∧ m' = m := by
    cases named : frameOf (m.word d (va / PGSIZE / NPDENTRIES)) with
    | none =>
      unfold Vm.uva2ka
      refine (walkpgdir_reads own.dir _).yields.bind fun r m₁ known => ?_
      obtain ⟨rfl, rfl⟩ := known
      rw [PDX_eq, here, named]
      exact .panic _
    | some t =>
      have table := own.table _ (table_index page) t named
      refine (uva2ka_reads own.dir table.1 named here).yields.mono fun r m' known => ⟨?_, known.1⟩
      have refused : (m.mapping d (va / PGSIZE)).filter (fun w => w / PTE_U % 2 ≠ 0) = none := by
        rw [Option.filter_eq_none_iff]
        intro w mapped
        simpa using hidden w mapped
      rw [known.2, refused]
      rfl
  refine read.bind fun r m₁ known => ?_
  obtain ⟨rfl, rfl⟩ := known
  exact Yields.pure ⟨rfl, rfl⟩

end Copies

end Xv6
