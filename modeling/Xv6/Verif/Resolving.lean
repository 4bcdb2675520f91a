import Xv6.Verif.Reachability

/-!
# Path resolution

A path is a list of components: its longest pieces without a slash, cut to `DIRSIZ` bytes. `namei`
looks them up in turn, `nameiparent` all but the last; each takes one reference, to the inode it
returns.
-/

namespace Xv6

/-- The components of a path: its longest pieces without a slash, cut to `DIRSIZ` bytes. -/
def components (path : List UInt8) : List Name :=
  ((path.splitOn slash).filter fun piece => !piece.isEmpty).map fun piece => piece.take DIRSIZ

/-- Looking up names in turn leads from one inode to another. -/
inductive LeadsTo (s : Names) : Nat → List Name → Nat → Prop where
  /-- Nothing to look up. -/
  | here (ip : Nat) : LeadsTo s ip [] ip
  /-- One name in a directory, then the rest. -/
  | step {ip next off j : Nat} {name : Name} {rest : List Name} : (s.inode ip).type = T_DIR →
      findEntry name (s.inode ip).entries = some (next, off) → LeadsTo s next rest j → LeadsTo s ip (name :: rest) j

/-- The walk arrives at an inode that has a name to resolve and is no directory or lacks the entry. -/
def Stuck (s : Names) (ip : Nat) (names : List Name) : Prop :=
  ∃ before name after j, names = before ++ name :: after ∧ LeadsTo s ip before j ∧
    ((s.inode j).type ≠ T_DIR ∨ findEntry name (s.inode j).entries = none)

/-- There is no last name, or the walk over the others fails or ends in an inode that is no directory. -/
def Parentless (s : Names) (ip : Nat) (names : List Name) : Prop :=
  names = [] ∨ ∃ before name, names = before ++ [name] ∧
    (Stuck s ip before ∨ ∃ dp, LeadsTo s ip before dp ∧ (s.inode dp).type ≠ T_DIR)

/-- A tree of directories with a process in it: entries name inodes that are not free, and those
without links are held. -/
structure Tree (s : Names) (p : Nat) : Prop where
  held : Held s
  named : NoDangling s
  /-- There is a root. -/
  root : (s.inode ROOTINO).type ≠ 0
  /-- The current directory. -/
  cwd : ∃ d, s.cwd p = some d ∧ (s.inode d).type ≠ 0

/-! ## Components -/

section Components

variable {path rest : List UInt8} {name : Name}

/-- A slash in front makes no component. -/
theorem components_slash (path : List UInt8) : components (slash :: path) = components path := by
  unfold components
  rw [List.splitOn_cons_eq_if_modifyHead, if_pos (beq_self_eq_true slash), List.filter_cons_of_neg (by simp)]

/-- Nor do several. -/
theorem components_dropWhile (path : List UInt8) : components (path.dropWhile (· == slash)) = components path := by
  induction path with
  | nil => rfl
  | cons c path ih =>
    by_cases sep : (c == slash) = true
    · rw [List.dropWhile_cons_of_pos (p := (· == slash)) sep, ih, eq_of_beq sep, components_slash]
    · rw [List.dropWhile_cons_of_neg (p := (· == slash)) sep]

/-- The first component is what stands before the next slash. -/
theorem components_cons {c : UInt8} (other : (c == slash) = false) (path : List UInt8) :
    components (c :: path) = ((c :: path).takeWhile (· != slash)).take DIRSIZ ::
      components ((c :: path).dropWhile (· != slash)) := by
  have piece : ((c :: path).takeWhile (· != slash)).isEmpty = false := by
    rw [List.takeWhile_cons_of_pos (by simp [bne, other])]
    rfl
  have plain : slash ∉ (c :: path).takeWhile (· != slash) := by
    intro member
    have kept := List.all_takeWhile (p := (· != slash)) (l := c :: path)
    have refused := List.all_eq_true.mp kept slash member
    simp at refused
  have split := List.takeWhile_append_dropWhile (p := (· != slash)) (l := c :: path)
  generalize (c :: path).takeWhile (· != slash) = first at piece plain split ⊢
  cases after : (c :: path).dropWhile (· != slash) with
  | nil =>
    rw [after, List.append_nil] at split
    unfold components
    rw [← split, List.splitOn_eq_singleton plain, List.filter_cons_of_pos (by simp [piece])]
    rfl
  | cons d later =>
    have sep : d = slash := by
      have stopped := List.head?_dropWhile_not (· != slash) (c :: path)
      rw [after] at stopped
      simpa using stopped
    rw [after, sep] at split
    rw [sep]
    unfold components
    rw [← split, List.splitOn_append_cons_self, List.splitOn_eq_singleton plain, List.singleton_append,
      List.filter_cons_of_pos (by simp [piece])]
    rw [show List.splitOn slash (slash :: later) = [] :: List.splitOn slash later from by
      rw [List.splitOn_cons_eq_if_modifyHead, if_pos (beq_self_eq_true slash)]]
    rw [List.filter_cons_of_neg (by simp)]
    rfl

/-- `skipelem` finds no element when there is no component. -/
theorem skipelem_none (missed : skipelem path = none) : components path = [] := by
  rw [← components_dropWhile]
  unfold skipelem at missed
  split at missed
  · rename_i bare
    rw [bare]
    rfl
  · contradiction

/-- `skipelem` takes the first component off; the path that is left is shorter, and empty only when it
has no component. -/
theorem skipelem_some (found : skipelem path = some (name, rest)) :
    components path = name :: components rest ∧ rest.length < path.length ∧ (rest = [] ↔ components rest = []) := by
  rw [← components_dropWhile]
  unfold skipelem at found
  have shorter := (List.dropWhile_suffix (· == slash) (l := path)).length_le
  have stopped := List.head?_dropWhile_not (· == slash) path
  generalize path.dropWhile (· == slash) = bare at found shorter stopped ⊢
  cases bare with
  | nil => contradiction
  | cons c later =>
    dsimp only at found
    cases found
    change (c == slash) = false at stopped
    rw [components_cons stopped, components_dropWhile]
    have tail := (List.dropWhile_suffix (· == slash) (l := (c :: later).dropWhile (· != slash))).length_le
    have proper : ((c :: later).dropWhile (· != slash)).length < (c :: later).length := by
      rw [List.dropWhile_cons_of_pos (p := (· != slash)) (by simp [bne, stopped])]
      exact Nat.lt_succ_of_le (List.dropWhile_suffix _).length_le
    refine ⟨rfl, by omega, fun none => ?_, fun none => ?_⟩
    · rw [← components_dropWhile, none]
      rfl
    · rw [← components_dropWhile] at none
      have head := List.head?_dropWhile_not (· == slash) ((c :: later).dropWhile (· != slash))
      cases left : ((c :: later).dropWhile (· != slash)).dropWhile (· == slash) with
      | nil => rfl
      | cons d more =>
        rw [left] at none head
        rw [components_cons head] at none
        contradiction

end Components

/-! ## Walks -/

section Walks

variable {s : Names} {ip next off j : Nat} {name : Name} {names before : List Name}

/-- The walk over no name. -/
theorem leadsTo_nil : LeadsTo s ip [] j ↔ j = ip := by
  constructor
  · intro leads
    cases leads
    rfl
  · rintro rfl
    exact .here j

/-- The walk over a name that is found. -/
theorem leadsTo_cons (dir : (s.inode ip).type = T_DIR) (found : findEntry name (s.inode ip).entries = some (next, off)) :
    LeadsTo s ip (name :: names) j ↔ LeadsTo s next names j := by
  constructor
  · intro leads
    cases leads with
    | step _ found' rest =>
      rw [found] at found'
      cases found'
      exact rest
  · exact .step dir found

/-- A walk over no name is not stuck. -/
theorem not_stuck_nil : ¬ Stuck s ip [] := by
  rintro ⟨before, name, after, _, split, _⟩
  exact List.append_ne_nil_of_right_ne_nil before (List.cons_ne_nil name after) split.symm

/-- A walk is stuck at its first name. -/
theorem stuck_here (lost : (s.inode ip).type ≠ T_DIR ∨ findEntry name (s.inode ip).entries = none) :
    Stuck s ip (name :: names) :=
  ⟨[], name, names, ip, rfl, .here ip, lost⟩

/-- A walk is stuck behind a name that is found exactly when the rest is. -/
theorem stuck_cons (dir : (s.inode ip).type = T_DIR) (found : findEntry name (s.inode ip).entries = some (next, off)) :
    Stuck s ip (name :: names) ↔ Stuck s next names := by
  constructor
  · rintro ⟨before, last, after, j, split, leads, lost⟩
    cases leads with
    | here =>
      cases split
      rcases lost with file | absent
      · exact absurd dir file
      · rw [found] at absent
        contradiction
    | step _ found' rest =>
      cases split
      rw [found] at found'
      cases found'
      exact ⟨_, last, after, j, rfl, rest, lost⟩
  · rintro ⟨before, last, after, j, rfl, leads, lost⟩
    exact ⟨name :: before, last, after, j, rfl, .step dir found leads, lost⟩

/-- A stuck walk leads nowhere. -/
theorem Stuck.leads_nowhere (stuck : Stuck s ip names) : ¬ LeadsTo s ip names j := by
  intro leads
  induction leads with
  | here => exact not_stuck_nil stuck
  | step dir found _ ih => exact ih ((stuck_cons dir found).mp stuck)

/-- A walk leads to one inode. -/
theorem LeadsTo.unique {k : Nat} (first : LeadsTo s ip names j) (second : LeadsTo s ip names k) : j = k := by
  induction first with
  | here => exact (leadsTo_nil.mp second).symm
  | step dir found _ ih => exact ih ((leadsTo_cons dir found).mp second)

/-- The walk of `namei` leads where the components lead, or is stuck. -/
theorem walkFrom_namei (fuel : Nat) : ∀ (ip : Nat) (path : List UInt8), path.length < fuel →
    (∃ j, s.walkFrom false fuel ip path = some (j, []) ∧ LeadsTo s ip (components path) j) ∨
      s.walkFrom false fuel ip path = none ∧ Stuck s ip (components path) := by
  induction fuel with
  | zero => exact fun _ path short => absurd short (Nat.not_lt_zero path.length)
  | succ fuel ih =>
    intro ip path short
    unfold Names.walkFrom
    cases skipped : skipelem path with
    | none =>
      rw [skipelem_none skipped]
      exact .inl ⟨ip, rfl, .here ip⟩
    | some element =>
      obtain ⟨name, rest⟩ := element
      obtain ⟨split, shorter, _⟩ := skipelem_some skipped
      rw [split]
      dsimp only
      by_cases dir : (s.inode ip).type = T_DIR
      · rw [if_neg (fun other => other dir), if_neg (by simp)]
        cases found : findEntry name (s.inode ip).entries with
        | none => exact .inr ⟨rfl, stuck_here (.inr found)⟩
        | some entry =>
          obtain ⟨next, off⟩ := entry
          dsimp only
          rw [stuck_cons dir found]
          simp only [leadsTo_cons dir found]
          exact ih next rest (by omega)
      · rw [if_pos dir]
        exact .inr ⟨rfl, stuck_here (.inl dir)⟩

/-- A path with a name to resolve in front has no parent exactly when the rest has none. -/
theorem parentless_cons (dir : (s.inode ip).type = T_DIR) (found : findEntry name (s.inode ip).entries = some (next, off))
    (more : names ≠ []) (none : Parentless s next names) : Parentless s ip (name :: names) := by
  rcases none with empty | ⟨before, last, split, lost⟩
  · exact absurd empty more
  · refine .inr ⟨name :: before, last, by rw [split]; rfl, ?_⟩
    rcases lost with stuck | ⟨dp, leads, file⟩
    · exact .inl ((stuck_cons dir found).mpr stuck)
    · exact .inr ⟨dp, .step dir found leads, file⟩

/-- The walk of `nameiparent` leads to the directory of the last component, or there is none. -/
theorem walkFrom_nameiparent (fuel : Nat) : ∀ (ip : Nat) (path : List UInt8), path.length < fuel →
    (∃ before dp name, s.walkFrom true fuel ip path = some (dp, name) ∧ components path = before ++ [name] ∧
        LeadsTo s ip before dp ∧ (s.inode dp).type = T_DIR) ∨
      s.walkFrom true fuel ip path = none ∧ Parentless s ip (components path) := by
  induction fuel with
  | zero => exact fun _ path short => absurd short (Nat.not_lt_zero path.length)
  | succ fuel ih =>
    intro ip path short
    unfold Names.walkFrom
    cases skipped : skipelem path with
    | none => exact .inr ⟨rfl, .inl (skipelem_none skipped)⟩
    | some element =>
      obtain ⟨name, rest⟩ := element
      obtain ⟨split, shorter, ends⟩ := skipelem_some skipped
      rw [split]
      dsimp only
      by_cases dir : (s.inode ip).type = T_DIR
      · rw [if_neg (fun other => other dir)]
        by_cases last : rest = []
        · rw [if_pos (by simp [last]), ends.mp last]
          exact .inl ⟨[], ip, name, rfl, rfl, .here ip, dir⟩
        · have more : components rest ≠ [] := fun empty => last (ends.mpr empty)
          rw [if_neg (by simp [last])]
          cases found : findEntry name (s.inode ip).entries with
          | none =>
            obtain ⟨before, final, parts⟩ := (List.eq_nil_or_concat (components rest)).resolve_left more
            refine .inr ⟨rfl, .inr ⟨name :: before, final, ?_, .inl (stuck_here (.inr found))⟩⟩
            rw [parts, List.concat_eq_append]
            rfl
          | some entry =>
            obtain ⟨next, off⟩ := entry
            dsimp only
            rcases ih next rest (by omega) with ⟨before, dp, final, walked, parts, leads, listed⟩ | ⟨walked, lost⟩
            · exact .inl ⟨name :: before, dp, final, walked, by rw [parts]; rfl, .step dir found leads, listed⟩
            · exact .inr ⟨walked, parentless_cons dir found more lost⟩
      · rw [if_pos dir]
        refine .inr ⟨rfl, .inr ?_⟩
        rcases List.eq_nil_or_concat (components rest) with none | ⟨before, final, parts⟩
        · rw [none]
          exact ⟨[], name, rfl, .inr ⟨ip, .here ip, dir⟩⟩
        · refine ⟨name :: before, final, ?_, .inl (stuck_here (.inl dir))⟩
          rw [parts, List.concat_eq_append]
          rfl

end Walks

/-! ## Panics -/

/-- The panic of `iget` when every cache entry is in use. -/
def noInodes : String := "iget: no inodes"

section Panics

variable {α β : Type} {s t : Names} {ip i : Nat} {name : Name} {message : String} {nameiparent : Bool}

/-- A panic of one piece of code after the other. -/
theorem bind_panics {x : Except String α} {next : α → Except String β} (panics : (x >>= next) = .error message) :
    x = .error message ∨ ∃ value, x = .ok value ∧ next value = .error message := by
  cases x with
  | ok value => exact .inr ⟨value, rfl, panics⟩
  | error other =>
    cases panics
    exact .inl rfl

/-- `iget` panics only when every cache entry is in use. -/
theorem iget_panics (panics : t.iget i = .error message) : message = noInodes ∧ NINODE ≤ t.cached := by
  unfold Names.iget at panics
  split at panics
  · contradiction
  · split at panics
    · rename_i full
      cases panics
      exact ⟨rfl, full⟩
    · contradiction

/-- One reference fills one cache entry at most. -/
theorem Borrowed.cached_le (borrowed : Borrowed s [ip] t) : t.cached ≤ s.cached + 1 := by
  unfold Names.cached
  rw [List.countP_eq_length_filter, List.countP_eq_length_filter]
  have distinct := (List.nodup_range (n := NINODES)).filter fun inum => decide (0 < t.ref inum)
  have covered : (List.range NINODES).filter (fun inum => decide (0 < t.ref inum)) ⊆
      ip :: (List.range NINODES).filter fun inum => decide (0 < s.ref inum) := by
    intro inum member
    obtain ⟨inside, counted⟩ := List.mem_filter.mp member
    have positive : 0 < t.ref inum := of_decide_eq_true counted
    rw [borrowed.ref inum] at positive
    by_cases here : inum = ip
    · rw [here]
      exact List.mem_cons_self
    · rw [List.count_cons_of_ne (Ne.symm here), List.count_nil, Nat.add_zero] at positive
      exact List.mem_cons_of_mem _ (List.mem_filter.mpr ⟨inside, decide_eq_true positive⟩)
  exact (List.subperm_of_subset distinct covered).length_le

/-- `ilock` of an inode that has been taken and is not free. -/
theorem Borrowed.ilock_ok {taken : List Nat} (borrowed : Borrowed s taken t) (member : i ∈ taken) (used : (s.inode i).type ≠ 0) :
    t.ilock i ≠ .error message := by
  have counted : t.ref i ≠ 0 := by
    have known := borrowed.ref i
    have positive := List.count_pos_iff.mpr member
    omega
  unfold Names.ilock
  rw [if_neg counted, borrowed.inode, if_neg used]
  split
  · exact nofun
  · exact nofun

/-- `dirlookup` in a directory panics only when every cache entry is in use. -/
theorem dirlookup_panics (dir : (t.inode ip).type = T_DIR) (panics : t.dirlookup ip name = .error message) :
    message = noInodes ∧ NINODE ≤ t.cached := by
  unfold Names.dirlookup at panics
  rw [if_neg (fun other => other dir)] at panics
  split at panics
  · contradiction
  · rcases bind_panics panics with panics | ⟨_, _, panics⟩
    · exact iget_panics panics
    · contradiction

/-- The loop of `namex` panics only when the cache is full but for one entry. -/
theorem namexLoop_panics (held : Held s) (named : NoDangling s) (fuel : Nat) : ∀ {t : Names} {ip : Nat} {path : List UInt8},
    Borrowed s [ip] t → (s.inode ip).type ≠ 0 → Names.namexLoop nameiparent fuel t ip path = .error message →
    message = noInodes ∧ NINODE ≤ s.cached + 1 := by
  induction fuel with
  | zero => exact fun _ _ panics => nomatch panics
  | succ fuel ih =>
    intro t ip path borrowed used panics
    unfold Names.namexLoop at panics
    split at panics
    · split at panics
      · contradiction
      · contradiction
    · rename_i name rest _
      rcases bind_panics panics with panics | ⟨u, locked, panics⟩
      · exact absurd panics (borrowed.ilock_ok List.mem_cons_self used)
      · have locking : Ends True (t.ilock ip) _ := borrowed.ilock List.mem_cons_self fun _ => used
        obtain ⟨borrowed, _, _⟩ := locking.ok locked
        split at panics
        · contradiction
        · rename_i listed
          have dir : (u.inode ip).type = T_DIR := not_not.mp listed
          split at panics
          · contradiction
          · rcases bind_panics panics with panics | ⟨⟨r, v⟩, looked, panics⟩
            · obtain ⟨same, full⟩ := dirlookup_panics dir panics
              exact ⟨same, Nat.le_trans full borrowed.cached_le⟩
            · rw [borrowed.inode] at dir
              have looking : Ends True (u.dirlookup ip name) _ := borrowed.dirlookup held dir name
              obtain ⟨entry, taking⟩ := looking.ok looked
              change r = _ at entry
              cases r with
              | none => exact nomatch panics
              | some found =>
                obtain ⟨e, place, inum, nonzero, _⟩ := findEntry_some entry.symm
                have target : (s.inode found.1).type ≠ 0 := by
                  rw [← inum] at nonzero ⊢
                  exact named ip dir e (List.mem_of_getElem? place) nonzero
                exact ih (taking.iput_second held) target panics

/-- `namex` panics only when the cache is full but for one entry. -/
theorem namex_panics {p : Nat} {path : List UInt8} (tree : Tree s p) (panics : s.namex p path nameiparent = .error message) :
    message = noInodes ∧ NINODE ≤ s.cached + 1 := by
  obtain ⟨d, current, allocated⟩ := tree.cwd
  unfold Names.namex at panics
  rcases bind_panics panics with panics | ⟨⟨ip, u⟩, started, panics⟩
  · unfold Names.start at panics
    split at panics
    · rcases bind_panics panics with panics | ⟨_, _, panics⟩
      · obtain ⟨same, full⟩ := iget_panics panics
        exact ⟨same, Nat.le_succ_of_le full⟩
      · contradiction
    · rw [current] at panics
      contradiction
  · have taking : Borrowed s [ip] u ∧ (s.inode ip).type ≠ 0 := by
      unfold Names.start at started
      split at started
      · have rooted : Ends True (do let u ← s.iget ROOTINO; pure (ROOTINO, u)) fun r => r.1 = ROOTINO ∧ Borrowed s [ROOTINO] r.2 :=
          ((Borrowed.refl s).iget tree.held ROOTINO).bind fun u taking => Ends.pure ⟨rfl, taking⟩
        obtain ⟨here, borrowed⟩ := rooted.ok started
        cases here
        exact ⟨borrowed, tree.root⟩
      · rw [current] at started
        cases started
        exact ⟨Borrowed.idup d allocated, allocated⟩
    exact namexLoop_panics tree.held tree.named _ taking.1 taking.2 panics

end Panics

/-- What `namei` returns for a path whose walk begins at an inode: the inode that the components lead
to, with one more reference, or nothing when the walk is stuck; with no cache entry left it panics. -/
def Names.NameiWalks (s : Names) (p ip : Nat) (path : List UInt8) : Prop :=
  match s.namex p path false with
  | .ok (result, t) => (∀ j, result.map Prod.fst = some j ↔ LeadsTo s ip (components path) j) ∧
      (result = none ↔ Stuck s ip (components path)) ∧ Borrowed s (result.elim [] fun found => [found.1]) t
  | .error message => message = noInodes ∧ NINODE ≤ s.cached + 1

/-- What `nameiparent` returns: the directory that all components but the last lead to, with one more
reference, and a name whose lookup there gives the result of `namei`. -/
def Names.NameiparentWalks (s : Names) (p ip : Nat) (path : List UInt8) : Prop :=
  match s.namex p path true with
  | .ok (result, t) => (result = none ↔ Parentless s ip (components path)) ∧
      (∀ dp name, result = some (dp, name) → (s.inode dp).type = T_DIR ∧
        (∃ before, components path = before ++ [name] ∧ LeadsTo s ip before dp) ∧
        ∀ whole u entry v, s.namex p path false = .ok (whole, u) → s.dirlookup dp name = .ok (entry, v) →
          whole.map Prod.fst = entry.map Prod.fst) ∧
      Borrowed s (result.elim [] fun found => [found.1]) t
  | .error message => message = noInodes ∧ NINODE ≤ s.cached + 1

section Resolving

variable {s : Names} {p ip : Nat} {path : List UInt8}

/-- The walk over one more name. -/
theorem leadsTo_snoc {before : List Name} {name : Name} {dp j : Nat} (leads : LeadsTo s ip before dp) (dir : (s.inode dp).type = T_DIR) :
    LeadsTo s ip (before ++ [name]) j ↔ ∃ off, findEntry name (s.inode dp).entries = some (j, off) := by
  induction leads with
  | here ip =>
    constructor
    · intro walk
      cases walk with
      | step _ found rest =>
        cases rest
        exact ⟨_, found⟩
    · rintro ⟨off, found⟩
      exact .step dir found (.here j)
  | step listed found _ ih =>
    rw [List.cons_append, leadsTo_cons listed found]
    exact ih dir

/-- A path with a parent is no path without one. -/
theorem Parentless.no_parent {names before : List Name} {name : Name} {dp : Nat} (lost : Parentless s ip names)
    (split : names = before ++ [name]) (leads : LeadsTo s ip before dp) : (s.inode dp).type ≠ T_DIR := by
  rcases lost with empty | ⟨before', name', split', stuck | ⟨dp', leads', file⟩⟩
  · rw [empty] at split
    exact absurd split.symm (List.append_ne_nil_of_right_ne_nil before (List.cons_ne_nil name []))
  · rw [split'] at split
    obtain ⟨same, _⟩ := List.append_inj' split rfl
    rw [same] at stuck
    exact absurd leads stuck.leads_nowhere
  · rw [split'] at split
    obtain ⟨same, _⟩ := List.append_inj' split rfl
    rw [same] at leads'
    rw [leads.unique leads']
    exact file

/-- `namei` and `nameiparent` walk over the components of every path in every tree, from the root for a
path that starts with a slash and from the current directory for the others. -/
theorem paths_resolve (tree : Tree s p) (path : List UInt8) :
    ∃ ip, s.origin p path = some ip ∧ s.NameiWalks p ip path ∧ s.NameiparentWalks p ip path := by
  obtain ⟨d, current, allocated⟩ := tree.cwd
  have cwd : ∀ d', s.cwd p = some d' → (s.inode d').type ≠ 0 := by
    intro d' same
    rw [current] at same
    cases same
    exact allocated
  obtain ⟨ip, origin⟩ : ∃ ip, s.origin p path = some ip := by
    unfold Names.origin
    split
    · exact ⟨ROOTINO, rfl⟩
    · exact ⟨d, current⟩
  have resolved : ∀ nameiparent, s.resolve p path nameiparent = s.walkFrom nameiparent (path.length + 1) ip path := by
    intro nameiparent
    unfold Names.resolve
    rw [origin]
  have walks : ∀ nameiparent r, s.namex p path nameiparent = .ok r →
      Walked True s nameiparent (s.walkFrom nameiparent (path.length + 1) ip path) r := by
    intro nameiparent r returned
    rw [← resolved]
    exact (namex_walks tree.held (fun _ => tree.named) tree.root p cwd path).ok returned
  -- what `namei` finds, whatever its references
  have whole := walkFrom_namei (s := s) (path.length + 1) ip path (Nat.lt_succ_self _)
  refine ⟨ip, origin, ?_, ?_⟩
  · unfold Names.NameiWalks
    cases returned : s.namex p path false with
    | error message => exact namex_panics tree returned
    | ok r =>
      obtain ⟨result, t⟩ := r
      have walked := walks false _ returned
      have same := walked.result
      change result = _ at same
      refine ⟨?_, ?_, walked.borrowed⟩
      · intro j
        rcases whole with ⟨k, found, leads⟩ | ⟨missed, stuck⟩
        · rw [same, found]
          constructor
          · intro here
            cases here
            exact leads
          · intro there
            rw [leads.unique there]
            rfl
        · rw [same, missed]
          exact ⟨nofun, fun leads => absurd leads stuck.leads_nowhere⟩
      · rcases whole with ⟨k, found, leads⟩ | ⟨missed, stuck⟩
        · rw [same, found]
          exact ⟨nofun, fun stuck => absurd leads stuck.leads_nowhere⟩
        · rw [same, missed]
          exact ⟨fun _ => stuck, fun _ => rfl⟩
  · unfold Names.NameiparentWalks
    cases returned : s.namex p path true with
    | error message => exact namex_panics tree returned
    | ok r =>
      obtain ⟨result, t⟩ := r
      have walked := walks true _ returned
      have same := walked.result
      change result = _ at same
      have parent := walkFrom_nameiparent (s := s) (path.length + 1) ip path (Nat.lt_succ_self _)
      refine ⟨?_, fun dp name known => ?_, walked.borrowed⟩
      · rcases parent with ⟨before, dp, name, found, split, leads, dir⟩ | ⟨missed, lost⟩
        · rw [same, found]
          exact ⟨nofun, fun lost => absurd dir (lost.no_parent split leads)⟩
        · rw [same, missed]
          exact ⟨fun _ => lost, fun _ => rfl⟩
      · rw [known] at same
        rcases parent with ⟨before, dp', name', found, split, leads, dir⟩ | ⟨missed, _⟩
        · rw [found] at same
          cases same
          refine ⟨dir, ⟨before, split, leads⟩, fun outcome u entry v namei looked => ?_⟩
          have target := (walks false _ namei).result
          change outcome = _ at target
          have looking : Ends True (s.dirlookup dp name) _ := (Borrowed.refl s).dirlookup tree.held dir name
          obtain ⟨here, _⟩ := looking.ok looked
          change entry = _ at here
          rw [target, here]
          rw [split] at whole
          rcases whole with ⟨k, reached, on⟩ | ⟨missed, stuck⟩
          · obtain ⟨off, there⟩ := (leadsTo_snoc leads dir).mp on
            rw [reached, there]
            rfl
          · rw [missed]
            cases absent : findEntry name (s.inode dp).entries with
            | none => rfl
            | some known =>
              have on : LeadsTo s ip (before ++ [name]) known.1 := (leadsTo_snoc leads dir).mpr ⟨known.2, absent⟩
              exact absurd on stuck.leads_nowhere
        · rw [missed] at same
          contradiction

/-- Between the calls of a run whose links are counted and whose parents stay allocated there is a tree. -/
theorem Sound.tree {tidy : Prop} {procs : List Nat} {d : Nat} (sound : Sound tidy procs settled [] s) (upward : Upward s.inode)
    (process : s.cwd p = some d) : Tree s p where
  held := sound.held
  named := sound.linked.noDangling upward
  root := dir_used sound.linked.root
  cwd := ⟨d, process, sound.used (sound.cwd_held process)⟩

end Resolving

/-- The path `//f/` on an image with a file `f`: it has one component, in the root. -/
theorem paths_resolve_booted :
    ∃ ip, (booted [[102]] [1]).origin 1 [47, 47, 102, 47] = some ip ∧ (booted [[102]] [1]).NameiWalks 1 ip [47, 47, 102, 47] ∧
      (booted [[102]] [1]).NameiparentWalks 1 ip [47, 47, 102, 47] ∧ components [47, 47, 102, 47] = [[102]] := by
  have sound : Sound False [1] settled [] (booted [[102]] [1]) := booted_sound (by decide) (by decide)
  have tree : Tree (booted [[102]] [1]) 1 := sound.tree (booted_upward (by decide)) rfl
  obtain ⟨ip, origin, namei, nameiparent⟩ := paths_resolve tree [47, 47, 102, 47]
  exact ⟨ip, origin, namei, nameiparent, by decide⟩

end Xv6
