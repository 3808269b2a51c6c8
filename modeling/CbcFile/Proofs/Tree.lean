/-
Walking a tree. A walk that succeeds ends at the nominal place of its names (`nominal_of_walk`). A path `Leads` to a last
step in a directory; that step decides what stands where the path leads (`Leads.stat_eq`) and whether a file can be
renamed to it (`Leads.target_eq`, `target_eq_ok`).

A file put at a free spot under a name that no step uses cannot be seen by a walk (`walk_put_file`). A file put where no
directory is hinders no walk that could be made (`walk_put_of_ok`) and opens no way but to itself (`walk_of_put`), so a
path of another place leads to something exactly if it did before (`stat_put_iff`).
-/
import Mathlib.Tactic
import CbcFile.Tree

namespace CbcFile.Tree

/-! ## Walks -/

/-- one step of a walk, whatever stands in its way -/
def climb (here : Location) (name : Bytes) : Location :=
  if name = Path.dot then here else if name = Path.dotDot then here.dropLast else here ++ [name]

theorem nominal_eq (tree : Tree) (path : Path) : tree.nominal path = path.segments.foldl climb (tree.start path) := rfl

theorem climb_of_ne {here : Location} {name : Bytes} (hdot : name ≠ Path.dot) (hup : name ≠ Path.dotDot) :
    climb here name = here ++ [name] := by
  simp [climb, hdot, hup]

/-- ordinary names only lead down -/
theorem foldl_climb {names : List Bytes} (h : ∀ name ∈ names, name ≠ Path.dot ∧ name ≠ Path.dotDot) (here : Location) :
    names.foldl climb here = here ++ names := by
  induction names generalizing here with
  | nil => exact (List.append_nil here).symm
  | cons name rest ih =>
    obtain ⟨hdot, hup⟩ := h name List.mem_cons_self
    rw [List.foldl_cons, climb_of_ne hdot hup, ih fun other ho => h other (List.mem_cons_of_mem name ho),
      List.append_assoc, List.singleton_append]

/-- **A step that can be made**: from a directory, and by an ordinary name only to something that is there -/
theorem step_eq_ok {tree : Tree} {here next : Location} {name : Bytes} : tree.step here name = .ok next ↔
    tree.find here = some .directory ∧ next = climb here name ∧
      (name ≠ Path.dot → name ≠ Path.dotDot → name.length ≤ longestName ∧ tree.find next ≠ none) := by
  unfold step climb
  by_cases hdir : tree.find here = some .directory
  swap
  · simp [hdir]
  rw [if_neg (not_not.2 hdir)]
  by_cases hdot : name = Path.dot
  · rw [if_pos hdot, if_pos hdot]
    simp [hdir, hdot, eq_comm]
  by_cases hup : name = Path.dotDot
  · rw [if_neg hdot, if_pos hup, if_neg hdot, if_pos hup]
    simp [hdir, hup, eq_comm]
  rw [if_neg hdot, if_neg hup, if_neg hdot, if_neg hup]
  constructor
  · intro h
    split_ifs at h with hlen hnone
    obtain rfl := Except.ok.inj h
    exact ⟨hdir, rfl, fun _ _ => ⟨not_lt.1 hlen, hnone⟩⟩
  · rintro ⟨-, rfl, hname⟩
    obtain ⟨hlen, hfound⟩ := hname hdot hup
    rw [if_neg (not_lt.2 hlen), if_neg hfound]

theorem step_eq_climb {tree : Tree} {here next : Location} {name : Bytes} (h : tree.step here name = .ok next) :
    next = climb here name :=
  (step_eq_ok.1 h).2.1

theorem directory_of_step {tree : Tree} {here next : Location} {name : Bytes} (h : tree.step here name = .ok next) :
    tree.find here = some .directory :=
  (step_eq_ok.1 h).1

theorem length_of_step {tree : Tree} {here next : Location} {name : Bytes} (h : tree.step here name = .ok next)
    (hdot : name ≠ Path.dot) (hup : name ≠ Path.dotDot) : name.length ≤ longestName :=
  ((step_eq_ok.1 h).2.2 hdot hup).1

theorem walk_append (tree : Tree) (here : Location) (names more : List Bytes) :
    tree.walk here (names ++ more) =
      match tree.walk here names with
      | .error failure => .error failure
      | .ok place => tree.walk place more := by
  induction names generalizing here with
  | nil => rfl
  | cons name rest ih =>
    simp only [List.cons_append, walk]
    cases tree.step here name with
    | error failure => rfl
    | ok next => exact ih next

theorem walk_append_ok {tree : Tree} {here : Location} {names more : List Bytes} {place : Location}
    (h : tree.walk here (names ++ more) = .ok place) :
    ∃ between, tree.walk here names = .ok between ∧ tree.walk between more = .ok place := by
  rw [walk_append] at h
  cases hw : tree.walk here names with
  | error failure => rw [hw] at h; cases h
  | ok between => exact ⟨between, rfl, by rw [hw] at h; exact h⟩

theorem nominal_of_walk {tree : Tree} {here place : Location} {names : List Bytes}
    (h : tree.walk here names = .ok place) : place = names.foldl climb here := by
  induction names generalizing here with
  | nil => exact (Except.ok.inj h).symm
  | cons name rest ih =>
    rw [walk] at h
    cases hs : tree.step here name with
    | error failure => rw [hs] at h; cases h
    | ok next =>
      rw [hs] at h
      rw [List.foldl_cons, ← step_eq_climb hs]
      exact ih h

/-- an ordinary name leads on if something stands there -/
theorem step_name {tree : Tree} {here : Location} {name : Bytes} (hhere : tree.find here = some .directory)
    (hdot : name ≠ Path.dot) (hup : name ≠ Path.dotDot) (hlen : name.length ≤ longestName) :
    tree.step here name = if tree.find (here ++ [name]) = none then .error .noEntry else .ok (here ++ [name]) := by
  have hl : ¬ longestName < name.length := by omega
  simp [step, hhere, hdot, hup, hl]

/-- a walk that gets to a directory comes from one -/
theorem directory_of_walk {tree : Tree} {here place : Location} {names : List Bytes}
    (h : tree.walk here names = .ok place) (hplace : tree.find place = some .directory) :
    tree.find here = some .directory := by
  cases names with
  | nil => rw [Except.ok.inj h]; exact hplace
  | cons name rest =>
    rw [walk] at h
    cases hs : tree.step here name with
    | error failure => rw [hs] at h; cases h
    | ok next => exact directory_of_step hs

/-! ## Reading -/

/-- **Where a path is resolved to**: where its walk ends, which must be a directory if it ends in a slash -/
theorem resolve_eq_ok {tree : Tree} {path : Path} {place : Location} : tree.resolve path = .ok place ↔
    (0 ∉ path.bytes ∧ path.bytes ≠ [] ∧ path.bytes.length ≤ longestPath) ∧
      tree.walk (tree.start path) path.segments = .ok place ∧
      (path.trailingSlash = true → tree.find place = some .directory) := by
  unfold resolve
  constructor
  · intro h
    split_ifs at h with hzero hnil hlong
    cases hw : tree.walk (tree.start path) path.segments with
    | error failure => rw [hw] at h; cases h
    | ok found =>
      rw [hw] at h
      simp only at h
      split_ifs at h with hslash
      obtain rfl := Except.ok.inj h
      exact ⟨⟨hzero, hnil, not_lt.1 hlong⟩, rfl, fun hc => not_not.1 fun hd => hslash ⟨hc, hd⟩⟩
  · rintro ⟨⟨hzero, hnil, hshort⟩, hwalk, hslash⟩
    rw [if_neg hzero, if_neg hnil, if_neg (not_lt.2 hshort), hwalk]
    exact if_neg fun hc => hc.2 (hslash hc.1)

theorem nominal_of_resolve {tree : Tree} {path : Path} {place : Location} (h : tree.resolve path = .ok place) :
    place = tree.nominal path := by
  obtain ⟨-, hwalk, -⟩ := resolve_eq_ok.1 h
  exact nominal_of_walk hwalk

theorem stat_eq_ok {tree : Tree} {path : Path} {node : Node} (h : tree.stat path = .ok node) :
    ∃ place, tree.resolve path = .ok place ∧ tree.find place = some node := by
  unfold stat at h
  cases hr : tree.resolve path with
  | error failure => rw [hr] at h; cases h
  | ok place =>
    rw [hr] at h
    simp only at h
    cases hf : tree.find place with
    | none => rw [hf] at h; cases h
    | some found =>
      rw [hf] at h
      rw [← Except.ok.inj h, ← hf]
      exact ⟨place, rfl, rfl⟩

theorem isFile_iff {tree : Tree} {path : Path} :
    tree.isFile path = true ↔ ∃ mode data, tree.stat path = .ok (.file mode data) := by
  unfold isFile
  cases tree.stat path with
  | error failure => simp
  | ok node => cases node <;> simp

theorem read_of_stat {tree : Tree} {path : Path} {mode : Nat} {data : Bytes}
    (h : tree.stat path = .ok (.file mode data)) : tree.read path = .ok data := by
  rw [read, h]

theorem directoryAt_of_walk {tree : Tree} {path : Path} {place : Location} (hzero : 0 ∉ path.bytes)
    (hnil : path.bytes ≠ []) (hshort : path.bytes.length ≤ longestPath)
    (hwalk : tree.walk (tree.start path) path.segments = .ok place)
    (hplace : tree.find place = some .directory) : tree.directoryAt path = .ok place := by
  have hresolve : tree.resolve path = .ok place := resolve_eq_ok.2 ⟨⟨hzero, hnil, hshort⟩, hwalk, fun _ => hplace⟩
  rw [directoryAt, hresolve]
  exact if_pos hplace

/-! ## The last step -/

/-- the path leads through directories to `here`, where `name` is its last step -/
structure Leads (tree : Tree) (path : Path) (here : Location) (name : Bytes) : Prop where
  zero : 0 ∉ path.bytes
  nonempty : path.bytes ≠ []
  short : path.bytes.length ≤ longestPath
  slash : path.trailingSlash = false
  walk : ∃ names, path.segments = names ++ [name] ∧ tree.walk (tree.start path) names = .ok here
  directory : tree.find here = some .directory

namespace Leads

variable {tree : Tree} {path : Path} {here : Location} {name : Bytes}

theorem resolve_eq (h : tree.Leads path here name) : tree.resolve path = tree.step here name := by
  obtain ⟨names, hseg, hwalk⟩ := h.walk
  have hw : tree.walk (tree.start path) path.segments = tree.step here name := by
    rw [hseg, walk_append, hwalk]
    simp only [Tree.walk]
    cases tree.step here name <;> rfl
  rw [resolve, if_neg h.zero, if_neg h.nonempty, if_neg (not_lt.2 h.short), hw, h.slash]
  cases tree.step here name <;> rfl

/-- a path leads to one last step only -/
theorem unique {there : Location} {last : Bytes} (h : tree.Leads path here name)
    (hother : tree.Leads path there last) : there = here ∧ last = name := by
  obtain ⟨names, hseg, hwalk⟩ := h.walk
  obtain ⟨others, hseg', hwalk'⟩ := hother.walk
  rw [hseg] at hseg'
  obtain ⟨rfl, hlast⟩ := List.append_inj' hseg' rfl
  rw [hwalk] at hwalk'
  exact ⟨(Except.ok.inj hwalk').symm, (List.singleton_inj.1 hlast).symm⟩

/-- **What stands where the path leads** -/
theorem stat_eq (h : tree.Leads path here name) (hlen : name.length ≤ longestName) :
    tree.stat path =
      match tree.find (climb here name) with
      | none => .error .noEntry
      | some node => .ok node := by
  have hstep : ∀ place, tree.step here name = .ok place →
      tree.stat path =
        match tree.find place with
        | none => .error .noEntry
        | some node => .ok node := by
    intro place hs
    rw [stat, h.resolve_eq, hs]
    simp only
    cases tree.find place <;> rfl
  by_cases hdot : name = Path.dot
  · apply hstep
    rw [step, if_neg (not_not.2 h.directory), if_pos hdot, climb, if_pos hdot]
  · by_cases hup : name = Path.dotDot
    · apply hstep
      rw [step, if_neg (not_not.2 h.directory), if_neg hdot, if_pos hup, climb, if_neg hdot, if_pos hup]
    · rw [climb_of_ne hdot hup]
      cases hf : tree.find (here ++ [name]) with
      | none =>
        have hs := step_name h.directory hdot hup hlen
        rw [if_pos hf] at hs
        rw [stat, h.resolve_eq, hs]
      | some node =>
        have hs := step_name h.directory hdot hup hlen
        rw [if_neg (by rw [hf]; simp)] at hs
        rw [hstep _ hs, hf]

/-- **Whether a file can be renamed to the path** -/
theorem target_eq (h : tree.Leads path here name) (hlen : name.length ≤ longestName) :
    tree.target path =
      if name = Path.dot ∨ name = Path.dotDot then .error .busy
      else if tree.find (here ++ [name]) = some .directory then .error .isADirectory
      else .ok (here ++ [name]) := by
  obtain ⟨names, hseg, hwalk⟩ := h.walk
  have hs : ¬ path.trailingSlash = true := by simp [h.slash]
  rw [target, if_neg h.zero, if_neg h.nonempty, if_neg (not_lt.2 h.short), hseg, List.getLast?_concat]
  simp only [List.dropLast_concat, hwalk, if_neg (not_not.2 h.directory), if_neg (not_lt.2 hlen), if_neg hs]

theorem nominal_eq (h : tree.Leads path here name) : tree.nominal path = climb here name := by
  obtain ⟨names, hseg, hwalk⟩ := h.walk
  rw [Tree.nominal_eq, hseg, List.foldl_append, ← nominal_of_walk hwalk, List.foldl_cons, List.foldl_nil]

end Leads

/-! ## Targets -/

/-- **Where a file can be renamed to**: a place with an ordinary name, in a directory, that is no directory itself -/
theorem target_eq_ok {tree : Tree} {path : Path} {goal : Location} :
    tree.target path = .ok goal ↔
      ∃ here name, tree.Leads path here name ∧ (name ≠ Path.dot ∧ name ≠ Path.dotDot ∧ name.length ≤ longestName) ∧
        tree.find goal ≠ some .directory ∧ goal = here ++ [name] := by
  constructor
  · intro h
    have hbytes : 0 ∉ path.bytes ∧ path.bytes ≠ [] ∧ path.bytes.length ≤ longestPath := by
      refine ⟨fun hc => ?_, fun hc => ?_, not_lt.1 fun hc => ?_⟩
      · simp [target, hc] at h
      · simp [target, hc] at h
      · unfold target at h
        split_ifs at h
    unfold target at h
    rw [if_neg hbytes.1, if_neg hbytes.2.1, if_neg (not_lt.2 hbytes.2.2)] at h
    cases hlast : path.segments.getLast? with
    | none => rw [hlast] at h; cases h
    | some name =>
      obtain ⟨names, hseg⟩ := List.getLast?_eq_some_iff.1 hlast
      rw [hlast, hseg, List.dropLast_concat] at h
      simp only at h
      cases hwalk : tree.walk (tree.start path) names with
      | error failure => rw [hwalk] at h; cases h
      | ok here =>
        rw [hwalk] at h
        simp only at h
        split_ifs at h with hdir hname hlen hslash hgoal
        obtain rfl := (Except.ok.inj h).symm
        rw [not_or] at hname
        have hleads : tree.Leads path here name := ⟨hbytes.1, hbytes.2.1, hbytes.2.2, by simpa using hslash,
          ⟨names, hseg, hwalk⟩, not_not.1 hdir⟩
        exact ⟨here, name, hleads, ⟨hname.1, hname.2, not_lt.1 hlen⟩, hgoal, rfl⟩
  · rintro ⟨here, name, hleads, ⟨hdot, hup, hlen⟩, hgoal, rfl⟩
    rw [hleads.target_eq hlen, if_neg (not_or.2 ⟨hdot, hup⟩), if_neg hgoal]

theorem nominal_of_target {tree : Tree} {path : Path} {goal : Location} (h : tree.target path = .ok goal) :
    goal = tree.nominal path := by
  obtain ⟨here, name, hleads, ⟨hdot, hup, -⟩, -, rfl⟩ := target_eq_ok.1 h
  rw [hleads.nominal_eq, climb_of_ne hdot hup]

/-- a path that a file can be renamed to leads to the place the file would take -/
theorem stat_of_target {tree : Tree} {path : Path} {goal : Location} (h : tree.target path = .ok goal) :
    tree.stat path =
      match tree.find goal with
      | none => .error .noEntry
      | some node => .ok node := by
  obtain ⟨here, name, hleads, ⟨hdot, hup, hlen⟩, -, rfl⟩ := target_eq_ok.1 h
  rw [hleads.stat_eq hlen, climb_of_ne hdot hup]

/-! ## A file that no walk comes through -/

theorem ne_nil_of_find {tree : Tree} {place : Location} (h : tree.find place ≠ some .directory) : place ≠ [] := by
  rintro rfl
  exact h rfl

/-- a file put where no directory is leaves the directories as they are -/
theorem find_put_directory {tree : Tree} {place : Location} {mode : Nat} {data : Bytes}
    (hplace : tree.find place ≠ some .directory) (here : Location) :
    (tree.put place (.file mode data)).find here = some .directory ↔ tree.find here = some .directory := by
  by_cases h : here = place
  · rw [h, find_put_self _ (ne_nil_of_find hplace)]
    simp [hplace]
  · rw [find_put_of_ne _ h]

section PutFile

variable {tree : Tree} {directory : Location} {new : Bytes} {mode : Nat} {data : Bytes}

theorem step_put_file (hfree : tree.find (directory ++ [new]) ≠ some .directory) (here : Location) {name : Bytes}
    (hname : name ≠ new) : (tree.put (directory ++ [new]) (.file mode data)).step here name = tree.step here name := by
  have hnext : (tree.put (directory ++ [new]) (.file mode data)).find (here ++ [name]) = tree.find (here ++ [name]) :=
    find_put_of_ne _ (by simp [hname]) _
  simp only [step, ne_eq, find_put_directory hfree, hnext]

theorem walk_put_file (hfree : tree.find (directory ++ [new]) ≠ some .directory) (here : Location)
    {names : List Bytes} (hnames : new ∉ names) :
    (tree.put (directory ++ [new]) (.file mode data)).walk here names = tree.walk here names := by
  induction names generalizing here with
  | nil => rfl
  | cons name rest ih =>
    rw [List.mem_cons, not_or] at hnames
    rw [walk, walk, step_put_file hfree here (Ne.symm hnames.1)]
    cases tree.step here name with
    | error failure => rfl
    | ok next => exact ih next hnames.2

theorem target_put_file (hfree : tree.find (directory ++ [new]) ≠ some .directory) {path : Path}
    (hnew : new ∉ path.segments) :
    (tree.put (directory ++ [new]) (.file mode data)).target path = tree.target path := by
  have hwalk : (tree.put (directory ++ [new]) (.file mode data)).walk (tree.start path) path.segments.dropLast =
      tree.walk (tree.start path) path.segments.dropLast :=
    walk_put_file hfree (tree.start path) fun h => hnew (List.mem_of_mem_dropLast h)
  have hstart : (tree.put (directory ++ [new]) (.file mode data)).start path = tree.start path := rfl
  simp only [target, hstart, hwalk, ne_eq, find_put_directory hfree]

end PutFile

/-! ## A file where no directory is -/

section PutTarget

variable {tree : Tree} {place : Location} {mode : Nat} {data : Bytes}

/-- a file put where no directory is hinders no step that could be made -/
theorem step_put_of_ok (hplace : tree.find place ≠ some .directory) {here next : Location} {name : Bytes}
    (h : tree.step here name = .ok next) : (tree.put place (.file mode data)).step here name = .ok next := by
  obtain ⟨hdir, hnext, hname⟩ := step_eq_ok.1 h
  refine step_eq_ok.2 ⟨(find_put_directory hplace here).2 hdir, hnext, fun hdot hup => ?_⟩
  obtain ⟨hlen, hfound⟩ := hname hdot hup
  refine ⟨hlen, ?_⟩
  -- where something stood before something stands now
  by_cases he : next = place
  · rw [he, find_put_self _ (ne_nil_of_find hplace)]
    simp
  · rw [find_put_of_ne tree he]
    exact hfound

theorem walk_put_of_ok (hplace : tree.find place ≠ some .directory) {here next : Location} {names : List Bytes}
    (h : tree.walk here names = .ok next) : (tree.put place (.file mode data)).walk here names = .ok next := by
  induction names generalizing here with
  | nil => exact h
  | cons name rest ih =>
    rw [walk] at h ⊢
    cases hs : tree.step here name with
    | error failure => rw [hs] at h; cases h
    | ok passed =>
      rw [hs] at h
      rw [step_put_of_ok hplace hs]
      exact ih h

theorem Leads.put_of_ok (hplace : tree.find place ≠ some .directory) {path : Path} {here : Location} {name : Bytes}
    (h : tree.Leads path here name) : (tree.put place (.file mode data)).Leads path here name := by
  obtain ⟨names, hseg, hwalk⟩ := h.walk
  have hhere : here ≠ place := fun he => hplace (he ▸ h.directory)
  refine ⟨h.zero, h.nonempty, h.short, h.slash, ⟨names, hseg, walk_put_of_ok hplace hwalk⟩, ?_⟩
  rw [find_put_of_ne _ hhere]
  exact h.directory

theorem resolve_put_of_ok (hplace : tree.find place ≠ some .directory) {path : Path} {other : Location}
    (h : tree.resolve path = .ok other) : (tree.put place (.file mode data)).resolve path = .ok other := by
  obtain ⟨hbytes, hwalk, hslash⟩ := resolve_eq_ok.1 h
  exact resolve_eq_ok.2 ⟨hbytes, walk_put_of_ok hplace hwalk, fun hc => (find_put_directory hplace other).2 (hslash hc)⟩

/-- **A path that leads elsewhere** leads to the same as before -/
theorem stat_put_of_ne (hplace : tree.find place ≠ some .directory) {path : Path} {other : Location}
    (h : tree.resolve path = .ok other) (hne : other ≠ place) :
    (tree.put place (.file mode data)).stat path = tree.stat path := by
  simp only [stat, resolve_put_of_ok hplace h, h, find_put_of_ne tree hne]

/-- where a directory could be used, it still can be -/
theorem directoryAt_put_of_ok (hplace : tree.find place ≠ some .directory) {path : Path} {here : Location}
    (h : tree.directoryAt path = .ok here) : (tree.put place (.file mode data)).directoryAt path = .ok here := by
  unfold directoryAt at h ⊢
  cases hr : tree.resolve path with
  | error failure => rw [hr] at h; cases h
  | ok found =>
    rw [hr] at h
    simp only at h
    split_ifs at h with hdir
    obtain rfl := Except.ok.inj h
    rw [resolve_put_of_ok hplace hr]
    exact if_pos ((find_put_directory hplace found).2 hdir)

/-- nor does it open a way: a step that can be made now could be made before, unless it comes to the file itself -/
theorem step_of_put (hplace : tree.find place ≠ some .directory) {here next : Location} {name : Bytes}
    (h : (tree.put place (.file mode data)).step here name = .ok next) (hne : next ≠ place) :
    tree.step here name = .ok next := by
  obtain ⟨hdir, hnext, hname⟩ := step_eq_ok.1 h
  rw [find_put_of_ne tree hne] at hname
  exact step_eq_ok.2 ⟨(find_put_directory hplace here).1 hdir, hnext, hname⟩

theorem walk_of_put (hplace : tree.find place ≠ some .directory) {here next : Location} {names : List Bytes}
    (h : (tree.put place (.file mode data)).walk here names = .ok next) (hne : next ≠ place) :
    tree.walk here names = .ok next := by
  induction names generalizing here with
  | nil => exact h
  | cons name rest ih =>
    rw [walk] at h ⊢
    cases hs : (tree.put place (.file mode data)).step here name with
    | error failure => rw [hs] at h; cases h
    | ok passed =>
      rw [hs] at h
      simp only at h
      -- no walk goes on from a file
      have hpassed : passed ≠ place := by
        rintro rfl
        cases rest with
        | nil => exact hne (Except.ok.inj h).symm
        | cons second later =>
          rw [walk] at h
          cases hnext : (tree.put passed (.file mode data)).step passed second with
          | error failure => rw [hnext] at h; cases h
          | ok further => exact hplace ((find_put_directory hplace passed).1 (directory_of_step hnext))
      rw [step_of_put hplace hs hpassed]
      exact ih h

theorem resolve_of_put (hplace : tree.find place ≠ some .directory) {path : Path} {other : Location}
    (h : (tree.put place (.file mode data)).resolve path = .ok other) (hne : other ≠ place) :
    tree.resolve path = .ok other := by
  obtain ⟨hbytes, hwalk, hslash⟩ := resolve_eq_ok.1 h
  exact resolve_eq_ok.2 ⟨hbytes, walk_of_put hplace hwalk hne,
    fun hc => (find_put_directory hplace other).1 (hslash hc)⟩

/-- **A path of another place** leads to something exactly if it did before -/
theorem stat_put_iff (hplace : tree.find place ≠ some .directory) {path : Path} (hne : tree.nominal path ≠ place)
    {node : Node} : (tree.put place (.file mode data)).stat path = .ok node ↔ tree.stat path = .ok node := by
  constructor
  · intro h
    obtain ⟨other, hresolve, hfind⟩ := stat_eq_ok h
    have hother : other ≠ place := fun he => hne (by rw [← he, nominal_of_resolve hresolve]; rfl)
    rw [find_put_of_ne tree hother] at hfind
    simp only [stat, resolve_of_put hplace hresolve hother, hfind]
  · intro h
    obtain ⟨other, hresolve, -⟩ := stat_eq_ok h
    have hother : other ≠ place := fun he => hne (by rw [← he, nominal_of_resolve hresolve])
    rw [stat_put_of_ne hplace hresolve hother]
    exact h

theorem isFile_put (hplace : tree.find place ≠ some .directory) {path : Path} (hne : tree.nominal path ≠ place) :
    (tree.put place (.file mode data)).isFile path = tree.isFile path := by
  rw [Bool.eq_iff_iff, isFile_iff, isFile_iff]
  simp only [stat_put_iff hplace hne]

/-- the path of a file that was renamed to it can be renamed to again -/
theorem target_put_self {path : Path} (h : tree.target path = .ok place) :
    (tree.put place (.file mode data)).target path = .ok place := by
  obtain ⟨here, name, hleads, hname, hplace, hgoal⟩ := target_eq_ok.1 h
  refine target_eq_ok.2 ⟨here, name, hleads.put_of_ok hplace, hname, ?_, hgoal⟩
  rw [find_put_self _ (by rw [hgoal]; simp)]
  simp

theorem stat_put_target {path : Path} (h : tree.target path = .ok place) :
    (tree.put place (.file mode data)).stat path = .ok (.file mode data) := by
  obtain ⟨here, name, -, -, -, hgoal⟩ := target_eq_ok.1 h
  rw [stat_of_target (target_put_self h), find_put_self _ (by rw [hgoal]; simp)]

end PutTarget

/-! ## Trees of files -/

section WellFormed

variable {tree : Tree} {place : Location}

/-- a tree of files: the home directory is there, and whatever is there is in a directory -/
structure WellFormed (tree : Tree) : Prop where
  home : tree.find tree.home = some .directory
  above : ∀ entry ∈ tree.entries, tree.find entry.1.dropLast = some .directory

theorem WellFormed.find_dropLast (h : tree.WellFormed) {node : Node}
    (hplace : tree.find place = some node) : tree.find place.dropLast = some .directory := by
  by_cases hp : place = []
  · rw [hp]
    rfl
  · rw [find, if_neg hp, Option.map_eq_some_iff] at hplace
    obtain ⟨entry, hfound, -⟩ := hplace
    have heq : entry.1 = place := by simpa using List.find?_some hfound
    rw [← heq]
    exact h.above entry (List.mem_of_find?_eq_some hfound)

theorem WellFormed.put_file (h : tree.WellFormed) (hplace : tree.find place ≠ some .directory)
    (habove : tree.find place.dropLast = some .directory) (mode : Nat) (data : Bytes) :
    (tree.put place (.file mode data)).WellFormed := by
  have hdir : ∀ other, tree.find other = some .directory →
      (tree.put place (.file mode data)).find other = some .directory := by
    intro other ho
    rw [find_put_of_ne _ fun he : other = place => hplace (by rw [← he, ho])]
    exact ho
  refine ⟨hdir _ h.home, fun entry hentry => ?_⟩
  rcases List.mem_cons.1 hentry with rfl | hentry
  · exact hdir _ habove
  · exact hdir _ (h.above entry (List.mem_of_mem_filter hentry))

end WellFormed

end CbcFile.Tree
