/-
What a path looks at. A walk finds out whether it stands in a directory and whether the next name is there, and stops at
the first step that fails (`seen`). It does not look into files. So trees with the same kind of thing at these places
walk alike, whatever else they hold (`walk_congr`), and finding a path, making a new file in a directory and renaming a
file to a path come to the same in both (`AgreeOn`).
-/
import Mathlib.Tactic
import CbcFile.Proofs.Tree

namespace CbcFile

/-- tells a directory from a file -/
def Node.isDirectory : Node → Bool
  | .file _ _ => false
  | .directory => true

namespace Tree

/-! ## Kinds -/

/-- whether a file or a directory stands at a place, if anything does -/
def kind (tree : Tree) (place : Location) : Option Bool :=
  (tree.find place).map Node.isDirectory

section Kinds

variable {a b : Tree} {place : Location}

theorem kind_eq_none {tree : Tree} : tree.kind place = none ↔ tree.find place = none :=
  Option.map_eq_none_iff

theorem kind_eq_directory {tree : Tree} : tree.kind place = some true ↔ tree.find place = some .directory := by
  rw [kind, Option.map_eq_some_iff]
  constructor
  · rintro ⟨node, hfind, hnode⟩
    cases node with
    | file mode data => cases hnode
    | directory => exact hfind
  · exact fun h => ⟨.directory, h, rfl⟩

theorem none_congr (h : a.kind place = b.kind place) : a.find place = none ↔ b.find place = none := by
  rw [← kind_eq_none, h, kind_eq_none]

theorem directory_congr (h : a.kind place = b.kind place) :
    a.find place = some .directory ↔ b.find place = some .directory := by
  rw [← kind_eq_directory, h, kind_eq_directory]

end Kinds

/-! ## Walks -/

/-- the places that a walk looks at: where it stands, and where a name is not found -/
def seen (tree : Tree) : Location → List Bytes → List Location
  | here, [] => [here]
  | here, name :: rest =>
    here :: match tree.step here name with
      | .error failure => if failure = .noEntry then [here ++ [name]] else []
      | .ok next => tree.seen next rest

section Walks

variable {a b : Tree} {here next place : Location} {name : Bytes} {names : List Bytes}

theorem mem_seen_self (tree : Tree) (here : Location) (names : List Bytes) : here ∈ tree.seen here names := by
  cases names <;> simp [seen]

theorem mem_seen_of_step (h : a.step here name = .ok next) {rest : List Bytes} (hplace : place ∈ a.seen next rest) :
    place ∈ a.seen here (name :: rest) := by
  rw [seen, h]
  exact List.mem_cons_of_mem here hplace

/-- a name that may be there is looked for -/
theorem mem_seen_next (hhere : a.find here = some .directory) (hname : name ≠ Path.dot ∧ name ≠ Path.dotDot)
    (hlen : name.length ≤ longestName) (rest : List Bytes) : here ++ [name] ∈ a.seen here (name :: rest) := by
  have hstep := step_name hhere hname.1 hname.2 hlen
  split_ifs at hstep with hfound
  · simp [seen, hstep]
  · exact mem_seen_of_step hstep (mem_seen_self a _ rest)

/-- what a walk looks at, it still looks at if it is to go further -/
theorem mem_seen_append (more : List Bytes) (h : place ∈ a.seen here names) : place ∈ a.seen here (names ++ more) := by
  induction names generalizing here with
  | nil =>
    rw [seen, List.mem_singleton] at h
    rw [h]
    exact mem_seen_self a here _
  | cons name rest ih =>
    rw [seen, List.mem_cons] at h
    rcases h with rfl | h
    · exact mem_seen_self a place _
    · cases hs : a.step here name with
      | ok next =>
        rw [hs] at h
        exact mem_seen_of_step hs (ih h)
      | error failure =>
        rw [hs] at h
        rw [List.cons_append, seen, hs]
        exact List.mem_cons_of_mem here h

/-- from where a walk has come to, it looks at what a walk from there looks at -/
theorem mem_seen_of_walk {between : Location} {more : List Bytes} (hwalk : a.walk here names = .ok between)
    (h : place ∈ a.seen between more) : place ∈ a.seen here (names ++ more) := by
  induction names generalizing here with
  | nil => rwa [Except.ok.inj hwalk]
  | cons name rest ih =>
    rw [walk] at hwalk
    cases hs : a.step here name with
    | error failure => rw [hs] at hwalk; cases hwalk
    | ok next =>
      rw [hs] at hwalk
      exact mem_seen_of_step hs (ih hwalk)

/-- one step is decided by what it looks at -/
theorem step_congr {rest : List Bytes} (h : ∀ place ∈ a.seen here (name :: rest), a.kind place = b.kind place) :
    a.step here name = b.step here name := by
  have hhere := directory_congr (h here (mem_seen_self a here _))
  by_cases hdir : a.find here = some .directory
  swap
  · rw [step, step, if_pos hdir, if_pos fun hc => hdir (hhere.2 hc)]
  by_cases hname : (name ≠ Path.dot ∧ name ≠ Path.dotDot) ∧ name.length ≤ longestName
  · have hnext := none_congr (h _ (mem_seen_next hdir hname.1 hname.2 rest))
    rw [step_name hdir hname.1.1 hname.1.2 hname.2, step_name (hhere.1 hdir) hname.1.1 hname.1.2 hname.2]
    simp only [hnext]
  · -- a dot, two dots or a name that is too long: nothing is looked for
    rw [step, step, if_neg (not_not.2 hdir), if_neg (not_not.2 (hhere.1 hdir))]
    by_cases hdot : name = Path.dot
    · rw [if_pos hdot, if_pos hdot]
    by_cases hup : name = Path.dotDot
    · rw [if_neg hdot, if_neg hdot, if_pos hup, if_pos hup]
    have hlong : longestName < name.length := not_le.1 fun hlen => hname ⟨⟨hdot, hup⟩, hlen⟩
    rw [if_neg hdot, if_neg hdot, if_neg hup, if_neg hup, if_pos hlong, if_pos hlong]

/-- **Trees that agree on what a walk looks at** walk alike, and look at the same -/
theorem walk_congr (h : ∀ place ∈ a.seen here names, a.kind place = b.kind place) :
    a.walk here names = b.walk here names ∧ a.seen here names = b.seen here names := by
  induction names generalizing here with
  | nil => exact ⟨rfl, rfl⟩
  | cons name rest ih =>
    have hstep := step_congr h
    rw [walk, walk, seen, seen, ← hstep]
    cases hs : a.step here name with
    | error failure => exact ⟨rfl, rfl⟩
    | ok next =>
      obtain ⟨hwalk, hseen⟩ := ih fun place hplace => h place (mem_seen_of_step hs hplace)
      exact ⟨hwalk, congrArg (List.cons here) hseen⟩

end Walks

/-! ## Paths -/

/-- a path that is not refused before any walk -/
def Askable (path : Path) : Prop :=
  0 ∉ path.bytes ∧ path.bytes ≠ [] ∧ path.bytes.length ≤ longestPath

/-- the trees agree on what a path looks at: the home directory if it starts there, and the kind of what stands on its
way and at its end -/
structure AgreeOn (a b : Tree) (path : Path) : Prop where
  home : path.absolute = false → a.home = b.home
  kind : Askable path → ∀ place ∈ a.seen (a.start path) path.segments, a.kind place = b.kind place

/-- the files at the path, if they are files in both trees, hold the same bytes -/
def SameBytes (a b : Tree) (path other : Path) : Prop :=
  ∀ mode data mode' data', a.stat path = .ok (.file mode data) → b.stat other = .ok (.file mode' data') → data = data'

theorem SameBytes.symm {a b : Tree} {path other : Path} (h : a.SameBytes b path other) : b.SameBytes a other path :=
  fun _ _ _ _ hb ha => (h _ _ _ _ ha hb).symm

namespace AgreeOn

variable {a b : Tree} {path : Path}

theorem start (h : a.AgreeOn b path) : a.start path = b.start path := by
  unfold Tree.start
  split_ifs with habsolute
  · rfl
  · exact h.home (by simpa using habsolute)

theorem walk (h : a.AgreeOn b path) (hask : Askable path) :
    a.walk (a.start path) path.segments = b.walk (b.start path) path.segments := by
  rw [← h.start]
  exact (walk_congr (h.kind hask)).1

theorem symm (h : a.AgreeOn b path) : b.AgreeOn a path := by
  refine ⟨fun hrelative => (h.home hrelative).symm, fun hask place hplace => (h.kind hask place ?_).symm⟩
  rwa [(walk_congr (h.kind hask)).2, h.start]

/-- where the walk ends, the same kind of thing stands in both -/
theorem kind_of_resolve (h : a.AgreeOn b path) {place : Location} (hplace : a.resolve path = .ok place) :
    a.kind place = b.kind place := by
  obtain ⟨hask, hwalk, -⟩ := resolve_eq_ok.1 hplace
  apply h.kind hask
  rw [← List.append_nil path.segments]
  exact mem_seen_of_walk hwalk (mem_seen_self a place [])

theorem resolve (h : a.AgreeOn b path) : a.resolve path = b.resolve path := by
  unfold Tree.resolve
  split_ifs with hzero hnil hlong
  · rfl
  · rfl
  · rfl
  have hask : Askable path := ⟨hzero, hnil, not_lt.1 hlong⟩
  rw [← h.walk hask]
  cases hw : a.walk (a.start path) path.segments with
  | error failure => rfl
  | ok place =>
    have hend : place ∈ a.seen (a.start path) (path.segments ++ []) := mem_seen_of_walk hw (mem_seen_self a place [])
    rw [List.append_nil] at hend
    simp only [ne_eq, directory_congr (h.kind hask place hend)]

/-- a path leads to the same kind of thing in both, or fails alike -/
theorem stat (h : a.AgreeOn b path) : (a.stat path).map Node.isDirectory = (b.stat path).map Node.isDirectory := by
  unfold Tree.stat
  rw [← h.resolve]
  cases hr : a.resolve path with
  | error failure => rfl
  | ok place =>
    have hkind := h.kind_of_resolve hr
    unfold Tree.kind at hkind
    simp only
    cases ha : a.find place with
    | none =>
      rw [ha] at hkind
      rw [Option.map_eq_none_iff.1 hkind.symm]
    | some node =>
      rw [ha] at hkind
      obtain ⟨other, hb, hother⟩ := Option.map_eq_some_iff.1 hkind.symm
      rw [hb]
      exact congrArg Except.ok hother.symm

theorem stat_error (h : a.AgreeOn b path) {failure : IoFailure} (hstat : a.stat path = .error failure) :
    b.stat path = .error failure := by
  have hboth := h.stat
  rw [hstat] at hboth
  cases hb : b.stat path with
  | error found => rw [hb] at hboth; rw [Except.error.inj hboth]
  | ok node => rw [hb] at hboth; cases hboth

theorem stat_ok (h : a.AgreeOn b path) {node : Node} (hstat : a.stat path = .ok node) :
    ∃ other, b.stat path = .ok other ∧ other.isDirectory = node.isDirectory := by
  have hboth := h.stat
  rw [hstat] at hboth
  cases hb : b.stat path with
  | error found => rw [hb] at hboth; cases hboth
  | ok other => rw [hb] at hboth; exact ⟨other, rfl, (Except.ok.inj hboth).symm⟩

theorem stat_directory (h : a.AgreeOn b path) (hstat : a.stat path = .ok .directory) : b.stat path = .ok .directory := by
  obtain ⟨other, hother, hkind⟩ := h.stat_ok hstat
  cases other with
  | file mode data => cases hkind
  | directory => exact hother

theorem stat_file (h : a.AgreeOn b path) (hbytes : a.SameBytes b path path) {mode : Nat} {data : Bytes}
    (hstat : a.stat path = .ok (.file mode data)) : ∃ found, b.stat path = .ok (.file found data) := by
  obtain ⟨other, hother, hkind⟩ := h.stat_ok hstat
  cases other with
  | file found bytes => exact ⟨found, by rw [hbytes _ _ _ _ hstat hother]; exact hother⟩
  | directory => cases hkind

theorem read (h : a.AgreeOn b path) (hbytes : a.SameBytes b path path) : a.read path = b.read path := by
  unfold Tree.read
  cases hs : a.stat path with
  | error failure => rw [h.stat_error hs]
  | ok node =>
    cases node with
    | directory => rw [h.stat_directory hs]
    | file mode data =>
      obtain ⟨found, hfound⟩ := h.stat_file hbytes hs
      rw [hfound]

theorem directoryAt (h : a.AgreeOn b path) : a.directoryAt path = b.directoryAt path := by
  unfold Tree.directoryAt
  rw [← h.resolve]
  cases hr : a.resolve path with
  | error failure => rfl
  | ok place => simp only [directory_congr (h.kind_of_resolve hr)]

theorem fromRoot (h : a.AgreeOn b path) : a.fromRoot path = b.fromRoot path := by
  unfold Tree.fromRoot
  split_ifs with habsolute
  · rfl
  · rw [h.home (by simpa using habsolute)]

/-- a new file can be made in both or in neither, under whatever names -/
theorem newPlace (h : a.AgreeOn b path) (name other : Bytes) :
    (a.newPlace path name).map List.dropLast = (b.newPlace path other).map List.dropLast := by
  unfold Tree.newPlace
  rw [← h.fromRoot, ← h.directoryAt]
  split_ifs
  · rfl
  · rfl
  · cases a.directoryAt path with
    | error failure => rfl
    | ok place => simp [Except.map]

theorem target (h : a.AgreeOn b path) : a.target path = b.target path := by
  unfold Tree.target
  by_cases hzero : 0 ∈ path.bytes
  · simp only [if_pos hzero]
  by_cases hnil : path.bytes = []
  · simp only [if_neg hzero, if_pos hnil]
  by_cases hlong : longestPath < path.bytes.length
  · simp only [if_neg hzero, if_neg hnil, if_pos hlong]
  simp only [if_neg hzero, if_neg hnil, if_neg hlong]
  rcases List.eq_nil_or_concat path.segments with hsegments | ⟨names, name, hlast⟩
  · rw [hsegments]
    rfl
  rw [List.concat_eq_append] at hlast
  have hkind := h.kind ⟨hzero, hnil, not_lt.1 hlong⟩
  rw [hlast] at hkind
  rw [hlast, List.getLast?_concat, List.dropLast_concat, ← h.start]
  have hwalk := (walk_congr fun place hplace => hkind place (mem_seen_append [name] hplace)).1
  rw [← hwalk]
  cases hw : a.walk (a.start path) names with
  | error failure => rfl
  | ok here =>
    have hhere := directory_congr (hkind here (mem_seen_of_walk hw (mem_seen_self a here [name])))
    simp only [ne_eq, ← hhere]
    by_cases hdir : a.find here = some .directory
    swap
    · rw [if_pos hdir, if_pos hdir]
    by_cases hdots : name = Path.dot ∨ name = Path.dotDot
    · simp only [if_pos hdots]
    by_cases hlen : longestName < name.length
    · simp only [if_pos hlen]
    -- only an ordinary name is looked for in the directory
    have hnext := directory_congr
      (hkind _ (mem_seen_of_walk hw (mem_seen_next hdir (not_or.1 hdots) (not_lt.1 hlen) [])))
    simp only [hnext]

end AgreeOn

end Tree

end CbcFile
