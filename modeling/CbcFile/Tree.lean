/-
A file system as a tree of files and directories, kept flat: each place that is in use is listed with what is there. A
place is the list of names from the root down. Paths are walked one segment at a time from the root or from the home
directory; every step needs a directory to stand in. A path that is too long as a whole is refused before the walk.

The view is `find`: what stands at a place. Main facts: `put` and `erase` change `find` at their own place only, and
erasing what was put at a free place gives the tree back (`erase_put`).
-/
import CbcFile.Naming

namespace CbcFile

/-- a place: the names from the root down -/
abbrev Location := List Bytes

/-- what stands at a place -/
inductive Node where
  | file (mode : Nat) (data : Bytes)
  | directory
deriving DecidableEq, Repr

/-- a file system: the directory that relative paths start from, and what stands where -/
structure Tree where
  home : Location
  entries : List (Location × Node)
deriving DecidableEq, Repr

namespace Tree

/-! ## Places -/

/-- what stands at a place; the root is always a directory -/
def find (tree : Tree) (place : Location) : Option Node :=
  if place = [] then some .directory
  else (tree.entries.find? fun entry => entry.1 = place).map Prod.snd

/-- clears a place -/
def erase (tree : Tree) (place : Location) : Tree :=
  { tree with entries := tree.entries.filter fun entry => entry.1 ≠ place }

/-- puts a node at a place, over what was there -/
def put (tree : Tree) (place : Location) (node : Node) : Tree :=
  { tree with entries := (place, node) :: (tree.erase place).entries }

/-- everything below a place, each with its path from there, in the order of the paths' bytes -/
def below (tree : Tree) (top : Location) : List (Path × Node) :=
  let inside := tree.entries.filter fun entry => top <+: entry.1 ∧ entry.1 ≠ top
  (inside.map fun entry => (⟨Path.joinSlash (entry.1.drop top.length)⟩, entry.2)).mergeSort
    fun a b => a.1.bytes ≤ b.1.bytes

/-! ## Walking -/

/-- the longest name that a directory can hold -/
def longestName : Nat := 255

/-- the longest path that can be asked for -/
def longestPath : Nat := 4095

/-- one step of a walk -/
def step (tree : Tree) (here : Location) (name : Bytes) : Except IoFailure Location :=
  if tree.find here ≠ some .directory then .error .notADirectory
  else if name = Path.dot then .ok here
  else if name = Path.dotDot then .ok here.dropLast
  else if longestName < name.length then .error .nameTooLong
  else if tree.find (here ++ [name]) = none then .error .noEntry
  else .ok (here ++ [name])

/-- walks a list of names; the first step that fails ends the walk -/
def walk (tree : Tree) : Location → List Bytes → Except IoFailure Location
  | here, [] => .ok here
  | here, name :: rest =>
    match tree.step here name with
    | .error failure => .error failure
    | .ok next => tree.walk next rest

/-- where the walk of a path starts -/
def start (tree : Tree) (path : Path) : Location :=
  if path.absolute then [] else tree.home

/-- the place that a path names, where something must stand -/
def resolve (tree : Tree) (path : Path) : Except IoFailure Location :=
  if 0 ∈ path.bytes then .error .zeroByte
  else if path.bytes = [] then .error .noEntry
  else if longestPath < path.bytes.length then .error .nameTooLong
  else
    match tree.walk (tree.start path) path.segments with
    | .error failure => .error failure
    | .ok place =>
      if path.trailingSlash ∧ tree.find place ≠ some .directory then .error .notADirectory else .ok place

/-- the place of a path, whatever stands there and on the way -/
def nominal (tree : Tree) (path : Path) : Location :=
  path.segments.foldl (fun here name =>
    if name = Path.dot then here else if name = Path.dotDot then here.dropLast else here ++ [name]) (tree.start path)

/-! ## Reading -/

/-- what stands where a path leads -/
def stat (tree : Tree) (path : Path) : Except IoFailure Node :=
  match tree.resolve path with
  | .error failure => .error failure
  | .ok place =>
    match tree.find place with
    | some node => .ok node
    | none => .error .noEntry

/-- a regular file stands where the path leads -/
def isFile (tree : Tree) (path : Path) : Bool :=
  match tree.stat path with
  | .ok (.file _ _) => true
  | _ => false

/-- the bytes of the file at a path -/
def read (tree : Tree) (path : Path) : Except IoFailure Bytes :=
  match tree.stat path with
  | .error failure => .error failure
  | .ok (.file _ data) => .ok data
  | .ok .directory => .error .isADirectory

/-! ## Writing -/

/-- a path that starts from the root and leads to the same place -/
def fromRoot (tree : Tree) (path : Path) : Path :=
  if path.absolute then path else Path.join ⟨Path.slash :: Path.joinSlash tree.home⟩ path.bytes

/-- the place of a directory in which a file can be made -/
def directoryAt (tree : Tree) (path : Path) : Except IoFailure Location :=
  match tree.resolve path with
  | .error failure => .error failure
  | .ok place => if tree.find place = some .directory then .ok place else .error .notADirectory

/-- the name of the temporary file with this number: six digits at least -/
def temporaryName (n : Nat) : Bytes :=
  temporaryHead ++ ascii (Nat.toDigits 10 (100000 + n)) ++ temporaryTail

/-- the place of a new temporary file in a directory, or what the system says if it cannot be made, without the path of
the file. This path from the root must not be too long, where the names of all temporary files count as equally long, so
that it does not matter which of them are taken -/
def newPlace (tree : Tree) (directory : Path) (name : Bytes) : Except IoFailure Location :=
  if 0 ∈ directory.bytes then .error .zeroByte
  else if longestPath < ((tree.fromRoot directory).join (temporaryName 0)).bytes.length then .error .nameTooLong
  else
    match tree.directoryAt directory with
    | .error failure => .error failure
    | .ok place => .ok (place ++ [name])

/-- the first temporary name that occurs neither in the tree nor in the path -/
def freshName (tree : Tree) (path : Path) : Bytes :=
  let taken := tree.entries.flatMap Prod.fst ++ path.segments
  let names := (List.range (taken.length + 1)).map temporaryName
  (names.find? fun name => name ∉ taken).getD (temporaryName 0)

/-- the place that a file renamed to this path would take -/
def target (tree : Tree) (path : Path) : Except IoFailure Location :=
  if 0 ∈ path.bytes then .error .invalidArgument
  else if path.bytes = [] then .error .noEntry
  else if longestPath < path.bytes.length then .error .nameTooLong
  else
    match path.segments.getLast? with
    | none => .error .busy
    | some name =>
      match tree.walk (tree.start path) path.segments.dropLast with
      | .error failure => .error failure
      | .ok here =>
        if tree.find here ≠ some .directory then .error .notADirectory
        else if name = Path.dot ∨ name = Path.dotDot then .error .busy
        else if longestName < name.length then .error .nameTooLong
        else if path.trailingSlash then .error .notADirectory
        else if tree.find (here ++ [name]) = some .directory then .error .isADirectory
        else .ok (here ++ [name])

/-- moves the file at a place to a path, over a file that is there -/
def rename (tree : Tree) (place : Location) (path : Path) : Except IoFailure Tree :=
  match tree.target path with
  | .error failure => .error failure
  | .ok goal =>
    match tree.find place with
    | none => .error .noEntry
    | some node => .ok ((tree.erase place).put goal node)

/-! ## Facts -/

theorem find_erase_of_ne (tree : Tree) {place other : Location} (h : other ≠ place) :
    (tree.erase place).find other = tree.find other := by
  unfold find erase
  by_cases ho : other = []
  · simp [ho]
  · simp only [ho, if_false, List.find?_filter]
    congr 2
    funext entry
    by_cases he : entry.1 = other
    · simp [he, h]
    · simp [he]

theorem find_put_self (tree : Tree) {place : Location} (h : place ≠ []) (node : Node) :
    (tree.put place node).find place = some node := by
  simp [find, put, h]

theorem find_put_of_ne (tree : Tree) {place other : Location} (h : other ≠ place) (node : Node) :
    (tree.put place node).find other = tree.find other := by
  rw [← find_erase_of_ne tree h]
  unfold find put
  by_cases ho : other = []
  · simp [ho]
  · simp [ho, Ne.symm h]

/-- a place that nothing is listed for can be used and given back -/
theorem erase_put (tree : Tree) {place : Location} (h : ∀ entry ∈ tree.entries, entry.1 ≠ place) (node : Node) :
    (tree.put place node).erase place = tree := by
  cases tree with
  | mk home entries => simpa [put, erase] using fun a b hab => h (a, b) hab

end Tree

end CbcFile
