/-
Path names as raw bytes. A path is read in two ways, which must not be confused:
- its components, for taking names apart: repeated slashes, slashes at the end and `.` after the start do not count;
- its segments, for walking a tree: every non-empty stretch between slashes counts, `.` and `..` too.

Main facts: `splitSlash` loses nothing (`joinSlash_splitSlash`); the file name is the last component if that is an
ordinary name; the parent is the text up to the end of the component before it.
-/
import CbcFile.Text.Utf8

namespace CbcFile

/-- a path as it was written -/
structure Path where
  bytes : Bytes
deriving DecidableEq, Repr

namespace Path

/-- the byte between components -/
def slash : UInt8 := 0x2F

/-- the name of the directory itself -/
def dot : Bytes := ascii ['.']

/-- the name of the directory above -/
def dotDot : Bytes := ascii ['.', '.']

/-- a path as text for a person -/
def display (p : Path) : String :=
  Utf8.display p.bytes

/-- a path in quotes, where what is no text is spelled out -/
def quoted (p : Path) : String :=
  Utf8.quoted p.bytes

/-! ## Stretches between slashes -/

/-- cuts at every slash, keeping empty stretches -/
def splitSlash : Bytes → List Bytes
  | [] => [[]]
  | b :: rest =>
    if b = slash then [] :: splitSlash rest
    else match splitSlash rest with
      | [] => [[b]]
      | first :: later => (b :: first) :: later

/-- puts the slashes back -/
def joinSlash : List Bytes → Bytes
  | [] => []
  | [piece] => piece
  | piece :: rest => piece ++ slash :: joinSlash rest

theorem splitSlash_ne_nil (bytes : Bytes) : splitSlash bytes ≠ [] := by
  cases bytes with
  | nil => simp [splitSlash]
  | cons b rest =>
    simp only [splitSlash]
    split
    · simp
    · split <;> simp

theorem joinSlash_splitSlash (bytes : Bytes) : joinSlash (splitSlash bytes) = bytes := by
  induction bytes with
  | nil => rfl
  | cons b rest ih =>
    simp only [splitSlash]
    split
    · rename_i hb
      cases hs : splitSlash rest with
      | nil => exact absurd hs (splitSlash_ne_nil rest)
      | cons first later => rw [hs] at ih; simp [joinSlash, ih, hb]
    · cases hs : splitSlash rest with
      | nil => exact absurd hs (splitSlash_ne_nil rest)
      | cons first later =>
        rw [hs] at ih
        cases later with
        | nil => simp [joinSlash] at ih ⊢; exact ih
        | cons second later => simp [joinSlash] at ih ⊢; exact ih

/-! ## Components -/

/-- one component of a path; `here` occurs only at the start -/
inductive Component where
  | root
  | here
  | up
  | name (bytes : Bytes)
deriving DecidableEq, Repr

/-- a component and the offset at which its text ends -/
structure Part where
  component : Component
  stop : Nat
deriving DecidableEq, Repr

/-- the root or the dot that a path may start with -/
def leadingPart (p : Path) : List Part :=
  match splitSlash p.bytes with
  | [] => []
  | first :: later =>
    if first = [] ∧ later ≠ [] then [⟨.root, 1⟩]
    else if first = dot then [⟨.here, 1⟩]
    else []

/-- the components among stretches of which the first begins at `start` -/
def partsFrom : Nat → List Bytes → List Part
  | _, [] => []
  | start, piece :: rest =>
    let stop := start + piece.length
    let later := partsFrom (stop + 1) rest
    if piece = [] ∨ piece = dot then later
    else if piece = dotDot then ⟨.up, stop⟩ :: later
    else ⟨.name piece, stop⟩ :: later

/-- the components of a path with their ends -/
def parts (p : Path) : List Part :=
  leadingPart p ++ partsFrom 0 (splitSlash p.bytes)

/-- the components of a path -/
def components (p : Path) : List Component :=
  (parts p).map Part.component

/-- the last component, if it is an ordinary name -/
def fileName? (p : Path) : Option Bytes :=
  match (components p).getLast? with
  | some (.name bytes) => some bytes
  | _ => none

/-- the text up to the end of the component before the last; the root and the empty path have no parent -/
def parent? (p : Path) : Option Path :=
  match (parts p).reverse with
  | [] => none
  | last :: before =>
    if last.component = .root then none
    else match before with
      | [] => some ⟨[]⟩
      | previous :: _ => some ⟨p.bytes.take previous.stop⟩

/-- a name put below a directory -/
def join (directory : Path) (name : Bytes) : Path :=
  if directory.bytes = [] then ⟨name⟩
  else if directory.bytes.getLast? = some slash then ⟨directory.bytes ++ name⟩
  else ⟨directory.bytes ++ slash :: name⟩

/-- the path with another file name in the place of its own -/
def withFileName (p : Path) (name : Bytes) : Path :=
  join (p.parent?.getD ⟨[]⟩) name

/-- the directory a file at this path lies in, `.` if the path does not say -/
def directory (p : Path) : Path :=
  match p.parent? with
  | some parent => if parent.bytes = [] then ⟨dot⟩ else parent
  | none => ⟨dot⟩

/-! ## Segments -/

/-- the non-empty stretches, which are the steps of a walk -/
def segments (p : Path) : List Bytes :=
  (splitSlash p.bytes).filter (· ≠ [])

/-- the walk starts at the root -/
def absolute (p : Path) : Bool :=
  p.bytes.head? = some slash

/-- the text ends in a slash, so that only a directory can be meant -/
def trailingSlash (p : Path) : Bool :=
  p.bytes.getLast? = some slash

end Path

end CbcFile
