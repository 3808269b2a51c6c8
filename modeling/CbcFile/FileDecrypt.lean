/-
Decryption of files. The plaintext is written to a temporary file beside the output and renamed into place once the
final block has been verified, so a failed attempt leaves the tree as it was. An output that is replaced keeps its mode;
a new one can be read and written by its owner alone.

`decrypt` goes through its stages in a fixed order: key, encrypted file, temporary file, stream, rename. The first one
that fails decides the error.
-/
import CbcFile.KeyFile

namespace CbcFile

/-- what an attempt leaves: its result, what it logged, and the tree -/
structure Attempt (α : Type) where
  result : Except DecryptError α
  events : List Event
  tree : Tree

/-- what an attempt leaves, but for the name of its temporary file -/
def Attempt.nameless {α : Type} (attempt : Attempt α) : Attempt α :=
  ⟨attempt.result.mapError DecryptError.nameless, attempt.events.map Event.nameless, attempt.tree⟩

/-- what a finished decryption produced -/
structure Summary where
  output : Path
  encrypted : Nat
  plaintext : Nat
deriving DecidableEq, Repr

/-- the mode of a new output: read and written by its owner -/
def privateMode : Nat := 0o600

namespace Node

/-- the size that is logged of an open file; the size of a directory is up to the file system, and 0 stands for it here -/
def length : Node → Nat
  | .file _ data => data.length
  | .directory => 0

/-- what reading an open file gives; a directory can be opened but not read -/
def source : Node → Source
  | .file _ data => Source.ofBytes data
  | .directory => [.fail .isADirectory]

end Node

/-! ## Reading files -/

/-- opens an encrypted file -/
def openEncrypted (tree : Tree) (path : Path) : Except DecryptError Node :=
  match tree.stat path with
  | .error failure => .error (openError .encrypted path (.openEncrypted path) failure)
  | .ok node => .ok node

/-- decrypts a file into memory -/
def decryptFile (tree : Tree) (path : Path) (key : Key) : Except DecryptError Bytes :=
  match openEncrypted tree path with
  | .error error => .error error
  | .ok node =>
    let outcome := decryptStream key node.source Sink.collecting
    match outcome.result with
    | .error error => .error (error.inFile path)
    | .ok _ => .ok outcome.sink.received.toList

/-! ## Decrypting into a file -/

/-- the mode that a file renamed to this path gets -/
def outputMode (tree : Tree) (output : Path) : Nat :=
  match tree.stat output with
  | .ok (.file mode _) => mode
  | _ => privateMode

/-- the last stage: the temporary file takes the mode and the place of the output -/
def replaceOutput (tree : Tree) (spot : Location) (plaintext : Bytes) (output : Path) : Except IoFailure Tree :=
  (tree.put spot (.file (outputMode tree output) plaintext)).rename spot output

/-- decrypts an open file into a temporary file at a spot that is free, and renames it to the output -/
def decryptThrough (tree : Tree) (spot : Location) (key : Key) (encrypted : Path) (node : Node) (output : Path) :
    Attempt Summary :=
  let outcome := decryptStream key node.source Sink.collecting
  let plaintext := outcome.sink.received.toList
  let written := tree.put spot (.file privateMode plaintext)
  match outcome.result with
  | .error error => ⟨.error (error.inFile encrypted), [], written.erase spot⟩
  | .ok lengths =>
    match replaceOutput written spot plaintext output with
    | .error failure => ⟨.error (.io (.writeOutput output) failure), [.streamDecrypted lengths], written.erase spot⟩
    | .ok tree => ⟨.ok ⟨output, node.length, lengths.plaintext⟩, [.streamDecrypted lengths], tree⟩

/-- decrypts one file into another with the key in a third, by way of a temporary file of this name -/
def decryptUsing (name : Bytes) (tree : Tree) (keyFile encrypted output : Path) : Attempt Summary :=
  match loadKey tree keyFile with
  | (.error error, events) => ⟨.error error, events, tree⟩
  | (.ok key, events) =>
    match openEncrypted tree encrypted with
    | .error error => ⟨.error error, events, tree⟩
    | .ok node =>
      let events := events ++ [.openedEncrypted encrypted node.length]
      let directory := output.directory
      let temporary : TemporaryPath := ⟨tree.fromRoot directory, name⟩
      match tree.newPlace directory name with
      | .error failure => ⟨.error (.io (.createTemporary directory) (failure.making temporary)), events, tree⟩
      | .ok spot =>
        let attempt := decryptThrough tree spot key encrypted node output
        { attempt with events := events ++ .writingTemporary temporary :: attempt.events }

/-- decrypts one file into another with the key in a third. The temporary file gets a name that is not in use; which one
makes no difference but for the name itself (`decryptUsing_any`) -/
def decrypt (tree : Tree) (keyFile encrypted output : Path) : Attempt Summary :=
  decryptUsing (tree.freshName output) tree keyFile encrypted output

/-- where the temporary file for an output is made -/
def Tree.temporary (tree : Tree) (output : Path) : TemporaryPath :=
  ⟨tree.fromRoot output.directory, tree.freshName output⟩

end CbcFile
