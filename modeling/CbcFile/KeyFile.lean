/-
Key files. A key file holds the key and nothing else; a file of any other length is refused, but only after it has been
read and logged.
-/
import CbcFile.Tree
import CbcFile.Event

namespace CbcFile

/-- the key with these bytes -/
def Key.ofBytes (bytes : Bytes) : Except DecryptError Key :=
  match Key.ofBytes? bytes with
  | some key => .ok key
  | none => .error (.cipher (.keyLength bytes.length))

/-- the error for a file that could not be opened: it is missing, or the activity failed -/
def openError (kind : FileKind) (path : Path) (activity : Activity) (failure : IoFailure) : DecryptError :=
  if failure.kind = .notFound then .missingFile kind path else .io activity failure

/-- reads a key file; the event comes before its length is looked at -/
def loadKey (tree : Tree) (path : Path) : Except DecryptError Key × List Event :=
  match tree.read path with
  | .error failure => (.error (openError .key path (.readKeyFile path) failure), [])
  | .ok bytes => (Key.ofBytes bytes, [.loadedKey path bytes.length])

theorem Key.ofBytes_toList (key : Key) : Key.ofBytes key.toList = .ok key := by
  simp [Key.ofBytes, Key.ofBytes?_toList]

end CbcFile
