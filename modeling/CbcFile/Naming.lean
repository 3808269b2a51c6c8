/-
How the files of one decryption are named. A file `report.csv.aes` goes with the key file `report.csv.aes.key` and
decrypts to `report.csv` in the same directory. Names are compared byte by byte, so they need not be text.

Main facts: `stem?` succeeds exactly on a non-empty stem followed by the extension.
-/
import CbcFile.Error

namespace CbcFile

/-- the extension of an encrypted file -/
def extension : Bytes := ascii ['.', 'a', 'e', 's']

/-- what a key file's path has after the encrypted file's path -/
def keySuffix : Bytes := ascii ['.', 'k', 'e', 'y']

/-- how the name of a temporary file begins -/
def temporaryHead : Bytes := ascii ['.', 'a', 'e', 's', 'c', 'b', 'c', '-']

/-- how the name of a temporary file ends -/
def temporaryTail : Bytes := ascii ['.', 't', 'm', 'p']

/-- the file name without the extension, unless nothing would be left -/
def stem? (name : Bytes) : Option Bytes :=
  if extension <:+ name ∧ name ≠ extension then some (name.take (name.length - extension.length)) else none

/-- the path of the key file: the suffix stands after the whole text of the path -/
def keyPath (encrypted : Path) : Path :=
  ⟨encrypted.bytes ++ keySuffix⟩

/-- the three paths of one decryption -/
structure Companions where
  encrypted : Path
  key : Path
  output : Path
deriving DecidableEq, Repr

/-- the paths that go with an encrypted file's path -/
def companions (encrypted : Path) : Except DecryptError Companions :=
  match encrypted.fileName?.bind stem? with
  | none => .error (.badExtension encrypted)
  | some stem => .ok ⟨encrypted, keyPath encrypted, encrypted.withFileName stem⟩

/-- the paths that a run on this file looks at -/
def relevant (file : Path) : List Path :=
  match companions file with
  | .ok paths => [paths.key, paths.encrypted, paths.output]
  | .error _ => [keyPath file, file]

theorem stem?_eq_some {name stem : Bytes} : stem? name = some stem ↔ name = stem ++ extension ∧ stem ≠ [] := by
  unfold stem?
  constructor
  · intro h
    split at h
    · rename_i hs
      obtain ⟨⟨t, rfl⟩, hne⟩ := hs
      simp at h
      subst h
      refine ⟨rfl, ?_⟩
      rintro rfl
      simp at hne
    · cases h
  · rintro ⟨rfl, hne⟩
    have : stem ++ extension ≠ extension := fun h => hne (by simpa using h)
    simp [this]

end CbcFile
