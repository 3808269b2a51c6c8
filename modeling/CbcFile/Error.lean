/-
What can go wrong, and how it is told. Causes are values: `CipherFault` says why the cipher refused, `Activity` says
what was being done when reading or writing failed, `IoFailure` is the failure itself. `DecryptError.message` is the
only place where they become the text of an error.

A temporary file has another name each time, and the failure to make one tells its path. So two attempts can have the
same error only but for that name: `nameless` leaves it out.
-/
import CbcFile.Path
import CbcFile.Block
import CbcFile.Key

namespace CbcFile

/-! ## Failures of reading and writing -/

/-- kinds of failure -/
inductive IoKind where
  | notFound
  | permissionDenied
  | connectionReset
  | brokenPipe
  | alreadyExists
  | wouldBlock
  | notADirectory
  | isADirectory
  | invalidInput
  | invalidData
  | timedOut
  | writeZero
  | storageFull
  | resourceBusy
  | invalidFilename
  | interrupted
  | unsupported
  | unexpectedEof
  | outOfMemory
  | other
deriving DecidableEq, Repr

/-- what a kind of failure is called when nothing more is known -/
def IoKind.description : IoKind → String
  | .notFound => "entity not found"
  | .permissionDenied => "permission denied"
  | .connectionReset => "connection reset"
  | .brokenPipe => "broken pipe"
  | .alreadyExists => "entity already exists"
  | .wouldBlock => "operation would block"
  | .notADirectory => "not a directory"
  | .isADirectory => "is a directory"
  | .invalidInput => "invalid input parameter"
  | .invalidData => "invalid data"
  | .timedOut => "timed out"
  | .writeZero => "write zero"
  | .storageFull => "no storage space"
  | .resourceBusy => "resource busy"
  | .invalidFilename => "invalid filename"
  | .interrupted => "operation interrupted"
  | .unsupported => "unsupported"
  | .unexpectedEof => "unexpected end of file"
  | .outOfMemory => "out of memory"
  | .other => "other error"

/-- the path of a temporary file: its directory, told from the root, and its name there -/
structure TemporaryPath where
  directory : Path
  name : Bytes
deriving DecidableEq, Repr

namespace TemporaryPath

/-- as one path -/
def path (temporary : TemporaryPath) : Path :=
  temporary.directory.join temporary.name

/-- with the name left out -/
def nameless (temporary : TemporaryPath) : TemporaryPath :=
  { temporary with name := [] }

end TemporaryPath

/-- one failed read, write or operation on files -/
structure IoFailure where
  kind : IoKind
  text : String
  /-- the temporary file that could not be made, if this is what failed -/
  temporary? : Option TemporaryPath
deriving DecidableEq, Repr

namespace IoFailure

/-- the failure to make this temporary file -/
def making (failure : IoFailure) (temporary : TemporaryPath) : IoFailure :=
  { failure with temporary? := some temporary }

/-- a failure in words, with the path of the temporary file behind them -/
def words (failure : IoFailure) : String :=
  match failure.temporary? with
  | none => failure.text
  | some temporary => s!"{failure.text} at path {temporary.path.quoted}"

/-- the failure without the name of the temporary file -/
def nameless (failure : IoFailure) : IoFailure :=
  { failure with temporary? := failure.temporary?.map TemporaryPath.nameless }

@[simp] theorem nameless_making (failure : IoFailure) (temporary : TemporaryPath) :
    (failure.making temporary).nameless = failure.making temporary.nameless := rfl

/-- a failure of which only the kind is known -/
def ofKind (kind : IoKind) : IoFailure :=
  ⟨kind, kind.description, none⟩

/-- a failure that only asks to try again -/
def passing (failure : IoFailure) : Bool :=
  failure.kind = .interrupted

/-- a sink took nothing of what it was given -/
def nothingAccepted : IoFailure :=
  ⟨.writeZero, "failed to write whole buffer", none⟩

/-- nothing has that name -/
def noEntry : IoFailure :=
  ⟨.notFound, "No such file or directory (os error 2)", none⟩

/-- what cannot be replaced: a directory named as itself, its parent or the root -/
def busy : IoFailure :=
  ⟨.resourceBusy, "Device or resource busy (os error 16)", none⟩

/-- a step leads through something that is not a directory -/
def notADirectory : IoFailure :=
  ⟨.notADirectory, "Not a directory (os error 20)", none⟩

/-- a directory stands where a file is needed -/
def isADirectory : IoFailure :=
  ⟨.isADirectory, "Is a directory (os error 21)", none⟩

/-- a name that the system refuses outright -/
def invalidArgument : IoFailure :=
  ⟨.invalidInput, "Invalid argument (os error 22)", none⟩

/-- a name holds a zero byte -/
def zeroByte : IoFailure :=
  ⟨.invalidInput, "file name contained an unexpected NUL byte", none⟩

/-- a component of a path, or the whole path, is too long -/
def nameTooLong : IoFailure :=
  ⟨.invalidFilename, "File name too long (os error 36)", none⟩

end IoFailure

/-! ## Errors of decryption -/

/-- which of the two input files is missing -/
inductive FileKind where
  | key
  | encrypted
deriving DecidableEq, Repr

/-- the word for an input file -/
def FileKind.word : FileKind → String
  | .key => "Key"
  | .encrypted => "Encrypted"

/-- why the cipher refused -/
inductive CipherFault where
  /-- a key of another length than thirty-two bytes -/
  | keyLength (length : Nat)
  /-- ciphertext that ends inside a block -/
  | misaligned (length : Nat)
  /-- no ciphertext at all -/
  | noFinalBlock
  /-- a final block that is not padded -/
  | badPadding
  /-- a fault that the caller puts into words -/
  | described (text : String)
  /-- a fault met while decrypting this file -/
  | inFile (path : Path) (fault : CipherFault)
deriving DecidableEq, Repr

/-- a fault in words -/
def CipherFault.text : CipherFault → String
  | .keyLength length => s!"invalid key length: expected {Key.size} bytes, got {length}"
  | .misaligned length => s!"ciphertext length {length} is not a multiple of {Block.size} bytes"
  | .noFinalBlock => "empty ciphertext: missing final block"
  | .badPadding => "bad decrypt: invalid PKCS#7 padding (wrong key or corrupted data)"
  | .described text => text
  | .inFile path fault => s!"could not decrypt file {path.display}: {fault.text}"

/-- what was being done when reading or writing failed -/
inductive Activity where
  | readKeyFile (path : Path)
  | openEncrypted (path : Path)
  | createTemporary (directory : Path)
  | readIv
  | readCiphertext
  | writePlaintext
  | writeOutput (path : Path)
  | described (text : String)
deriving DecidableEq, Repr

/-- an activity as the failure to do it -/
def Activity.text : Activity → String
  | .readKeyFile path => s!"failed to read key file {path.display}"
  | .openEncrypted path => s!"failed to open {path.display}"
  | .createTemporary directory => s!"failed to create temporary file in {directory.display}"
  | .readIv => "failed to read IV"
  | .readCiphertext => "failed to read ciphertext"
  | .writePlaintext => "failed to write plaintext"
  | .writeOutput path => s!"failed to write output file {path.display}"
  | .described text => text

/-- every way in which decryption fails -/
inductive DecryptError where
  /-- arguments that cannot be understood, with the text that explains them -/
  | usage (text : String)
  | missingFile (kind : FileKind) (path : Path)
  /-- a file name without the extension, or with nothing before it -/
  | badExtension (path : Path)
  /-- input that ends inside the initial vector -/
  | inputTooSmall (length : Nat)
  | cipher (fault : CipherFault)
  | io (activity : Activity) (failure : IoFailure)
deriving DecidableEq, Repr

namespace DecryptError

/-- the text of an error -/
def message : DecryptError → String
  | .usage text => text
  | .missingFile kind path => s!"{kind.word} file not found: {path.display}"
  | .badExtension path => s!"Encrypted file must have a .aes extension: {path.display}"
  | .inputTooSmall length => s!"Encrypted file is too small to contain IV ({length} bytes, need {Block.size})"
  | .cipher fault => s!"Cipher error: {fault.text}"
  | .io activity failure => s!"I/O error: {activity.text}: {failure.words}"

/-- the failure beneath an error, if there is one -/
def cause? : DecryptError → Option IoFailure
  | .io _ failure => some failure
  | _ => none

/-- names the file in which the cipher met a fault; other errors stay as they are -/
def inFile (path : Path) : DecryptError → DecryptError
  | .cipher fault => .cipher (.inFile path fault)
  | error => error

/-- the error without the name of the temporary file that could not be made -/
def nameless : DecryptError → DecryptError
  | .io activity failure => .io activity failure.nameless
  | error => error

theorem cause?_nameless (error : DecryptError) : error.nameless.cause? = error.cause?.map IoFailure.nameless := by
  cases error <;> rfl

/-- an error without a failure beneath it names no temporary file -/
theorem nameless_of_cause {error : DecryptError} (h : error.cause? = none) : error.nameless = error := by
  cases error with
  | io activity failure => cases h
  | _ => rfl

end DecryptError

end CbcFile
