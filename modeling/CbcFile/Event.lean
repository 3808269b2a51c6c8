/-
What is logged. A decryption logs up to six events, always in the order in which they are listed here. Each has a
level, a target, which is the part of the program that it comes from, and named values. Filters select by all three.
-/
import CbcFile.Naming
import CbcFile.Stream.Decrypt

namespace CbcFile

/-- how important an event is -/
inductive Level where
  | error
  | warn
  | info
  | debug
  | trace
deriving DecidableEq, Repr

namespace Level

/-- all levels, from the most important on -/
def all : List Level := [.error, .warn, .info, .debug, .trace]

/-- the number of a level: the less important, the higher -/
def rank : Level → Nat
  | .error => 1
  | .warn => 2
  | .info => 3
  | .debug => 4
  | .trace => 5

/-- the word for a level -/
def word : Level → String
  | .error => "ERROR"
  | .warn => "WARN"
  | .info => "INFO"
  | .debug => "DEBUG"
  | .trace => "TRACE"

end Level

/-- the events of a decryption -/
inductive Event where
  | resolvedPaths (paths : Companions)
  | loadedKey (path : Path) (length : Nat)
  | openedEncrypted (path : Path) (length : Nat)
  | writingTemporary (temporary : TemporaryPath)
  | streamDecrypted (lengths : Lengths)
  | succeeded (output : Path) (length : Nat)
deriving DecidableEq, Repr

namespace Event

/-- how important it is -/
def level : Event → Level
  | succeeded _ _ => .info
  | _ => .debug

/-- where it comes from -/
def target : Event → String
  | resolvedPaths _ => "aescbc_rs::cli"
  | loadedKey _ _ => "aescbc_rs::key"
  | openedEncrypted _ _ => "aescbc_rs::decryptor::decrypt"
  | writingTemporary _ => "aescbc_rs::decryptor::decrypt"
  | streamDecrypted _ => "aescbc_rs::decryptor::stream"
  | succeeded _ _ => "aescbc_rs::cli"

/-- what it says -/
def message : Event → String
  | resolvedPaths _ => "resolved paths"
  | loadedKey _ _ => "loaded key file"
  | openedEncrypted _ _ => "opened encrypted file"
  | writingTemporary _ => "writing plaintext to temporary file"
  | streamDecrypted _ => "ciphertext stream decrypted"
  | succeeded _ _ => "Decryption successful"

/-- the values it comes with, each under its name -/
def fields : Event → List (String × String)
  | resolvedPaths paths =>
    [("encrypted", paths.encrypted.display), ("key", paths.key.display), ("output", paths.output.display)]
  | loadedKey path length => [("path", path.display), ("len", toString length)]
  | openedEncrypted path length => [("path", path.display), ("encrypted_len", toString length)]
  | writingTemporary temporary => [("temp", temporary.path.display)]
  | streamDecrypted lengths =>
    [("ciphertext_len", toString lengths.ciphertext), ("plaintext_len", toString lengths.plaintext)]
  | succeeded output length => [("output", output.display), ("bytes", toString length)]

/-- the names of all that it carries: its values, and the message itself -/
def fieldNames (event : Event) : List String :=
  "message" :: event.fields.map Prod.fst

/-- its line in the log, but for the time that stands before it -/
def line (event : Event) : String :=
  let shown := event.fields.map fun field => " " ++ field.1 ++ "=" ++ field.2
  event.level.word ++ " " ++ event.message ++ String.join shown ++ "\n"

/-- the event without the name of the temporary file -/
def nameless : Event → Event
  | writingTemporary temporary => .writingTemporary temporary.nameless
  | event => event

end Event

end CbcFile
