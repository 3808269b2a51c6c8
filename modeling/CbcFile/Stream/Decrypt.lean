/-
Decryption of a stream: the initial vector first, then ciphertext block by block. The newest plaintext block is held
back until a further block has been read in full, because the last one ends in padding that must be checked and cut off
before anything of it leaves.

`decryptStream` and `decryptCiphertext` work on any source and sink; `decryptBytes` is the same on bytes in memory.
-/
import CbcFile.Aes.Cipher
import CbcFile.Padding
import CbcFile.Stream.Source
import CbcFile.Stream.Sink

namespace CbcFile

/-- what one call on a source and a sink leaves -/
structure Outcome (α : Type) where
  result : Except DecryptError α
  source : Source
  sink : Sink

/-- how much a finished decryption read and wrote -/
structure Lengths where
  ciphertext : Nat
  plaintext : Nat
deriving DecidableEq, Repr

/-! ## The initial vector -/

/-- reads the initial vector -/
def readIv (source : Source) : Except DecryptError Block × Source :=
  let filled := source.fill Block.size
  match filled.failure? with
  | some failure => (.error (.io .readIv failure), filled.rest)
  | none =>
    match Block.ofBytes? filled.bytes with
    | some iv => (.ok iv, filled.rest)
    | none => (.error (.inputTooSmall filled.bytes.length), filled.rest)

/-! ## The blocks -/

/-- where decryption stands between two reads: the last ciphertext block, the plaintext block held back, and the bytes
read and released so far -/
structure Progress where
  previous : Block
  held : Option Block
  read : Nat
  released : Nat
deriving DecidableEq, Repr

namespace Progress

/-- before the first block -/
def start (iv : Block) : Progress :=
  ⟨iv, none, 0, 0⟩

/-- after a further ciphertext block, when the block held before it has been released -/
def advance (decipher : Block → Block) (progress : Progress) (sealed : Block) : Progress where
  previous := sealed
  held := some ((decipher sealed).xor progress.previous)
  read := progress.read + Block.size
  released := progress.released + if progress.held.isSome then Block.size else 0

/-- the bytes that a further block shows to be free to leave -/
def free (progress : Progress) : Bytes :=
  match progress.held with
  | some block => block.toList
  | none => []

end Progress

/-- the end of the input: the block held back is the last one, and loses its padding -/
def finish (progress : Progress) (source : Source) (sink : Sink) : Outcome Lengths :=
  match progress.held with
  | none => ⟨.error (.cipher .noFinalBlock), source, sink⟩
  | some block =>
    match paddingLength? block with
    | none => ⟨.error (.cipher .badPadding), source, sink⟩
    | some n =>
      let tail := block.toList.take (Block.size - n)
      match sink.write tail with
      | (some failure, sink) => ⟨.error (.io .writePlaintext failure), source, sink⟩
      | (none, sink) => ⟨.ok ⟨progress.read, progress.released + tail.length⟩, source, sink⟩

/-- reads and decrypts until the input ends -/
def decryptFrom (decipher : Block → Block) (progress : Progress) (source : Source) (sink : Sink) : Outcome Lengths :=
  let filled := source.fill Block.size
  match filled.failure? with
  | some failure => ⟨.error (.io .readCiphertext failure), filled.rest, sink⟩
  | none =>
    match _h : Block.ofBytes? filled.bytes with
    | none =>
      if filled.bytes = [] then finish progress filled.rest sink
      else ⟨.error (.cipher (.misaligned (progress.read + filled.bytes.length))), filled.rest, sink⟩
    | some sealed =>
      match sink.write progress.free with
      | (some failure, sink) => ⟨.error (.io .writePlaintext failure), filled.rest, sink⟩
      | (none, sink) => decryptFrom decipher (progress.advance decipher sealed) filled.rest sink
termination_by source.size
decreasing_by
  have hn : (source.fill Block.size).bytes.length = 16 := Block.length_of_ofBytes? _h
  have hs := Source.size_fill Block.size source
  exact (by omega : (source.fill Block.size).rest.size < source.size)

/-! ## Whole inputs -/

/-- decrypts ciphertext whose initial vector is known -/
def decryptCiphertext (key : Key) (iv : Block) (source : Source) (sink : Sink) : Outcome Lengths :=
  let schedule := Aes.Schedule.ofKey key
  decryptFrom (Aes.decryptBlock schedule) (Progress.start iv) source sink

/-- decrypts an initial vector followed by ciphertext -/
def decryptStream (key : Key) (source : Source) (sink : Sink) : Outcome Lengths :=
  match readIv source with
  | (.error error, source) => ⟨.error error, source, sink⟩
  | (.ok iv, source) => decryptCiphertext key iv source sink

/-- decrypts bytes in memory -/
def decryptBytes (key : Key) (bytes : Bytes) : Except DecryptError Bytes :=
  let outcome := decryptStream key (Source.ofBytes bytes) Sink.collecting
  match outcome.result with
  | .error error => .error error
  | .ok _ => .ok outcome.sink.received.toList

end CbcFile
