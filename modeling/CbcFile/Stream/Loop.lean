/-
Decryption of ciphertext as a loop over buffers and counters: one buffer that the blocks are read into, the ciphertext
block before it, the plaintext block held back, and two counters of 64 bits. `pass` is one turn of the loop; every place
of a buffer that it uses is checked, and every difference and sum.

It says nothing new about what is read and written, for which see `decryptFrom`; it says how that is computed.
-/
import CbcFile.Stream.Buffer
import CbcFile.Stream.Decrypt

namespace CbcFile

/-- where the loop stands between two passes -/
structure Loop where
  previous : Bytes
  block : Bytes
  held : Option Bytes
  read : UInt64
  written : UInt64
  source : Source
  sink : Sink

/-- what one pass comes to -/
inductive Pass where
  /-- the loop goes on here -/
  | again (loop : Loop)
  /-- it has ended here, with this result -/
  | ended (loop : Loop) (result : Except DecryptError Lengths)

namespace Loop

/-- a block of zeros -/
def zeros : Bytes :=
  List.replicate Block.size 0

/-- before the first pass -/
def start (iv : Block) (source : Source) (sink : Sink) : Loop :=
  ⟨iv.toList, zeros, none, 0, 0, source, sink⟩

/-- the end of the input: the block held back is the last one, and loses its padding -/
def finish (loop : Loop) : Checked Pass :=
  match loop.held with
  | none => return .ended loop (.error (.cipher .noFinalBlock))
  | some block => do
    match ← Checked.padding block with
    | none => return .ended loop (.error (.cipher .badPadding))
    | some n =>
      let tail ← Checked.before block (← Checked.minus Block.size n)
      match loop.sink.write tail with
      | (some failure, sink) => return .ended { loop with sink } (.error (.io .writePlaintext failure))
      | (none, sink) =>
        let written ← Checked.count loop.written tail.length
        return .ended { loop with written, sink } (.ok ⟨loop.read.toNat, written.toNat⟩)

/-- the block held back leaves: the failure that stopped it if one did, and the loop after it -/
def release (loop : Loop) : Checked (Option IoFailure × Loop) :=
  match loop.held with
  | none => return (none, loop)
  | some block =>
    match loop.sink.write block with
    | (some failure, sink) => return (some failure, { loop with held := none, sink })
    | (none, sink) => do
      let written ← Checked.count loop.written Block.size
      return (none, { loop with held := none, written, sink })

/-- the block that was read is deciphered and held back -/
def hold (decipher : Block → Block) (loop : Loop) : Checked Loop := do
  let sealed ← Checked.block loop.block
  let plain ← Checked.xorBlocks (decipher sealed).toList loop.previous zeros
  return { loop with previous := loop.block, held := some plain }

/-- a whole block was read: the one held back leaves, and this one is held back in its place -/
def exchange (decipher : Block → Block) (loop : Loop) : Checked Pass := do
  match ← loop.release with
  | (some failure, loop) => return .ended loop (.error (.io .writePlaintext failure))
  | (none, loop) => return .again (← loop.hold decipher)

/-- one pass: as much of a block as there is, and what follows from it -/
def pass (decipher : Block → Block) (loop : Loop) : Checked Pass := do
  let reading ← readInto loop.block loop.source
  let loop := { loop with block := reading.buffer, source := reading.rest }
  match reading.result with
  | .error failure => return .ended loop (.error (.io .readCiphertext failure))
  | .ok n =>
    let read ← Checked.count loop.read n
    let loop := { loop with read }
    if n = 0 then loop.finish
    else if n < Block.size then return .ended loop (.error (.cipher (.misaligned read.toNat)))
    else loop.exchange decipher

/-- where the loop comes to from here, pass after pass -/
inductive Reaches (decipher : Block → Block) (loop : Loop) : Loop → Prop
  | here : Reaches decipher loop loop
  | again {middle next : Loop} : Reaches decipher loop middle → middle.pass decipher = .ok (.again next) →
      Reaches decipher loop next

/-- how the loop ends from here: where it then stands, and with what result -/
inductive Ends (decipher : Block → Block) : Loop → Loop → Except DecryptError Lengths → Prop
  | ended {loop final : Loop} {result : Except DecryptError Lengths} :
      loop.pass decipher = .ok (.ended final result) → Ends decipher loop final result
  | again {loop next final : Loop} {result : Except DecryptError Lengths} :
      loop.pass decipher = .ok (.again next) → Ends decipher next final result → Ends decipher loop final result

end Loop

end CbcFile
