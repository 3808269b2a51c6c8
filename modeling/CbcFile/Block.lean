/-
Blocks of sixteen bytes and their XOR, with the same operation on buffers of any length: `xorInto` writes `a[i] ^ b[i]`
over the first sixteen places of a buffer and stops at the first place that one of the three lacks.

Main facts: `xor` is its own inverse (`xor_cancel`); cutting joined blocks gives them back (`wholeBlocks_joined`).
-/
import CbcFile.Bytes

namespace CbcFile

/-- one cipher block: an initial vector, a ciphertext block or a plaintext block -/
abbrev Block := Vector UInt8 16

namespace Block

/-- bytes in a block -/
def size : Nat := 16

/-- the block with these bytes, if there are sixteen -/
def ofBytes? (bytes : Bytes) : Option Block :=
  if h : bytes.length = 16 then some ⟨bytes.toArray, by simpa using h⟩ else none

/-- byte by byte exclusive or -/
def xor (a b : Block) : Block :=
  Vector.zipWith (· ^^^ ·) a b

theorem ofBytes?_eq_some {bytes : Bytes} {b : Block} : ofBytes? bytes = some b ↔ bytes = b.toList := by
  unfold ofBytes?
  constructor
  · intro h
    split at h
    · cases h; simp [Vector.toList]
    · cases h
  · rintro rfl
    simp only [Vector.length_toList, dite_true]
    congr 1

theorem length_of_ofBytes? {bytes : Bytes} {b : Block} (h : ofBytes? bytes = some b) : bytes.length = 16 := by
  rw [ofBytes?_eq_some.1 h, Vector.length_toList]

theorem xor_assoc (a b c : Block) : xor (xor a b) c = xor a (xor b c) := by
  ext i hi
  simp [xor, UInt8.xor_assoc]

theorem xor_cancel (a b : Block) : xor (xor a b) b = a := by
  ext i hi
  simp only [xor, Vector.getElem_zipWith, UInt8.xor_assoc, UInt8.xor_self, UInt8.xor_zero]

/-! ## Byte strings made of blocks -/

/-- the whole blocks that a byte string begins with; what is left after them is no block -/
def wholeBlocks (bytes : Bytes) : List Block :=
  match _h : ofBytes? (bytes.take size) with
  | none => []
  | some block => block :: wholeBlocks (bytes.drop size)
termination_by bytes.length
decreasing_by
  have hl : (bytes.take size).length = 16 := length_of_ofBytes? _h
  rw [List.length_take] at hl
  rw [List.length_drop]
  have hs : size = 16 := rfl
  omega

/-- the bytes of blocks in order -/
def joined (blocks : List Block) : Bytes :=
  blocks.flatMap Vector.toList

theorem wholeBlocks_joined (blocks : List Block) : wholeBlocks (joined blocks) = blocks := by
  induction blocks with
  | nil => rw [wholeBlocks]; rfl
  | cons b rest ih =>
    have hb : joined (b :: rest) = b.toList ++ joined rest := rfl
    have hl : b.toList.length = size := Vector.length_toList
    have ht : (joined (b :: rest)).take size = b.toList := by rw [hb, ← hl, List.take_left]
    have hd : (joined (b :: rest)).drop size = joined rest := by rw [hb, ← hl, List.drop_left]
    rw [wholeBlocks, hd, ih]
    have ho : ofBytes? ((joined (b :: rest)).take size) = some b := ofBytes?_eq_some.2 ht
    split
    · rename_i hn
      rw [hn] at ho
      cases ho
    · rename_i c hc
      rw [hc] at ho
      cases ho
      rfl

end Block

/-! ## Buffers of any length -/

/-- what `xorInto` leaves: the whole buffer, and the first place below sixteen that some operand lacked -/
structure Overlay where
  buffer : Bytes
  missing? : Option Nat
deriving DecidableEq, Repr

/-- the buffer with `a ^ b` over its first `n` places, as far as all three reach -/
def xorFirst : Nat → Bytes → Bytes → Bytes → Bytes
  | n + 1, x :: a, y :: b, _ :: out => (x ^^^ y) :: xorFirst n a b out
  | _, _, _, out => out

/-- one block's XOR over a buffer -/
def xorInto (a b out : Bytes) : Overlay :=
  let reach := min a.length (min b.length out.length)
  ⟨xorFirst Block.size a b out, if reach < Block.size then some reach else none⟩

end CbcFile
