/-
Keys of thirty-two bytes, taken verbatim: nothing is derived, cut or filled up.
-/
import CbcFile.Bytes

namespace CbcFile

/-- an AES-256 key -/
abbrev Key := Vector UInt8 32

namespace Key

/-- bytes in a key -/
def size : Nat := 32

/-- the key with these bytes, if there are thirty-two -/
def ofBytes? (bytes : Bytes) : Option Key :=
  if h : bytes.length = 32 then some ⟨bytes.toArray, by simpa using h⟩ else none

/-- the first half of the key -/
def left (key : Key) : Vector UInt8 16 :=
  Vector.ofFn fun i => key[i]

/-- the second half of the key -/
def right (key : Key) : Vector UInt8 16 :=
  Vector.ofFn fun i => key[16 + i.val]

theorem ofBytes?_eq_none {bytes : Bytes} : ofBytes? bytes = none ↔ bytes.length ≠ size := by
  simp [ofBytes?, size]

theorem ofBytes?_toList (key : Key) : ofBytes? key.toList = some key := by
  simp only [ofBytes?, Vector.length_toList, dite_true]
  congr 1

end Key

end CbcFile
