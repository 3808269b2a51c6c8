/-
One block's exclusive or over a buffer, place after place: at each of the sixteen places a byte of either operand is
read, and their exclusive or is put into the buffer. Every place is checked when it is used, the operands' before the
buffer's. The first one that is missing ends it, and what was put into the buffer before stays there.

`xorInto` gives the same at once.
-/
import CbcFile.Checked

namespace CbcFile

/-- what going over a buffer leaves: the buffer, and the bound that was overrun if one was -/
structure Overwritten where
  buffer : Bytes
  overrun? : Option Overrun
deriving DecidableEq, Repr

/-- one place of the buffer -/
def xorAt (a b : Bytes) (place : Nat) (buffer : Bytes) : Checked Bytes := do
  let x ← Checked.byteAt a place
  let y ← Checked.byteAt b place
  Checked.putByte buffer place (x ^^^ y)

/-- the places from this one on -/
def xorFrom (a b : Bytes) (place : Nat) (buffer : Bytes) : Overwritten :=
  if place < Block.size then
    match xorAt a b place buffer with
    | .ok buffer => xorFrom a b (place + 1) buffer
    | .error overrun => ⟨buffer, some overrun⟩
  else ⟨buffer, none⟩
termination_by Block.size - place

/-- one block's exclusive or over a buffer -/
def xorOver (a b buffer : Bytes) : Overwritten :=
  xorFrom a b 0 buffer

end CbcFile
