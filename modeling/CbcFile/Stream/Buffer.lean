/-
Filling a buffer from a source, one read after the other: each read is offered the part of the buffer that is still to
fill and puts its bytes at the front of it. `readInto` ends when the buffer is full, when a read gives nothing, or with
a failure that does not pass; the places behind the last byte that came keep what they held.

`Source.fill` gives the bytes alone. Every place of the buffer that is used here is checked.
-/
import CbcFile.Checked
import CbcFile.Stream.Source

namespace CbcFile

namespace Source

/-- one read of up to `n` bytes, and the source after it; what a reply has left stays in front -/
def read (n : Nat) : Source → Except IoFailure Bytes × Source
  | [] => (.ok [], [])
  | .fail failure :: rest => (.error failure, rest)
  | .data bytes :: rest =>
    match bytes.drop n with
    | [] => (.ok bytes, rest)
    | left => (.ok (bytes.take n), .data left :: rest)

theorem eq_of_read_error {n : Nat} {source rest : Source} {failure : IoFailure}
    (h : source.read n = (.error failure, rest)) : source = .fail failure :: rest := by
  unfold read at h
  split at h
  · cases h
  · cases h
    rfl
  · split at h <;> cases h

/-- a read takes its bytes from the front, and no reply is added -/
theorem of_read_ok {n : Nat} {source rest : Source} {piece : Bytes} (h : source.read n = (.ok piece, rest)) :
    piece ++ rest.data = source.data ∧ rest.length ≤ source.length := by
  unfold read at h
  split at h
  · cases h
    exact ⟨rfl, Nat.le_refl 0⟩
  · cases h
  · rename_i bytes later
    split at h
    · cases h
      exact ⟨rfl, Nat.le_succ _⟩
    · obtain ⟨hpiece, rfl⟩ := Prod.mk.inj h
      rw [← Except.ok.inj hpiece]
      refine ⟨?_, Nat.le_refl _⟩
      simp only [data_cons, replyBytes]
      rw [← List.append_assoc, List.take_append_drop]

theorem read_error_shorter {n : Nat} {source rest : Source} {failure : IoFailure}
    (h : source.read n = (.error failure, rest)) : rest.length + rest.size < source.length + source.size := by
  rw [eq_of_read_error h]
  simp [size, replyBytes]

theorem read_ok_shorter {n : Nat} {source rest : Source} {b : UInt8} {piece : Bytes}
    (h : source.read n = (.ok (b :: piece), rest)) : rest.length + rest.size < source.length + source.size := by
  obtain ⟨hdata, hlength⟩ := of_read_ok h
  have hsize : source.size = (b :: piece).length + rest.size := by rw [size, ← hdata, List.length_append]; rfl
  rw [hsize, List.length_cons]
  omega

end Source

/-- the bytes written over a buffer from a place on -/
def overwrite (buffer : Bytes) (place : Nat) (bytes : Bytes) : Bytes :=
  buffer.take place ++ bytes ++ buffer.drop (place + bytes.length)

/-- what filling a buffer leaves: the buffer, how many bytes came or the failure that stopped them, and the source -/
structure Reading where
  buffer : Bytes
  result : Except IoFailure Nat
  rest : Source

/-- goes on filling a buffer of which some bytes are filled -/
def fillFrom (buffer : Bytes) (filled : Nat) (source : Source) : Checked Reading :=
  if filled < buffer.length then do
    let window ← Checked.behind buffer filled
    match _h : source.read window.length with
    | (.ok [], rest) => return ⟨buffer, .ok filled, rest⟩
    | (.ok (b :: piece), rest) =>
      let further ← Checked.advance buffer filled (b :: piece).length
      fillFrom (overwrite buffer filled (b :: piece)) further rest
    | (.error failure, rest) =>
      if failure.passing then fillFrom buffer filled rest
      else return ⟨buffer, .error failure, rest⟩
  else return ⟨buffer, .ok filled, source⟩
termination_by source.length + source.size
decreasing_by
  · exact Source.read_ok_shorter _h
  · exact Source.read_error_shorter _h

/-- fills a buffer as far as the source goes -/
def readInto (buffer : Bytes) (source : Source) : Checked Reading :=
  fillFrom buffer 0 source

end CbcFile
