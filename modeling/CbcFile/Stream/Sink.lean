/-
A sink of bytes: the replies it still has to give to writes, and what it has received. A write may take only a part of
what it is offered, or fail. Once the replies are used up it takes everything.

`write` offers again and again until all is taken. It makes no offer at all for nothing.

Main fact: a write that does not fail adds all that it was given (`deliver_accepted_eq`).
-/
import CbcFile.Error

namespace CbcFile

/-- what a sink answers to one offer -/
inductive SinkReply where
  /-- takes at most this many bytes -/
  | accept (most : Nat)
  | fail (failure : IoFailure)
deriving DecidableEq, Repr

/-- what one write leaves: the bytes taken, the failure that stopped it if one did, and the replies from there on -/
structure Delivery where
  accepted : Bytes
  failure? : Option IoFailure
  replies : List SinkReply
deriving DecidableEq, Repr

/-- offers the bytes until all are taken, an offer is answered by taking none, or a failure does not pass -/
def deliver : List SinkReply → Bytes → Delivery
  | replies, [] => ⟨[], none, replies⟩
  | [], bytes => ⟨bytes, none, []⟩
  | .fail failure :: replies, b :: bytes =>
    if failure.passing then deliver replies (b :: bytes) else ⟨[], some failure, replies⟩
  | .accept 0 :: replies, _ :: _ => ⟨[], some .nothingAccepted, replies⟩
  | .accept (n + 1) :: replies, b :: bytes =>
    let more := deliver replies (bytes.drop n)
    ⟨b :: bytes.take n ++ more.accepted, more.failure?, more.replies⟩

/-- a sink: replies to come, and the bytes it has received -/
structure Sink where
  replies : List SinkReply
  received : Array UInt8
deriving DecidableEq, Repr

namespace Sink

/-- a sink that takes everything and has nothing yet -/
def collecting : Sink :=
  ⟨[], #[]⟩

/-- the failure that stopped a write if one did, and the sink after it -/
def write (sink : Sink) (bytes : Bytes) : Option IoFailure × Sink :=
  let delivery := deliver sink.replies bytes
  (delivery.failure?, ⟨delivery.replies, sink.received ++ delivery.accepted⟩)

end Sink

/-! ## Facts -/

/-- a write that does not fail has given all of it -/
theorem deliver_accepted_eq {replies : List SinkReply} {bytes : Bytes}
    (h : (deliver replies bytes).failure? = none) : (deliver replies bytes).accepted = bytes := by
  fun_induction deliver replies bytes with
  | case1 => rfl
  | case2 => rfl
  | case3 failure replies b bytes hp ih => exact ih h
  | case4 => simp at h
  | case5 => simp at h
  | case6 n replies b bytes more ih => simp [more, ih h]

end CbcFile
