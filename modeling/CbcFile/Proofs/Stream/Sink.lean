/-
What a sink makes of writes. The replies of a sink answer its offers one after the other. A reply that takes something,
or fails in passing, lets a write go on; any other one ends it (`SinkReply.fault?`).

- `deliverEach`: pieces written one after the other, up to the first write that fails;
- `Spent`: what the replies that were used make of the bytes: either none of them ends the write and all bytes are
  received, or the last one does and a proper part of the bytes is;
- `deliver_spent`, `deliverEach_spent`: that is what happens, and the replies that were not reached could be any others.
-/
import Mathlib.Tactic
import CbcFile.Stream.Sink

namespace CbcFile

/-- the failure with which a reply ends a write: taking nothing, or failing other than in passing -/
def SinkReply.fault? : SinkReply → Option IoFailure
  | .accept 0 => some .nothingAccepted
  | .accept (_ + 1) => none
  | .fail failure => if failure.passing then none else some failure

theorem SinkReply.fault?_eq_some {reply : SinkReply} {failure : IoFailure} :
    reply.fault? = some failure ↔
      match reply with
      | .accept most => most = 0 ∧ failure = .nothingAccepted
      | .fail cause => cause.kind ≠ .interrupted ∧ failure = cause := by
  cases reply with
  | accept most => cases most <;> simp [fault?, eq_comm]
  | fail cause => simp [fault?, IoFailure.passing, eq_comm]

/-! ## What replies make of bytes -/

/-- replies that answered a write of `bytes`, with the bytes they took and the failure the write ended with, if it did -/
inductive Spent (used : List SinkReply) (bytes : Bytes) : Bytes → Option IoFailure → Prop
  | whole (hused : ∀ reply ∈ used, reply.fault? = none) : Spent used bytes bytes none
  | stopped {before : List SinkReply} {reply : SinkReply} {failure : IoFailure} {accepted : Bytes}
      (hlast : used = before ++ [reply]) (hbefore : ∀ reply ∈ before, reply.fault? = none)
      (hreply : reply.fault? = some failure) (hpart : accepted <+: bytes) (hless : accepted ≠ bytes) :
      Spent used bytes accepted (some failure)

namespace Spent

variable {used : List SinkReply} {bytes accepted : Bytes} {failure? : Option IoFailure}

/-- the first reply ends the write -/
theorem at_once {reply : SinkReply} {failure : IoFailure} (hreply : reply.fault? = some failure) (hne : bytes ≠ []) :
    Spent [reply] bytes [] (some failure) := by
  refine .stopped (List.nil_append [reply]).symm ?_ hreply List.nil_prefix hne.symm
  exact fun other ho => absurd ho List.not_mem_nil

/-- replies that let the write go on come before the others -/
theorem prepend (first : List SinkReply) (front : Bytes) (hfirst : ∀ reply ∈ first, reply.fault? = none)
    (h : Spent used bytes accepted failure?) : Spent (first ++ used) (front ++ bytes) (front ++ accepted) failure? := by
  have hall : ∀ {replies : List SinkReply}, (∀ reply ∈ replies, reply.fault? = none) →
      ∀ reply ∈ first ++ replies, reply.fault? = none := by
    intro replies hreplies reply hr
    rcases List.mem_append.1 hr with hr | hr
    · exact hfirst reply hr
    · exact hreplies reply hr
  cases h with
  | whole hused => exact .whole (hall hused)
  | stopped hlast hbefore hreply hpart hless =>
    refine .stopped (by rw [hlast, List.append_assoc]) (hall hbefore) hreply ?_ fun hc => ?_
    · exact (List.prefix_append_right_inj front).2 hpart
    · exact hless (List.append_cancel_left hc)

theorem of_none (h : Spent used bytes accepted none) : (∀ reply ∈ used, reply.fault? = none) ∧ accepted = bytes := by
  cases h with
  | whole hused => exact ⟨hused, rfl⟩

theorem of_some {failure : IoFailure} (h : Spent used bytes accepted (some failure)) :
    ∃ before reply, used = before ++ [reply] ∧ (∀ other ∈ before, other.fault? = none) ∧
      reply.fault? = some failure ∧ accepted <+: bytes ∧ accepted ≠ bytes := by
  cases h with
  | stopped hlast hbefore hreply hpart hless => exact ⟨_, _, hlast, hbefore, hreply, hpart, hless⟩

/-- bytes after those at which the write stopped change nothing -/
theorem extend {failure : IoFailure} (h : Spent used bytes accepted (some failure)) (more : Bytes) :
    Spent used (bytes ++ more) accepted (some failure) := by
  cases h with
  | stopped hlast hbefore hreply hpart hless =>
    refine .stopped hlast hbefore hreply (hpart.trans (List.prefix_append bytes more)) fun hc => ?_
    exact hless (hpart.eq_of_length_le (by rw [hc, List.length_append]; exact Nat.le_add_right _ _))

end Spent

/-! ## One write -/

theorem deliver_all (bytes : Bytes) : deliver [] bytes = ⟨bytes, none, []⟩ := by
  cases bytes <;> rfl

theorem Sink.write_nil (sink : Sink) : sink.write [] = (none, sink) := by
  rw [write, deliver, Array.appendList_nil]

theorem Sink.write_all (received : Array UInt8) (bytes : Bytes) :
    Sink.write ⟨[], received⟩ bytes = (none, ⟨[], received ++ bytes⟩) := by
  simp only [Sink.write, deliver_all]

/-- **One write**: the replies it used decide, and those it did not reach do not -/
theorem deliver_spent (replies : List SinkReply) (bytes : Bytes) :
    ∃ used, replies = used ++ (deliver replies bytes).replies ∧
      Spent used bytes (deliver replies bytes).accepted (deliver replies bytes).failure? ∧
      ((deliver replies bytes).replies ≠ [] → ∀ later,
        deliver (used ++ later) bytes = { deliver replies bytes with replies := later }) := by
  fun_induction deliver replies bytes with
  | case1 replies => exact ⟨[], rfl, .whole (by simp), fun _ later => by cases later <;> rfl⟩
  | case2 bytes => exact ⟨[], rfl, .whole (by simp), fun h => absurd rfl h⟩
  | case3 failure replies b bytes hp ih =>
    obtain ⟨used, hreplies, hspent, hlater⟩ := ih
    refine ⟨.fail failure :: used, by rw [List.cons_append, ← hreplies], ?_, fun h later => ?_⟩
    · exact hspent.prepend [.fail failure] [] (by simp [SinkReply.fault?, hp])
    · rw [List.cons_append, deliver, if_pos hp, hlater h]
  | case4 failure replies b bytes hp =>
    refine ⟨[.fail failure], rfl, ?_, fun _ later => ?_⟩
    · exact .at_once (by simp [SinkReply.fault?, hp]) (List.cons_ne_nil b bytes)
    · rw [List.singleton_append, deliver, if_neg hp]
  | case5 replies b bytes =>
    exact ⟨[.accept 0], rfl, .at_once rfl (List.cons_ne_nil b bytes), fun _ later => rfl⟩
  | case6 n replies b bytes more ih =>
    obtain ⟨used, hreplies, hspent, hlater⟩ := ih
    refine ⟨.accept (n + 1) :: used, by rw [List.cons_append, ← hreplies], ?_, fun h later => ?_⟩
    · have hfront := hspent.prepend [.accept (n + 1)] (b :: bytes.take n) (by simp [SinkReply.fault?])
      have hb : b :: bytes.take n ++ bytes.drop n = b :: bytes := by rw [List.cons_append, List.take_append_drop]
      exact hb ▸ hfront
    · rw [List.cons_append, deliver, hlater h]

/-! ## Writes in a row -/

/-- pieces written one after the other, up to the first write that fails -/
def deliverEach : List SinkReply → List Bytes → Delivery
  | replies, [] => ⟨[], none, replies⟩
  | replies, piece :: rest =>
    let first := deliver replies piece
    match first.failure? with
    | some _ => first
    | none =>
      let more := deliverEach first.replies rest
      ⟨first.accepted ++ more.accepted, more.failure?, more.replies⟩

theorem deliverEach_all (pieces : List Bytes) : deliverEach [] pieces = ⟨pieces.flatten, none, []⟩ := by
  induction pieces with
  | nil => rfl
  | cons piece rest ih => simp only [deliverEach, deliver_all, ih, List.flatten_cons]

/-- **Writes in a row** are like one write of all the bytes: the replies they used decide, and those they did not reach
do not -/
theorem deliverEach_spent (replies : List SinkReply) (pieces : List Bytes) :
    ∃ used, replies = used ++ (deliverEach replies pieces).replies ∧
      Spent used pieces.flatten (deliverEach replies pieces).accepted (deliverEach replies pieces).failure? ∧
      ((deliverEach replies pieces).replies ≠ [] → ∀ later,
        deliverEach (used ++ later) pieces = { deliverEach replies pieces with replies := later }) := by
  induction pieces generalizing replies with
  | nil => exact ⟨[], rfl, .whole (by simp), fun _ later => rfl⟩
  | cons piece rest ih =>
    obtain ⟨used, hreplies, hspent, hlater⟩ := deliver_spent replies piece
    cases hf : (deliver replies piece).failure? with
    | some failure =>
      have hstop : deliverEach replies (piece :: rest) = deliver replies piece := by simp only [deliverEach, hf]
      rw [hstop, List.flatten_cons]
      rw [hf] at hspent ⊢
      refine ⟨used, hreplies, hspent.extend rest.flatten, fun h later => ?_⟩
      simp only [deliverEach, hlater h later, hf]
    | none =>
      obtain ⟨more, hmore, hmoreSpent, hmoreLater⟩ := ih (deliver replies piece).replies
      have hgo : deliverEach replies (piece :: rest) =
          ⟨(deliver replies piece).accepted ++ (deliverEach (deliver replies piece).replies rest).accepted,
            (deliverEach (deliver replies piece).replies rest).failure?,
            (deliverEach (deliver replies piece).replies rest).replies⟩ := by simp only [deliverEach, hf]
      rw [hgo, List.flatten_cons]
      rw [hf] at hspent
      refine ⟨used ++ more, by rw [List.append_assoc, ← hmore, ← hreplies], ?_, fun h later => ?_⟩
      · rw [deliver_accepted_eq hf]
        exact hmoreSpent.prepend used piece hspent.of_none.1
      · -- replies that are left at the end were left after the first piece
        have hreach : (deliver replies piece).replies ≠ [] := by
          rw [hmore]
          exact List.append_ne_nil_of_right_ne_nil more h
        rw [List.append_assoc]
        simp only [deliverEach, hlater hreach (more ++ later), hf, hmoreLater h later]

end CbcFile
