/-
No sink can corrupt, reorder, duplicate or hide output. What a run writes does not depend on the sink: a source and a
key fix the pieces that it writes and the result that it comes to, and a sink can only end the run before that.

- `Writes`: a run writes these pieces and comes to this result, unless a write fails;
- `decryptStream_writes`: every run does so. The induction is on the ciphertext blocks, each of which makes one piece of
  the block held back before it.

Result:
- `decryptStream_delivery`: a run on any sink is the run on a sink that takes everything, with the same bytes received,
  if all replies that answered its writes let them go on. Otherwise it fails with the first one that did not, and a
  proper part of those bytes is received. Replies that it did not reach change nothing.
-/
import Mathlib.Tactic
import CbcFile.Proofs.Stream.Decrypt

namespace CbcFile

/-! ## The pieces of a run -/

/-- whatever the sink, a run writes these pieces and comes to this result; a write that fails gives its failure instead -/
def Writes (run : Sink → Outcome Lengths) (pieces : List Bytes) (result : Except DecryptError Lengths) : Prop :=
  ∀ replies received,
    let delivery := deliverEach replies pieces
    (run ⟨replies, received⟩).sink = ⟨delivery.replies, received ++ delivery.accepted⟩ ∧
    (run ⟨replies, received⟩).result =
      match delivery.failure? with
      | none => result
      | some failure => .error (.io .writePlaintext failure)

/-- a run that ends without writing -/
theorem writes_nothing {result : Except DecryptError Lengths} {source : Source} :
    Writes (fun sink => ⟨result, source, sink⟩) [] result := by
  intro replies received
  exact ⟨by simp only [deliverEach, Array.appendList_nil], rfl⟩

/-- a run that writes a piece before it goes on -/
theorem Writes.cons {run : Sink → Outcome Lengths} {pieces : List Bytes} {result : Except DecryptError Lengths}
    (h : Writes run pieces result) (piece : Bytes) (source : Source) :
    Writes (fun sink => match sink.write piece with
      | (some failure, sink) => ⟨.error (.io .writePlaintext failure), source, sink⟩
      | (none, sink) => run sink) (piece :: pieces) result := by
  intro replies received
  simp only [Sink.write, deliverEach]
  cases hf : (deliver replies piece).failure? with
  | some failure => simp only [hf, and_self]
  | none =>
    obtain ⟨hsink, hresult⟩ := h (deliver replies piece).replies (received ++ (deliver replies piece).accepted)
    refine ⟨?_, hresult⟩
    rw [hsink, append_joined]

theorem finish_writes (progress : Progress) (source : Source) :
    ∃ pieces result, Writes (finish progress source) pieces result := by
  unfold finish
  cases progress.held with
  | none => exact ⟨_, _, writes_nothing⟩
  | some block =>
    simp only
    cases paddingLength? block with
    | none => exact ⟨_, _, writes_nothing⟩
    | some n => exact ⟨_, _, writes_nothing.cons (block.toList.take (Block.size - n)) source⟩

/-- the end of a run, where less than a block is left before the stop -/
theorem decryptFrom_writes_end (decipher : Block → Block) (progress : Progress) {source : Source}
    (hshort : source.lead.length < 16) : ∃ pieces result, Writes (decryptFrom decipher progress source) pieces result := by
  cases hs : source.stop? with
  | some failure =>
    have hrun : decryptFrom decipher progress source = fun sink =>
        ⟨.error (.io .readCiphertext failure), source.beyond, sink⟩ :=
      funext fun sink => by rw [decryptFrom_stop hshort, hs]
    rw [hrun]
    exact ⟨_, _, writes_nothing⟩
  | none =>
    by_cases hnil : source.lead = []
    · have hrun : decryptFrom decipher progress source = finish progress source.beyond :=
        funext fun sink => by simp only [decryptFrom_stop hshort, hs, if_pos hnil]
      rw [hrun]
      exact finish_writes progress source.beyond
    · have hrun : decryptFrom decipher progress source = fun sink =>
          ⟨.error (.cipher (.misaligned (progress.read + source.lead.length))), source.beyond, sink⟩ :=
        funext fun sink => by simp only [decryptFrom_stop hshort, hs, if_neg hnil]
      rw [hrun]
      exact ⟨_, _, writes_nothing⟩

/-- **The blocks of a run**, each of which lets the block before it leave -/
theorem decryptFrom_writes (decipher : Block → Block) (progress : Progress) (source : Source) (blocks : List Block)
    {tail : Bytes} (hl : source.lead = Block.joined blocks ++ tail) (ht : tail.length < 16) :
    ∃ pieces result, Writes (decryptFrom decipher progress source) pieces result := by
  induction blocks generalizing progress source with
  | nil =>
    have hshort : source.lead.length < 16 := by rw [hl]; exact ht
    exact decryptFrom_writes_end decipher progress hshort
  | cons b rest ih =>
    rw [Block.joined_cons, List.append_assoc] at hl
    obtain ⟨-, -, hlead, -⟩ := Source.fill_full Block.size source (by simp [hl, Block.size])
    have hl' : (source.fill Block.size).rest.lead = Block.joined rest ++ tail := by
      rw [hlead, hl, List.drop_left' (by simp [Block.size])]
    obtain ⟨pieces, result, hrest⟩ := ih (progress.advance decipher b) (source.fill Block.size).rest hl'
    -- the block just read is held back; the one held back until now is written
    refine ⟨progress.free :: pieces, result, ?_⟩
    rw [show decryptFrom decipher progress source = _ from funext fun sink => decryptFrom_block hl]
    exact hrest.cons progress.free (source.fill Block.size).rest

/-- **Every run** writes pieces that the source and the key fix -/
theorem decryptStream_writes (key : Key) (source : Source) :
    ∃ pieces result, Writes (decryptStream key source) pieces result := by
  unfold decryptStream
  cases readIv source with
  | mk read rest =>
    cases read with
    | error error => exact ⟨_, _, writes_nothing⟩
    | ok iv =>
      obtain ⟨blocks, tail, hl, ht⟩ := Block.blocks_and_tail rest.lead
      exact decryptFrom_writes _ (.start iv) rest blocks hl ht

/-! ## Any sink -/

/-- **No sink can corrupt, reorder, duplicate or hide output.** Let `full` be the run with a sink that takes everything,
and `used` the replies that answered the offers which a run with these replies makes; once the replies are used up,
every offer is taken. If each reply in `used` takes something or fails in passing, the run has the result of `full` and
the same bytes are received, however little each reply took. Otherwise the last reply in `used` is the first that does
not; the run fails to write the plaintext, with its failure, and what is received is a proper prefix of what `full`
wrote. If there are replies that were not reached, the outcome is the same with any others in their place. -/
theorem decryptStream_delivery (key : Key) (source : Source) (replies : List SinkReply) :
    let full := decryptStream key source .collecting
    let outcome := decryptStream key source ⟨replies, #[]⟩
    ∃ used, replies = used ++ outcome.sink.replies ∧
      (if ∀ reply ∈ used, reply.fault? = none then
        outcome.result = full.result ∧ outcome.sink.received = full.sink.received
      else ∃ before reply failure, used = before ++ [reply] ∧ (∀ other ∈ before, other.fault? = none) ∧
        (match reply with
          | .accept most => most = 0 ∧ failure = ⟨.writeZero, "failed to write whole buffer", none⟩
          | .fail cause => cause.kind ≠ .interrupted ∧ failure = cause) ∧
        outcome.result = .error (.io .writePlaintext failure) ∧
        Activity.text .writePlaintext = "failed to write plaintext" ∧
        outcome.sink.received.toList <+: full.sink.received.toList ∧
        outcome.sink.received ≠ full.sink.received) ∧
      (outcome.sink.replies ≠ [] → ∀ others,
        let other := decryptStream key source ⟨used ++ others, #[]⟩
        other.result = outcome.result ∧ other.sink = ⟨others, outcome.sink.received⟩) := by
  intro full outcome
  obtain ⟨pieces, result, hwrites⟩ := decryptStream_writes key source
  obtain ⟨used, hreplies, hspent, hothers⟩ := deliverEach_spent replies pieces
  obtain ⟨hsink, hresult⟩ : outcome.sink = _ ∧ outcome.result = _ := hwrites replies #[]
  have hfull : full.sink = ⟨[], (#[] : Array UInt8) ++ pieces.flatten⟩ ∧ full.result = result := by
    have h := hwrites [] #[]
    rw [deliverEach_all] at h
    exact h
  refine ⟨used, ?_, ?_, fun hleft others => ?_⟩
  · rw [hsink]
    exact hreplies
  · cases hf : (deliverEach replies pieces).failure? with
    | none =>
      rw [hf] at hspent hresult
      obtain ⟨hused, haccepted⟩ := hspent.of_none
      rw [if_pos hused, hresult, hsink, hfull.1, hfull.2, haccepted]
      exact ⟨rfl, rfl⟩
    | some failure =>
      rw [hf] at hspent hresult
      obtain ⟨before, reply, hlast, hbefore, hreply, hpart, hless⟩ := hspent.of_some
      have hstop : ¬ ∀ reply ∈ used, reply.fault? = none := by
        intro hall
        have hnone := hall reply (by rw [hlast]; simp)
        rw [hreply] at hnone
        cases hnone
      rw [if_neg hstop]
      refine ⟨before, reply, failure, hlast, hbefore, SinkReply.fault?_eq_some.1 hreply, hresult, rfl, ?_, ?_⟩
      · simpa [hsink, hfull.1] using hpart
      · intro hc
        rw [hsink, hfull.1] at hc
        exact hless (by simpa using congrArg Array.toList hc)
  · rw [hsink] at hleft
    obtain ⟨hother, hotherResult⟩ := hwrites (used ++ others) #[]
    rw [hothers hleft others] at hother hotherResult
    refine ⟨hotherResult.trans hresult.symm, ?_⟩
    rw [hother, hsink]

end CbcFile
