/-
Plaintext leaves one block behind the reading. Between two reads a run has released all plaintext blocks but the one it
holds back (`Progress.Behind`); a further block of ciphertext keeps this (`Behind.advance`). So where a run ends fixes how
many bytes it has consumed and how many the sink has accepted.

- `Ending`: the four ways to end, in the write of a block, in the write of the unpadded tail, refused, or whole;
- `decryptFrom_ending`: every run ends in one of them. The induction is on the ciphertext blocks, and carries the blocks
  released before.

Result:
- `release_one_block_behind`: the bytes consumed and the bytes accepted in each way to end. Nothing of the block last read
  leaves before the input has ended and its padding has been seen, and no byte of padding ever does.
-/
import Mathlib.Tactic
import CbcFile.Proofs.Stream.Decrypt

namespace CbcFile

open Block (joined wholeBlocks)

/-! ## One write -/

/-- **A write** passes on all bytes, or fails after a proper part of them -/
theorem Sink.write_cases (sink : Sink) (bytes : Bytes) :
    (∃ replies, sink.write bytes = (none, ⟨replies, sink.received ++ bytes⟩)) ∨
    ∃ failure replies, ∃ part : Bytes, part <+: bytes ∧ part ≠ bytes ∧
      sink.write bytes = (some failure, ⟨replies, sink.received ++ part⟩) := by
  obtain ⟨used, -, hspent, -⟩ := deliver_spent sink.replies bytes
  have hwrite : sink.write bytes = ((deliver sink.replies bytes).failure?,
      ⟨(deliver sink.replies bytes).replies, sink.received ++ (deliver sink.replies bytes).accepted⟩) := rfl
  rw [hwrite]
  cases hf : (deliver sink.replies bytes).failure? with
  | none =>
    rw [deliver_accepted_eq hf]
    exact Or.inl ⟨_, rfl⟩
  | some failure =>
    rw [hf] at hspent
    obtain ⟨-, -, -, -, -, hpart, hless⟩ := hspent.of_some
    exact Or.inr ⟨failure, _, _, hpart, hless, rfl⟩

theorem length_lt_of_part {part bytes : Bytes} (hpart : part <+: bytes) (hless : part ≠ bytes) :
    part.length < bytes.length := by
  apply lt_of_le_of_ne hpart.length_le
  intro hc
  exact hless (hpart.eq_of_length hc)

/-! ## Between two reads -/

/-- these plaintext blocks have left, and the ciphertext read is that of one block more -/
structure Progress.Behind (progress : Progress) (earlier : List Block) : Prop where
  read : progress.read = 16 * (earlier ++ progress.held.toList).length
  released : progress.released = 16 * earlier.length
  first : progress.held = none → earlier = []

namespace Progress.Behind

theorem start (iv : Block) : (Progress.start iv).Behind [] :=
  ⟨rfl, rfl, fun _ => rfl⟩

/-- **One step** releases the block held back and holds the next one back -/
theorem advance {progress : Progress} {earlier : List Block} (h : progress.Behind earlier) (decipher : Block → Block)
    (sealed : Block) : (progress.advance decipher sealed).Behind (earlier ++ progress.held.toList) := by
  refine ⟨?_, ?_, nofun⟩
  · simp only [Progress.advance, h.read, Block.size, Option.toList_some, List.length_append, List.length_singleton]
    omega
  · simp only [Progress.advance, h.released, Block.size, List.length_append]
    cases progress.held with
    | none => rfl
    | some block => simp only [Option.isSome_some, if_true, Option.toList_some, List.length_singleton]; omega

end Progress.Behind

/-! ## The end of a run -/

/-- how a run ends whose whole blocks decrypt to `plain`, with `tail` after them before the source stops: the source that
is left, the number of bytes consumed, the bytes accepted and the result -/
inductive Ending (plain : List Block) (tail : Bytes) (stop? : Option IoFailure) (beyond : Source) :
    Source → Nat → Bytes → Except DecryptError Lengths → Prop
  /-- a write failed that a further block had allowed; no more than that block has been read -/
  | inBlock {front rest : List Block} {block : Block} {part : Bytes} {left : Source} {failure : IoFailure}
      (hplain : plain = front ++ block :: rest) (hrest : rest ≠ []) (hpart : part <+: block.toList)
      (hless : part ≠ block.toList) :
      Ending plain tail stop? beyond left (16 * (front.length + 2)) (joined front ++ part)
        (.error (.io .writePlaintext failure))
  /-- the write of what stands before the padding failed -/
  | inTail {front : List Block} {last : Block} {n : Nat} {part : Bytes} {failure : IoFailure}
      (hplain : plain = front ++ [last]) (hpadding : paddingLength? last = some n) (hend : tail = []) (hstop : stop? = none)
      (hpart : part <+: last.toList.take (16 - n)) (hless : part ≠ last.toList.take (16 - n)) :
      Ending plain tail stop? beyond beyond (16 * (front.length + 1)) (joined front ++ part)
        (.error (.io .writePlaintext failure))
  /-- the source failed, or the cipher refused what came before it stopped -/
  | refused {error : DecryptError} (herror : ∀ failure, error ≠ .io .writePlaintext failure) :
      Ending plain tail stop? beyond beyond (16 * plain.length + tail.length) (joined plain.dropLast) (.error error)
  /-- all has been written but the padding -/
  | whole {front : List Block} {last : Block} {n : Nat} (hplain : plain = front ++ [last])
      (hpadding : paddingLength? last = some n) (hend : tail = []) (hstop : stop? = none) :
      Ending plain tail stop? beyond beyond (16 * (front.length + 1)) (joined front ++ last.toList.take (16 - n))
        (.ok ⟨16 * (front.length + 1), 16 * front.length + (16 - n)⟩)

/-- **The end of the input**: the block held back is the last one -/
theorem finish_ending {progress : Progress} {earlier : List Block} (h : progress.Behind earlier) (source : Source)
    (sink : Sink) :
    ∃ replies result, ∃ accepted : Bytes,
      finish progress source sink = ⟨result, source, ⟨replies, sink.received ++ accepted⟩⟩ ∧
      Ending (earlier ++ progress.held.toList) [] none source source progress.read (joined earlier ++ accepted) result := by
  have hnothing : (⟨sink.replies, sink.received ++ ([] : Bytes)⟩ : Sink) = sink :=
    congrArg (Sink.mk sink.replies) Array.appendList_nil
  have hread := h.read
  cases hheld : progress.held with
  | none =>
    have hfinish : finish progress source sink = ⟨.error (.cipher .noFinalBlock), source, sink⟩ := by
      rw [finish, hheld]
    rw [hfinish, hread, hheld, h.first hheld]
    exact ⟨sink.replies, _, [], by rw [hnothing], .refused (by simp)⟩
  | some block =>
    rw [hheld, Option.toList_some, List.length_append, List.length_singleton] at hread
    rw [hread, Option.toList_some]
    cases hn : paddingLength? block with
    | none =>
      have hfinish : finish progress source sink = ⟨.error (.cipher .badPadding), source, sink⟩ := by
        simp only [finish, hheld, hn]
      have hended : Ending (earlier ++ [block]) [] none source source (16 * (earlier ++ [block]).length + 0)
          (joined (earlier ++ [block]).dropLast) (.error (.cipher .badPadding)) := .refused (by simp)
      rw [List.dropLast_concat, List.length_append, List.length_singleton, Nat.add_zero] at hended
      rw [hfinish]
      exact ⟨sink.replies, _, [], by rw [hnothing], by rw [List.append_nil]; exact hended⟩
    | some n =>
      rcases sink.write_cases (block.toList.take (16 - n)) with
        ⟨replies, hwrite⟩ | ⟨failure, replies, part, hpart, hless, hwrite⟩
      · have hlength : (block.toList.take (16 - n)).length = 16 - n := by simp
        have hfinish : finish progress source sink =
            ⟨.ok ⟨16 * (earlier.length + 1), 16 * earlier.length + (16 - n)⟩, source,
              ⟨replies, sink.received ++ block.toList.take (16 - n)⟩⟩ := by
          simp only [finish, hheld, hn, Block.size, hwrite, hread, h.released, hlength]
        exact ⟨replies, _, _, hfinish, .whole rfl hn rfl rfl⟩
      · have hfinish : finish progress source sink =
            ⟨.error (.io .writePlaintext failure), source, ⟨replies, sink.received ++ part⟩⟩ := by
          simp only [finish, hheld, hn, Block.size, hwrite]
        exact ⟨replies, _, part, hfinish, .inTail rfl hn rfl rfl hpart hless⟩

/-- **Every run ends so** -/
theorem decryptFrom_ending (decipher : Block → Block) (progress : Progress) {earlier : List Block}
    (h : progress.Behind earlier) (source : Source) (sink : Sink) (blocks : List Block) {tail : Bytes}
    (hl : source.lead = joined blocks ++ tail) (ht : tail.length < 16) :
    let outcome := decryptFrom decipher progress source sink
    ∃ taken accepted : Bytes, source.data = taken ++ outcome.source.data ∧
      outcome.sink.received = sink.received ++ accepted ∧
      Ending (earlier ++ progress.plain decipher blocks) tail source.stop? source.beyond outcome.source
        (progress.read + taken.length) (joined earlier ++ accepted) outcome.result := by
  induction blocks generalizing progress earlier source sink with
  | nil =>
    have hlead : source.lead = tail := hl
    have hplain : progress.plain decipher [] = progress.held.toList := List.append_nil _
    have hdata : source.data = tail ++ source.beyond.data := by rw [← hlead, source.lead_append_beyond]
    have hnothing : sink.received = sink.received ++ ([] : Bytes) := Array.appendList_nil.symm
    have hwritten : joined earlier ++ [] = joined (earlier ++ progress.held.toList).dropLast := by
      cases hheld : progress.held with
      | none => rw [h.first hheld]; rfl
      | some block => simp
    rw [hplain, decryptFrom_stop (by rw [hlead]; exact ht), hlead]
    cases hstop : source.stop? with
    | some failure =>
      refine ⟨tail, [], hdata, hnothing, ?_⟩
      rw [h.read, hwritten]
      exact .refused (by simp)
    | none =>
      by_cases htail : tail = []
      · simp only [if_pos htail]
        obtain ⟨replies, result, accepted, hfinish, hending⟩ := finish_ending h source.beyond sink
        rw [hfinish]
        rw [htail] at hdata ⊢
        exact ⟨[], accepted, hdata, rfl, hending⟩
      · simp only [if_neg htail]
        refine ⟨tail, [], hdata, hnothing, ?_⟩
        rw [h.read, hwritten]
        exact .refused (by simp)
  | cons sealed rest ih =>
    rw [Block.joined_cons, List.append_assoc] at hl
    obtain ⟨hbytes, -, hlead, hstop, hbeyond⟩ := Source.fill_full Block.size source (by simp [hl, Block.size])
    have htaken : (source.fill Block.size).bytes = sealed.toList := by
      rw [hbytes, hl, List.take_left' (by simp [Block.size])]
    have hdata : source.data = sealed.toList ++ (source.fill Block.size).rest.data := by
      rw [← htaken, Source.fill_bytes_append_data]
    have hlead' : (source.fill Block.size).rest.lead = joined rest ++ tail := by
      rw [hlead, hl, List.drop_left' (by simp [Block.size])]
    have hlength : sealed.toList.length = 16 := Vector.length_toList
    rw [decryptFrom_block hl, Progress.plain_cons]
    rcases sink.write_cases progress.free with ⟨replies, hwrite⟩ | ⟨failure, replies, part, hpart, hless, hwrite⟩
    · -- the block held back has left, and the one just read is held back in its place
      simp only [hwrite]
      obtain ⟨taken, accepted, hrest, hreceived, hending⟩ := ih (progress.advance decipher sealed)
        (h.advance decipher sealed) (source.fill Block.size).rest ⟨replies, sink.received ++ progress.free⟩ hlead'
      refine ⟨sealed.toList ++ taken, progress.free ++ accepted, ?_, ?_, ?_⟩
      · rw [hdata, hrest, List.append_assoc]
      · rw [hreceived, append_joined]
      · have hcount : (progress.advance decipher sealed).read + taken.length =
            progress.read + (sealed.toList ++ taken).length := by
          rw [List.length_append, hlength, ← Nat.add_assoc]
          rfl
        rw [hstop, hbeyond, hcount, Block.joined_append, Progress.joined_held, List.append_assoc, List.append_assoc]
          at hending
        exact hending
    · -- a write fails only if a block is held back
      simp only [hwrite]
      cases hheld : progress.held with
      | none =>
        have hfree : progress.free = [] := by rw [Progress.free, hheld]
        rw [hfree] at hpart hless
        exact absurd (List.prefix_nil.1 hpart) hless
      | some block =>
        have hfree : progress.free = block.toList := by rw [Progress.free, hheld]
        rw [hfree] at hpart hless
        refine ⟨sealed.toList, part, hdata, rfl, ?_⟩
        have hcount : progress.read + sealed.toList.length = 16 * (earlier.length + 2) := by
          rw [h.read, hheld, hlength]
          simp
          omega
        rw [hcount]
        exact .inBlock rfl (Progress.plain_advance_ne_nil decipher progress sealed rest) hpart hless

/-! ## Reading and releasing -/

/-- the input has ended without a failure, what is left of the source is behind its end, and the last plaintext block ends
in `pad` bytes of padding -/
structure PaddingSeen (source : Source) (plain : List Block) (left : Source) (pad : Nat) : Prop where
  ended : source.stop? = none
  behind : left = source.beyond
  padded : ∃ last, plain.getLast? = some last ∧ paddingLength? last = some pad

namespace Ending

variable {source left : Source} {plain : List Block} {tail : Bytes} {c : Nat} {accepted : Bytes}
  {result : Except DecryptError Lengths}

theorem consumed_le (h : Ending plain tail source.stop? source.beyond left c accepted result) :
    c ≤ 16 * plain.length + tail.length := by
  cases h with
  | @inBlock front rest block part left failure hplain hrest hpart hless =>
    have hpos := List.length_pos_iff.2 hrest
    rw [hplain, List.length_append, List.length_cons]
    omega
  | inTail hplain => simp [hplain]
  | refused => exact le_refl _
  | whole hplain => simp [hplain]

/-- what is accepted is the beginning of the plaintext -/
theorem isPrefix (h : Ending plain tail source.stop? source.beyond left c accepted result) : accepted <+: joined plain := by
  cases h with
  | inBlock hplain hrest hpart hless =>
    rw [hplain, Block.joined_append, Block.joined_cons]
    exact (List.prefix_append_right_inj _).2 (hpart.trans (List.prefix_append _ _))
  | inTail hplain hpadding hend hstop hpart hless =>
    rw [hplain, Block.joined_append, Block.joined_cons, Block.joined_nil, List.append_nil]
    exact (List.prefix_append_right_inj _).2 (hpart.trans (List.take_prefix _ _))
  | refused herror =>
    obtain ⟨rest, hrest⟩ := plain.dropLast_prefix
    exact ⟨joined rest, by rw [← Block.joined_append, hrest]⟩
  | @whole front last n hplain hpadding hend hstop =>
    rw [hplain, Block.joined_append, Block.joined_cons, Block.joined_nil, List.append_nil]
    exact (List.prefix_append_right_inj _).2 (List.take_prefix _ _)

/-- **The ways to end in numbers** of bytes consumed and accepted -/
theorem sizes (h : Ending plain tail source.stop? source.beyond left c accepted result) (htail : tail.length < 16) :
    (∃ failure, result = .error (.io .writePlaintext failure) ∧ accepted.length / 16 + 1 < plain.length ∧
      c = 16 * (accepted.length / 16 + 2)) ∨
    (∃ failure pad, result = .error (.io .writePlaintext failure) ∧ accepted.length / 16 + 1 = plain.length ∧
      c = 16 * (accepted.length / 16 + 1) ∧ PaddingSeen source plain left pad ∧ accepted.length < c - pad) ∨
    (∃ error, result = .error error ∧ (∀ failure, error ≠ .io .writePlaintext failure) ∧
      accepted.length = if c < 16 then 0 else 16 * (c / 16 - 1)) ∨
    ∃ pad, result = .ok ⟨c, accepted.length⟩ ∧ 1 ≤ pad ∧ pad ≤ 16 ∧ PaddingSeen source plain left pad ∧
      accepted.length = c - pad ∧ 16 ≤ c := by
  cases h with
  | @inBlock front rest block part left failure hplain hrest hpart hless =>
    have hshort := length_lt_of_part hpart hless
    have hmore := List.length_pos_iff.2 hrest
    rw [Vector.length_toList] at hshort
    refine Or.inl ⟨failure, rfl, ?_, ?_⟩
    · rw [hplain, List.length_append, List.length_append, List.length_cons, Block.length_joined]
      omega
    · rw [List.length_append, Block.length_joined]
      omega
  | @inTail front last n part failure hplain hpadding hend hstop hpart hless =>
    have hshort := length_lt_of_part hpart hless
    rw [List.length_take, Vector.length_toList] at hshort
    have hlast : plain.getLast? = some last := by rw [hplain, List.getLast?_concat]
    have hseen : PaddingSeen source plain source.beyond n := ⟨hstop, rfl, last, hlast, hpadding⟩
    refine Or.inr (Or.inl ⟨failure, n, rfl, ?_, ?_, hseen, ?_⟩)
    · rw [hplain, List.length_append, List.length_append, List.length_singleton, Block.length_joined]
      omega
    · rw [List.length_append, Block.length_joined]
      omega
    · rw [List.length_append, Block.length_joined]
      omega
  | refused herror =>
    refine Or.inr (Or.inr (Or.inl ⟨_, rfl, herror, ?_⟩))
    rw [Block.length_joined, List.length_dropLast]
    split_ifs <;> omega
  | @whole front last n hplain hpadding hend hstop =>
    have hn := paddingLength?_le hpadding
    have hlength : (joined front ++ last.toList.take (16 - n)).length = 16 * front.length + (16 - n) := by simp
    rw [Block.size] at hn
    rw [hlength]
    have hlast : plain.getLast? = some last := by rw [hplain, List.getLast?_concat]
    have hseen : PaddingSeen source plain source.beyond n := ⟨hstop, rfl, last, hlast, hpadding⟩
    refine Or.inr (Or.inr (Or.inr ⟨n, rfl, hn.1, hn.2, hseen, ?_, ?_⟩))
    · omega
    · omega

end Ending

/-- **A whole run ends so**, and its blocks are those of the bytes before the source stops -/
theorem decryptCiphertext_ending (key : Key) (iv : Block) (source : Source) (sink : Sink) :
    let outcome := decryptCiphertext key iv source sink
    let plain := Cbc.decrypt (Aes.decryptBlock (.ofKey key)) iv (wholeBlocks source.lead)
    let c := source.size - outcome.source.size
    let accepted := outcome.sink.received.toList.drop sink.received.size
    source.data = source.lead.take c ++ outcome.source.data ∧ outcome.sink.received = sink.received ++ accepted ∧
    ∃ tail : Bytes, tail.length < 16 ∧
      Ending plain tail source.stop? source.beyond outcome.source c accepted outcome.result := by
  intro outcome plain c accepted
  obtain ⟨blocks, tail, hl, ht⟩ := Block.blocks_and_tail source.lead
  have hplain : plain = (Progress.start iv).plain (Aes.decryptBlock (.ofKey key)) blocks := by
    simp only [plain, hl, Block.wholeBlocks_append blocks ht]
    rfl
  have hlength : source.lead.length = 16 * plain.length + tail.length := by
    rw [Cbc.length_decrypt, hl, Block.wholeBlocks_append blocks ht, List.length_append, Block.length_joined]
  obtain ⟨taken, given, hdata, hreceived, hending⟩ :=
    decryptFrom_ending (Aes.decryptBlock (.ofKey key)) (.start iv) (.start iv) source sink blocks hl ht
  change source.data = taken ++ outcome.source.data at hdata
  change outcome.sink.received = sink.received ++ given at hreceived
  rw [← hplain, show (Progress.start iv).read = 0 from rfl, Nat.zero_add] at hending
  change Ending plain tail source.stop? source.beyond outcome.source taken.length given outcome.result at hending
  have hcount : taken.length = c := by
    have hsize : source.size = taken.length + outcome.source.size := by
      rw [Source.size, hdata, List.length_append]
      rfl
    omega
  have hgiven : given = accepted := by simp [accepted, hreceived]
  -- nothing behind the end of the input is taken
  have htaken : taken = source.lead.take c := by
    have hprefix : taken <+: source.lead := by
      refine List.prefix_of_prefix_length_le ⟨_, hdata.symm⟩ ⟨_, source.lead_append_beyond⟩ ?_
      rw [hlength]
      exact hending.consumed_le
    rw [← hcount]
    exact List.prefix_iff_eq_take.1 hprefix
  rw [hcount, hgiven] at hending
  exact ⟨by rw [← htaken]; exact hdata, by rw [← hgiven]; exact hreceived, tail, ht, hending⟩

/-- **Plaintext is released in lockstep with the reading, one block behind it.** Let `c` be the number of bytes that a run
consumes, and `w` the number of bytes that the sink accepts in it; they are the first bytes of the source and of the
plaintext. All blocks before block `w / 16` are accepted in full, so a write that fails is that of block `w / 16`. If this
is not the last block, exactly one further block has been read; if it is, the input has ended and a write of its bytes
before the padding has failed. If the run fails otherwise, everything but the block last read has been accepted. If it
succeeds, everything but the padding has, and `w` is the length that it tells. In every run, and so at every moment of
one, as a sink can stop it anywhere: if a byte of the block last read has been accepted, then the input has ended, its
padding has been seen, and no byte of the padding is accepted. -/
theorem release_one_block_behind (key : Key) (iv : Block) (source : Source) (sink : Sink) :
    let outcome := decryptCiphertext key iv source sink
    let plain := Cbc.decrypt (Aes.decryptBlock (.ofKey key)) iv (wholeBlocks source.lead)
    let c := source.size - outcome.source.size
    let accepted := outcome.sink.received.toList.drop sink.received.size
    let w := accepted.length
    source.data = source.lead.take c ++ outcome.source.data ∧
    outcome.sink.received = sink.received ++ accepted ∧ accepted <+: joined plain ∧
    (match outcome.result with
      | .error (.io .writePlaintext _) =>
        if w / 16 + 1 < plain.length then c = 16 * (w / 16 + 2)
        else c = 16 * (w / 16 + 1) ∧ ∃ pad, PaddingSeen source plain outcome.source pad ∧ w < c - pad
      | .error _ => w = if c < 16 then 0 else 16 * (c / 16 - 1)
      | .ok lengths => ∃ pad, 1 ≤ pad ∧ pad ≤ 16 ∧ PaddingSeen source plain outcome.source pad ∧ w = c - pad ∧
          lengths = ⟨c, w⟩) ∧
    (16 * (c / 16 - 1) < w → ∃ pad, PaddingSeen source plain outcome.source pad ∧ w ≤ c - pad) := by
  intro outcome plain c accepted w
  obtain ⟨hdata, hreceived, tail, ht, hend⟩ := decryptCiphertext_ending key iv source sink
  change Ending plain tail source.stop? source.beyond outcome.source c accepted outcome.result at hend
  refine ⟨hdata, hreceived, hend.isPrefix, ?_⟩
  rcases hend.sizes ht with ⟨failure, hresult, hmore, hread⟩ | ⟨failure, pad, hresult, hlast, hread, hseen, hless⟩ |
    ⟨error, hresult, herror, hw⟩ | ⟨pad, hresult, hone, hpad, hseen, hw, hlong⟩
  · rw [hresult]
    refine ⟨(if_pos hmore).mpr hread, fun hc => ?_⟩
    omega
  · rw [hresult]
    exact ⟨(if_neg hlast.not_lt).mpr ⟨hread, pad, hseen, hless⟩, fun _ => ⟨pad, hseen, hless.le⟩⟩
  · rw [hresult]
    refine ⟨?_, fun hc => ?_⟩
    · split
      · rename_i failure hfailure
        exact absurd (Except.error.inj hfailure) (herror failure)
      · exact hw
      · contradiction
    · -- everything but the block last read has been accepted, and nothing of that block
      change 16 * (c / 16 - 1) < accepted.length at hc
      rw [hw] at hc
      split_ifs at hc <;> omega
  · rw [hresult]
    exact ⟨⟨pad, hone, hpad, hseen, hw, rfl⟩, fun _ => ⟨pad, hseen, hw.le⟩⟩

end CbcFile
