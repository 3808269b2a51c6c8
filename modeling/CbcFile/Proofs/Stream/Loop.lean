/-
The loop over the blocks stays in bounds and counts what it reads. What is computed with buffers and counters of 64 bits is
the run of `decryptFrom`, whose blocks have their length by their type and whose numbers have no end.

- `Loop.Shows`: between two passes the buffers hold the blocks of such a run, the counters hold its numbers, and every byte
  that the source has lost is counted;
- `pass_follows`: one pass overruns nothing and keeps this, or ends as the run does. The counters hold because all that is
  counted has been read from the source;
- `shows_of_reaches`, `exists_ends`, `run_of_ends`: so does every row of passes; there is a last one, and it ends as the run
  does. That there is one is by induction on the bytes that the source has left, of which every other pass takes sixteen.

Result:
- `loop_stays_in_bounds`: bounds and counters at every pass of every loop, its end, and that this is the decryption.
-/
import Mathlib.Tactic
import CbcFile.Stream.Loop
import CbcFile.Proofs.Stream.Buffer
import CbcFile.Proofs.Stream.Lockstep

namespace CbcFile

/-! ## Reading a block -/

section Reading

variable {buffer : Bytes} {source : Source}

/-- sixteen bytes before the stop fill the buffer -/
theorem readInto_block (hbuffer : buffer.length = Block.size) {sealed : Block} {rest : Bytes}
    (h : source.lead = sealed.toList ++ rest) :
    readInto buffer source = .ok ⟨sealed.toList, .ok Block.size, (source.fill Block.size).rest⟩ := by
  have hlength : sealed.toList.length = Block.size := Vector.length_toList
  obtain ⟨hbytes, hfailure, -⟩ := Source.fill_full Block.size source (by simp [h, Block.size])
  rw [h, List.take_left' hlength] at hbytes
  have hnone : buffer.drop Block.size = [] := List.drop_eq_nil_of_le hbuffer.le
  rw [readInto_eq, hbuffer]
  simp only [landed, hbytes, hfailure, List.nil_append, hlength, hnone, List.append_nil, Option.elim_none]

/-- fewer bytes do not, and the stop is told -/
theorem readInto_stop (hbuffer : buffer.length = Block.size) (h : source.lead.length < 16) :
    readInto buffer source = .ok ⟨source.lead ++ buffer.drop source.lead.length,
      source.stop?.elim (.ok source.lead.length) .error, source.beyond⟩ := by
  rw [readInto_eq, hbuffer, Source.fill_short Block.size source h]
  rfl

end Reading

namespace Loop

/-! ## Between two passes -/

/-- the bytes that the source has lost are as many as are counted -/
def Counted (whole : Bytes) (loop : Loop) : Prop :=
  ∃ taken : Bytes, whole = taken ++ loop.source.data ∧ taken.length = loop.read.toNat

/-- the loop stands where a run does: its buffers hold the blocks of the run, and its counters the numbers -/
structure Shows (whole : Bytes) (loop : Loop) (progress : Progress) : Prop where
  previous : loop.previous = progress.previous.toList
  block : loop.block.length = Block.size
  held : loop.held = progress.held.map Vector.toList
  read : loop.read.toNat = progress.read
  written : loop.written.toNat = progress.released
  behind : ∃ earlier, progress.Behind earlier
  counted : loop.Counted whole

theorem shows_start (iv : Block) (source : Source) (sink : Sink) :
    (start iv source sink).Shows source.data (.start iv) :=
  ⟨rfl, rfl, rfl, rfl, rfl, ⟨[], .start iv⟩, [], rfl, rfl⟩

/-- what a pass comes to for a loop that stands where a run does -/
inductive Follows (decipher : Block → Block) (whole : Bytes) (loop : Loop) (progress : Progress) : Pass → Prop
  /-- a block further, where the run goes on as well -/
  | again {next : Loop} {further : Progress} (hshows : next.Shows whole further)
      (hsize : next.source.size + 16 = loop.source.size)
      (hrun : decryptFrom decipher progress loop.source loop.sink = decryptFrom decipher further next.source next.sink) :
      Follows decipher whole loop progress (.again next)
  /-- the end of the run; only what a failed read has taken is not counted -/
  | ended {final : Loop} {result : Except DecryptError Lengths} (hwritten : final.written ≤ final.read)
      (hcounted : final.Counted whole ∨
        final.read = loop.read ∧ ∃ failure, result = .error (.io .readCiphertext failure))
      (hrun : decryptFrom decipher progress loop.source loop.sink = ⟨result, final.source, final.sink⟩) :
      Follows decipher whole loop progress (.ended final result)

section Pass

variable {decipher : Block → Block} {whole : Bytes} {loop : Loop} {progress : Progress}

/-- the block held back has been read, so there is room for it in the counter of what is written -/
theorem Shows.room (h : loop.Shows whole progress) :
    loop.written.toNat + (if progress.held.isSome then 16 else 0) = loop.read.toNat := by
  obtain ⟨earlier, hbehind⟩ := h.behind
  rw [h.written, h.read, hbehind.read, hbehind.released]
  cases progress.held with
  | none => simp
  | some block => simp; omega

theorem Shows.written_le (h : loop.Shows whole progress) : loop.written ≤ loop.read := by
  rw [UInt64.le_iff_toNat_le]
  have hroom := h.room
  omega

/-- what is counted and what the source holds is all there is -/
theorem Counted.size (h : loop.Counted whole) : loop.read.toNat + loop.source.size = whole.length := by
  obtain ⟨taken, hwhole, hlength⟩ := h
  rw [hwhole, List.length_append, hlength]
  rfl

/-- the last block is padded: what stands before its padding leaves, and is counted -/
theorem finish_padded (h : loop.Shows whole progress) (hwhole : whole.length < UInt64.size) {block : Block} {n : Nat}
    (hprogress : progress.held = some block) (hn : paddingLength? block = some n) :
    ∃ final result, loop.finish = .ok (.ended final result) ∧
      CbcFile.finish progress loop.source loop.sink = ⟨result, final.source, final.sink⟩ ∧
      final.written ≤ final.read ∧ final.Counted whole := by
  have hheld := h.held
  have hroom := h.room
  have hsize := h.counted.size
  rw [hprogress] at hheld hroom
  simp only [Option.isSome_some, if_true] at hroom
  have hpadding := Checked.padding_toList block
  have hminus : Checked.minus Block.size n = .ok (Block.size - n) := Checked.within_of (paddingLength?_le hn).2
  have hlength : (block.toList.take (Block.size - n)).length = 16 - n := by simp [Block.size]
  have hbefore : Checked.before block.toList (Block.size - n) = .ok (block.toList.take (Block.size - n)) :=
    Checked.within_of (by simp [Block.size])
  rcases hwrite : loop.sink.write (block.toList.take (Block.size - n)) with ⟨_ | failure, sink⟩
  · obtain ⟨written, hcount, hnumber⟩ := Checked.count_of_lt (show
      loop.written.toNat + (block.toList.take (Block.size - n)).length < UInt64.size by omega)
    refine ⟨{ loop with written, sink }, .ok ⟨loop.read.toNat, written.toNat⟩, ?_, ?_, ?_, h.counted⟩
    · simp only [finish, hheld, Option.map_some, hpadding, hn, hminus, hbefore, hwrite, hcount, Checked.ok_bind,
        Checked.pure_eq_ok]
    · simp only [CbcFile.finish, hprogress, hn, hwrite, hnumber, h.read, h.written]
    · change written ≤ loop.read
      rw [UInt64.le_iff_toNat_le]
      omega
  · refine ⟨{ loop with sink }, .error (.io .writePlaintext failure), ?_, ?_, h.written_le, h.counted⟩
    · simp only [finish, hheld, Option.map_some, hpadding, hn, hminus, hbefore, hwrite, Checked.ok_bind,
        Checked.pure_eq_ok]
    · simp only [CbcFile.finish, hprogress, hn, hwrite]

/-- **The end of the input** -/
theorem finish_follows (h : loop.Shows whole progress) (hwhole : whole.length < UInt64.size) :
    ∃ final result, loop.finish = .ok (.ended final result) ∧
      CbcFile.finish progress loop.source loop.sink = ⟨result, final.source, final.sink⟩ ∧
      final.written ≤ final.read ∧ final.Counted whole := by
  have hheld := h.held
  cases hprogress : progress.held with
  | none =>
    rw [hprogress] at hheld
    refine ⟨loop, .error (.cipher .noFinalBlock), ?_, ?_, h.written_le, h.counted⟩
    · simp only [finish, hheld, Option.map_none, Checked.pure_eq_ok]
    · simp only [CbcFile.finish, hprogress]
  | some block =>
    cases hn : paddingLength? block with
    | none =>
      have hpadding := Checked.padding_toList block
      rw [hprogress] at hheld
      refine ⟨loop, .error (.cipher .badPadding), ?_, ?_, h.written_le, h.counted⟩
      · simp only [finish, hheld, Option.map_some, hpadding, hn, Checked.ok_bind, Checked.pure_eq_ok]
      · simp only [CbcFile.finish, hprogress, hn]
    | some n => exact finish_padded h hwhole hprogress hn

/-- **A block held back leaves**, and is counted when it has left; where there is none, nothing is written -/
theorem release_eq (loop : Loop) (hheld : loop.held = progress.held.map Vector.toList)
    (hbound : loop.written.toNat + Block.size < UInt64.size) :
    (∃ failure sink, loop.sink.write progress.free = (some failure, sink) ∧
      loop.release = .ok (some failure, { loop with held := none, sink })) ∨
    ∃ sink written, loop.sink.write progress.free = (none, sink) ∧
      loop.release = .ok (none, { loop with held := none, written, sink }) ∧
      written.toNat = loop.written.toNat + if progress.held.isSome then Block.size else 0 := by
  cases hprogress : progress.held with
  | none =>
    rw [hprogress] at hheld
    have hfree : progress.free = [] := by rw [Progress.free, hprogress]
    have hsame : { loop with held := none } = loop := by rw [← show loop.held = none from hheld]
    refine Or.inr ⟨loop.sink, loop.written, ?_, ?_, rfl⟩
    · rw [hfree, Sink.write_nil]
    · rw [release, hheld]
      exact congrArg (fun same => Except.ok (none, same)) hsame.symm
  | some block =>
    rw [hprogress] at hheld
    have hfree : progress.free = block.toList := by rw [Progress.free, hprogress]
    rcases hwrite : loop.sink.write block.toList with ⟨_ | failure, sink⟩
    · obtain ⟨written, hcount, hnumber⟩ := Checked.count_of_lt hbound
      refine Or.inr ⟨sink, written, by rw [hfree, hwrite], ?_, hnumber⟩
      simp only [release, hheld, Option.map_some, hwrite, hcount, Checked.ok_bind, Checked.pure_eq_ok]
    · refine Or.inl ⟨failure, sink, by rw [hfree, hwrite], ?_⟩
      simp only [release, hheld, Option.map_some, hwrite, Checked.pure_eq_ok]

/-- **A block is deciphered** in buffers that all have its length -/
theorem hold_eq (decipher : Block → Block) (loop : Loop) {sealed previous : Block} (hblock : loop.block = sealed.toList)
    (hprevious : loop.previous = previous.toList) :
    loop.hold decipher =
      .ok { loop with previous := sealed.toList, held := some ((decipher sealed).xor previous).toList } := by
  have hxor : Checked.xorBlocks (decipher sealed).toList previous.toList zeros =
      .ok ((decipher sealed).xor previous).toList :=
    Checked.xorBlocks_eq_ok.2 ⟨by simp [zeros, Block.size], xorFirst_toList _ _ rfl⟩
  simp only [hold, hblock, hprevious, Checked.block_toList, hxor, Checked.ok_bind, Checked.pure_eq_ok]

/-- what a pass reads is counted: there is room in the counter, and no byte of the source is left out -/
theorem Counted.count (h : loop.Counted whole) (hwhole : whole.length < UInt64.size) {came : Bytes} {rest : Source}
    (hcame : loop.source.data = came ++ rest.data) (block : Bytes) :
    ∃ read, Checked.count loop.read came.length = .ok read ∧ read.toNat = loop.read.toNat + came.length ∧
      Counted whole { loop with block, read, source := rest } := by
  have hsize := h.size
  rw [Source.size, hcame, List.length_append] at hsize
  obtain ⟨read, hcount, hnumber⟩ := Checked.count_of_lt (show loop.read.toNat + came.length < UInt64.size by omega)
  obtain ⟨taken, hdata, hlength⟩ := h
  refine ⟨read, hcount, hnumber, taken ++ came, ?_, ?_⟩
  · rw [hdata, hcame, List.append_assoc]
  · rw [List.length_append, hlength, hnumber]

/-- **A block of input** -/
theorem pass_follows_block (h : loop.Shows whole progress) (hwhole : whole.length < UInt64.size) {sealed : Block}
    {rest : Bytes} (hlead : loop.source.lead = sealed.toList ++ rest) :
    ∃ pass, loop.pass decipher = .ok pass ∧ Follows decipher whole loop progress pass := by
  obtain ⟨earlier, hbehind⟩ := h.behind
  have hroom := h.room
  have hsize := h.counted.size
  have hread := readInto_block h.block hlead
  have hsixteen : sealed.toList.length = Block.size := Vector.length_toList
  -- the block is taken from the source, and counted
  have htaken : (loop.source.fill Block.size).bytes = sealed.toList := by
    rw [(Source.fill_full Block.size loop.source (by simp [hlead, Block.size])).1, hlead, List.take_left' hsixteen]
  have hleft : loop.source.data = sealed.toList ++ (loop.source.fill Block.size).rest.data := by
    rw [← htaken, Source.fill_bytes_append_data]
  have hless : (loop.source.fill Block.size).rest.size + 16 = loop.source.size := by
    rw [Source.size, Source.size, hleft, List.length_append, hsixteen, Block.size, Nat.add_comm]
  obtain ⟨read, hcount, hnumber, hcounted⟩ := h.counted.count hwhole hleft sealed.toList
  rw [hsixteen] at hcount hnumber
  let middle : Loop := { loop with block := sealed.toList, read, source := (loop.source.fill Block.size).rest }
  have hpass : loop.pass decipher = middle.exchange decipher := by
    simp only [pass, hread, hcount, Checked.ok_bind]
    rw [if_neg (by decide), if_neg (lt_irrefl _)]
  have hbound : middle.written.toNat + Block.size < UInt64.size := by
    change loop.written.toNat + Block.size < UInt64.size
    rw [Block.size] at hnumber ⊢
    omega
  rw [hpass, exchange]
  rcases release_eq middle h.held hbound with ⟨failure, sink, hwrite, hrelease⟩ |
    ⟨sink, written, hwrite, hrelease, hwritten⟩
  · -- the run ends with the write of the block held back
    rw [hrelease, Checked.ok_bind]
    refine ⟨_, rfl, .ended ?_ (Or.inl hcounted) ?_⟩
    · change loop.written ≤ read
      rw [UInt64.le_iff_toNat_le, hnumber]
      omega
    · rw [decryptFrom_block hlead, show loop.sink.write progress.free = _ from hwrite]
  · -- the block just read is held back in its place
    let next : Loop := { middle with
      previous := sealed.toList, held := some ((decipher sealed).xor progress.previous).toList, written, sink }
    have hhold : hold decipher { middle with held := none, written, sink } = .ok next := hold_eq decipher _ rfl h.previous
    have hread' : next.read.toNat = (progress.advance decipher sealed).read := by
      change read.toNat = progress.read + Block.size
      rw [hnumber, h.read]
    have hwritten' : next.written.toNat = (progress.advance decipher sealed).released := by
      change written.toNat = _
      rw [hwritten, show middle.written.toNat = _ from h.written]
      rfl
    have hshows : next.Shows whole (progress.advance decipher sealed) :=
      ⟨rfl, hsixteen, rfl, hread', hwritten', ⟨_, hbehind.advance decipher sealed⟩, hcounted⟩
    rw [hrelease, Checked.ok_bind]
    simp only [hhold, Checked.ok_bind, Checked.pure_eq_ok]
    refine ⟨_, rfl, .again hshows hless ?_⟩
    rw [decryptFrom_block hlead, show loop.sink.write progress.free = _ from hwrite]

/-- **A failed read**; what it has taken is not counted -/
theorem pass_follows_failed (h : loop.Shows whole progress) (hlead : loop.source.lead.length < 16) {failure : IoFailure}
    (hstop : loop.source.stop? = some failure) :
    ∃ pass, loop.pass decipher = .ok pass ∧ Follows decipher whole loop progress pass := by
  have hread := readInto_stop h.block hlead
  rw [hstop, Option.elim_some] at hread
  have hrun := @decryptFrom_stop decipher progress loop.source loop.sink hlead
  simp only [hstop] at hrun
  let final : Loop := { loop with
    block := loop.source.lead ++ loop.block.drop loop.source.lead.length, source := loop.source.beyond }
  have hwritten : final.written ≤ final.read := h.written_le
  refine ⟨_, ?_, .ended hwritten (Or.inr ⟨rfl, failure, rfl⟩) hrun⟩
  simp only [pass, hread, Checked.ok_bind, Checked.pure_eq_ok, final]

/-- **The end of the input**, or an empty read -/
theorem pass_follows_end (h : loop.Shows whole progress) (hwhole : whole.length < UInt64.size)
    (hlead : loop.source.lead = []) (hstop : loop.source.stop? = none) :
    ∃ pass, loop.pass decipher = .ok pass ∧ Follows decipher whole loop progress pass := by
  have hread := readInto_stop h.block (by rw [hlead]; decide)
  rw [hstop, Option.elim_none, hlead, List.length_nil, List.drop_zero, List.nil_append] at hread
  have hbeyond := loop.source.lead_append_beyond.symm
  rw [hlead] at hbeyond
  obtain ⟨read, hcount, hnumber, hcounted⟩ := h.counted.count hwhole hbeyond loop.block
  let middle : Loop := { loop with read, source := loop.source.beyond }
  have hshows : middle.Shows whole progress :=
    ⟨h.previous, h.block, h.held, hnumber.trans h.read, h.written, h.behind, hcounted⟩
  obtain ⟨final, result, hfinish, hend, hwritten, hall⟩ := finish_follows hshows hwhole
  refine ⟨.ended final result, ?_, .ended hwritten (Or.inl hall) ?_⟩
  · simp only [pass, hread, Checked.ok_bind, show Checked.count loop.read 0 = .ok read from hcount, if_true]
    exact hfinish
  · rw [decryptFrom_stop (by rw [hlead]; decide), hstop]
    simp only [hlead, if_true]
    exact hend

/-- **A block that is cut off** -/
theorem pass_follows_cut (h : loop.Shows whole progress) (hwhole : whole.length < UInt64.size)
    (hlead : loop.source.lead.length < 16) (hsome : loop.source.lead ≠ []) (hstop : loop.source.stop? = none) :
    ∃ pass, loop.pass decipher = .ok pass ∧ Follows decipher whole loop progress pass := by
  have hread := readInto_stop h.block hlead
  rw [hstop, Option.elim_none] at hread
  obtain ⟨read, hcount, hnumber, hcounted⟩ := h.counted.count hwhole loop.source.lead_append_beyond.symm
    (loop.source.lead ++ loop.block.drop loop.source.lead.length)
  have hrun := @decryptFrom_stop decipher progress loop.source loop.sink hlead
  simp only [hstop, if_neg hsome, ← h.read, ← hnumber] at hrun
  refine ⟨_, ?_, .ended ?_ (Or.inl hcounted) hrun⟩
  · simp only [pass, hread, hcount, Checked.ok_bind]
    rw [if_neg (mt List.length_eq_zero_iff.1 hsome), if_pos (show loop.source.lead.length < Block.size from hlead)]
    rfl
  · have hle := UInt64.le_iff_toNat_le.1 h.written_le
    change loop.written ≤ read
    rw [UInt64.le_iff_toNat_le, hnumber]
    omega

/-- **One pass** overruns nothing, and does what the run does -/
theorem pass_follows (decipher : Block → Block) (h : loop.Shows whole progress) (hwhole : whole.length < UInt64.size) :
    ∃ pass, loop.pass decipher = .ok pass ∧ Follows decipher whole loop progress pass := by
  by_cases hlead : loop.source.lead.length < 16
  · cases hstop : loop.source.stop? with
    | some failure => exact pass_follows_failed h hlead hstop
    | none =>
      by_cases hnothing : loop.source.lead = []
      · exact pass_follows_end h hwhole hnothing hstop
      · exact pass_follows_cut h hwhole hlead hnothing hstop
  · obtain ⟨sealed, hsealed⟩ : ∃ sealed : Block, sealed.toList = loop.source.lead.take 16 :=
      Block.exists_toList (by rw [List.length_take]; omega)
    have hsplit : loop.source.lead = sealed.toList ++ loop.source.lead.drop 16 := by
      rw [hsealed, List.take_append_drop]
    exact pass_follows_block h hwhole hsplit

/-- what is known to come of a pass does what the run does -/
theorem follows_of_pass (h : loop.Shows whole progress) (hwhole : whole.length < UInt64.size) {pass : CbcFile.Pass}
    (hpass : loop.pass decipher = .ok pass) : Follows decipher whole loop progress pass := by
  obtain ⟨other, hother, hfollows⟩ := pass_follows decipher h hwhole
  rw [hpass] at hother
  rw [Except.ok.inj hother]
  exact hfollows

end Pass

/-! ## Rows of passes -/

section Run

variable {decipher : Block → Block} {whole : Bytes} {loop : Loop} {progress : Progress}

/-- **Wherever the loop comes to**, it stands where a run does -/
theorem shows_of_reaches {other : Loop} (h : loop.Shows whole progress) (hwhole : whole.length < UInt64.size)
    (hreaches : loop.Reaches decipher other) : ∃ further, other.Shows whole further := by
  induction hreaches with
  | here => exact ⟨progress, h⟩
  | again hreaches hpass ih =>
    obtain ⟨further, hshows⟩ := ih
    cases follows_of_pass hshows hwhole hpass with
    | again hnext => exact ⟨_, hnext⟩

/-- **The loop ends** -/
theorem exists_ends (decipher : Block → Block) (h : loop.Shows whole progress) (hwhole : whole.length < UInt64.size) :
    ∃ final result, loop.Ends decipher final result := by
  -- every pass but the last takes sixteen bytes from the source
  induction hn : loop.source.size using Nat.strong_induction_on generalizing loop progress with
  | _ n ih =>
    obtain ⟨pass, hpass, hfollows⟩ := pass_follows decipher h hwhole
    cases hfollows with
    | @again next further hshows hsize hrun =>
      obtain ⟨final, result, hends⟩ := ih next.source.size (by omega) hshows rfl
      exact ⟨final, result, .again hpass hends⟩
    | @ended final result hwritten hcounted hrun => exact ⟨final, result, .ended hpass⟩

/-- **Where the loop ends, the run does**, and with its result -/
theorem run_of_ends {final : Loop} {result : Except DecryptError Lengths} (h : loop.Shows whole progress)
    (hwhole : whole.length < UInt64.size) (hends : loop.Ends decipher final result) :
    decryptFrom decipher progress loop.source loop.sink = ⟨result, final.source, final.sink⟩ := by
  induction hends generalizing progress with
  | ended hpass =>
    cases follows_of_pass h hwhole hpass with
    | ended hwritten hcounted hrun => exact hrun
  | again hpass hlater ih =>
    cases follows_of_pass h hwhole hpass with
    | again hshows hsize hrun => exact hrun.trans (ih hshows)

end Run

end Loop

/-! ## The whole loop -/

/-- **The loop stays in bounds, counts what it reads, and ends.** Take any key, any initial vector, any source whose bytes
are fewer than 64 bits can count, and any sink, and start the loop on them. Wherever it comes to, the bytes that the source
has lost are as many as the counter of what is read says, and the counter of what is written does not exceed it; all of its
buffers are as long as a block; and the next pass overruns nothing: no place outside a buffer is used, no difference goes
below zero and no sum beyond 64 bits. That pass either goes on, and has then taken sixteen bytes from the source, or is the
last one; then, too, no more is written than read, and all that the source has lost is counted, or a read has failed and
the counter is as it was before it. The loop does end, and where it ends, its result, its source and its sink are those of
the decryption. -/
theorem loop_stays_in_bounds (key : Key) (iv : Block) (source : Source) (sink : Sink) (h : source.size < 2 ^ 64) :
    let decipher := Aes.decryptBlock (.ofKey key)
    let start := Loop.start iv source sink
    (∀ loop, start.Reaches decipher loop →
      loop.Counted source.data ∧ loop.written ≤ loop.read ∧
      loop.previous.length = 16 ∧ loop.block.length = 16 ∧ (∀ plain, loop.held = some plain → plain.length = 16) ∧
      ∃ pass, loop.pass decipher = .ok pass ∧
        match pass with
        | .again next => next.source.size + 16 = loop.source.size
        | .ended final result => final.written ≤ final.read ∧
            (final.Counted source.data ∨
              final.read = loop.read ∧ ∃ failure, result = .error (.io .readCiphertext failure))) ∧
    (∃ final result, start.Ends decipher final result) ∧
    ∀ final result, start.Ends decipher final result →
      decryptCiphertext key iv source sink = ⟨result, final.source, final.sink⟩ := by
  intro decipher start
  have hwhole : source.data.length < UInt64.size := by
    rw [show UInt64.size = 2 ^ 64 from rfl]
    exact h
  have hstart := Loop.shows_start iv source sink
  refine ⟨?_, Loop.exists_ends decipher hstart hwhole, fun final result => Loop.run_of_ends hstart hwhole⟩
  intro loop hreaches
  obtain ⟨progress, hshows⟩ := Loop.shows_of_reaches hstart hwhole hreaches
  obtain ⟨pass, hpass, hfollows⟩ := Loop.pass_follows decipher hshows hwhole
  have hprevious : loop.previous.length = 16 := by rw [hshows.previous, Vector.length_toList]
  have hheld : ∀ plain, loop.held = some plain → plain.length = 16 := by
    intro plain hplain
    rw [hshows.held] at hplain
    obtain ⟨block, -, rfl⟩ := Option.map_eq_some_iff.1 hplain
    exact Vector.length_toList
  refine ⟨hshows.counted, hshows.written_le, hprevious, hshows.block, hheld, pass, hpass, ?_⟩
  cases hfollows with
  | again hnext hsize hrun => exact hsize
  | ended hwritten hcounted hrun => exact ⟨hwritten, hcounted⟩

/-- two blocks cut across replies, a failure that passes between them, and a sink that takes five bytes at first -/
theorem loop_stays_in_bounds_torn :
    let key : Key := .replicate 32 3
    let iv : Block := .replicate 16 1
    let source : Source := [.data (List.replicate 20 7), .fail (.ofKind .interrupted), .data (List.replicate 12 8)]
    let sink : Sink := ⟨[.accept 5, .fail (.ofKind .interrupted)], #[]⟩
    let decipher := Aes.decryptBlock (.ofKey key)
    source.size < 2 ^ 64 ∧ (∃ pass, (Loop.start iv source sink).pass decipher = .ok pass) ∧
    ∃ final result, (Loop.start iv source sink).Ends decipher final result ∧
      decryptCiphertext key iv source sink = ⟨result, final.source, final.sink⟩ := by
  intro key iv source sink decipher
  have hsize : source.size < 2 ^ 64 := by decide
  obtain ⟨hbounds, ⟨final, result, hends⟩, hrun⟩ := loop_stays_in_bounds key iv source sink hsize
  obtain ⟨-, -, -, -, -, pass, hpass, -⟩ := hbounds _ .here
  exact ⟨hsize, ⟨pass, hpass⟩, final, result, hends, hrun final result hends⟩

end CbcFile
