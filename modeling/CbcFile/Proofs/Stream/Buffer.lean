/-
A buffer is filled or the source stops, and nothing is read ahead. `readInto` makes one read after the other into the part
of a buffer that is still to fill.

- `fillFrom_append`: it stays inside the buffer, and what it leaves is what `Source.fill` gives, laid over the buffer. The
  induction is on the replies and carries the bytes that are in the buffer already;
- `Source.Takes`: which replies some bytes come from, read off the replies;
- `Source.calm`: the source without the failures that pass.

Result:
- `readInto_fills_or_stops`: for every source and buffer, the bytes that came, where they are, what is left of the source,
  and what is told.
-/
import Mathlib.Tactic
import CbcFile.Stream.Buffer
import CbcFile.Proofs.Stream.Partition

namespace CbcFile

/-! ## One read -/

namespace Source

theorem read_fail (n : Nat) (failure : IoFailure) (rest : Source) :
    read n (.fail failure :: rest) = (.error failure, rest) := rfl

/-- a read that wants all of a reply uses it up -/
theorem read_data_of_le {n : Nat} {bytes : Bytes} (h : bytes.length ≤ n) (rest : Source) :
    read n (.data bytes :: rest) = (.ok bytes, rest) := by
  simp only [read, List.drop_eq_nil_of_le h]

/-- a read that wants less leaves the other bytes of it in front -/
theorem read_data_of_lt {n : Nat} {bytes : Bytes} (h : n < bytes.length) (rest : Source) :
    read n (.data bytes :: rest) = (.ok (bytes.take n), .data (bytes.drop n) :: rest) := by
  obtain ⟨b, left, hleft⟩ := List.exists_cons_of_ne_nil (mt List.drop_eq_nil_iff.1 (not_le.2 h))
  simp only [read, hleft]

end Source

/-! ## Filling a buffer -/

/-- **Bytes written behind what is filled** move the border between what is filled and what is not -/
theorem overwrite_append (front window piece : Bytes) :
    overwrite (front ++ window) front.length piece = front ++ piece ++ window.drop piece.length := by
  rw [overwrite, List.take_left, List.drop_append, List.drop_eq_nil_of_le (Nat.le_add_right _ _), List.nil_append,
    Nat.add_sub_cancel_left]

section Step

variable {front window : Bytes} {source rest : Source}

theorem fillFrom_full (front : Bytes) (source : Source) :
    fillFrom front front.length source = .ok ⟨front, .ok front.length, source⟩ := by
  rw [fillFrom, if_neg (lt_irrefl _)]
  rfl

/-- there is room behind what is filled, and a read is offered this room -/
theorem fillFrom_window (front : Bytes) (hroom : window ≠ []) :
    front.length < (front ++ window).length ∧ Checked.behind (front ++ window) front.length = .ok window := by
  have hpos := List.length_pos_iff.2 hroom
  rw [List.length_append]
  refine ⟨by omega, ?_⟩
  rw [Checked.behind, Checked.within_of (by rw [List.length_append]; omega), List.drop_left]

theorem fillFrom_failed (hroom : window ≠ []) {failure : IoFailure}
    (hread : source.read window.length = (.error failure, rest)) :
    fillFrom (front ++ window) front.length source =
      if failure.passing then fillFrom (front ++ window) front.length rest
      else .ok ⟨front ++ window, .error failure, rest⟩ := by
  obtain ⟨hlt, hwindow⟩ := fillFrom_window front hroom
  rw [fillFrom, if_pos hlt, hwindow, Checked.ok_bind]
  split
  · rename_i hc; rw [hread] at hc; cases hc
  · rename_i hc; rw [hread] at hc; cases hc
  · rename_i hc; rw [hread] at hc; cases hc; rfl

theorem fillFrom_empty (hroom : window ≠ []) (hread : source.read window.length = (.ok [], rest)) :
    fillFrom (front ++ window) front.length source = .ok ⟨front ++ window, .ok front.length, rest⟩ := by
  obtain ⟨hlt, hwindow⟩ := fillFrom_window front hroom
  rw [fillFrom, if_pos hlt, hwindow, Checked.ok_bind]
  split
  · rename_i hc; rw [hread] at hc; cases hc; rfl
  · rename_i hc; rw [hread] at hc; cases hc
  · rename_i hc; rw [hread] at hc; cases hc

theorem fillFrom_piece {piece : Bytes} (hpiece : piece ≠ []) (hfits : piece.length ≤ window.length)
    (hread : source.read window.length = (.ok piece, rest)) :
    fillFrom (front ++ window) front.length source =
      fillFrom (front ++ piece ++ window.drop piece.length) (front ++ piece).length rest := by
  have hroom : window ≠ [] := by
    rintro rfl
    exact hpiece (List.length_eq_zero_iff.1 (Nat.le_zero.1 hfits))
  obtain ⟨hlt, hwindow⟩ := fillFrom_window front hroom
  have hadvance : Checked.advance (front ++ window) front.length piece.length = .ok (front ++ piece).length := by
    rw [Checked.advance, Checked.within_of (by rw [List.length_append]; omega), List.length_append]
  rw [fillFrom, if_pos hlt, hwindow, Checked.ok_bind]
  split
  · rename_i hc; rw [hread] at hc; cases hc; contradiction
  · rename_i hc
    rw [hread] at hc
    cases hc
    rw [hadvance, Checked.ok_bind, overwrite_append]
  · rename_i hc; rw [hread] at hc; cases hc

end Step

/-- what filling leaves when these bytes were filled before, and this much was still to fill -/
def landed (front window : Bytes) (filled : Source.Filled) : Reading where
  buffer := front ++ filled.bytes ++ window.drop filled.bytes.length
  result := filled.failure?.elim (.ok (front ++ filled.bytes).length) .error
  rest := filled.rest

/-- a piece more, and then the rest -/
theorem landed_piece (front window piece : Bytes) (more : Source.Filled) :
    landed front window ⟨piece ++ more.bytes, more.failure?, more.rest⟩ =
      landed (front ++ piece) (window.drop piece.length) more := by
  simp only [landed, List.append_assoc, List.drop_drop, List.length_append]

/-- **Filling stays inside the buffer**, and lays over it what `fill` gives -/
theorem fillFrom_append (front window : Bytes) (source : Source) :
    fillFrom (front ++ window) front.length source = .ok (landed front window (source.fill window.length)) := by
  generalize hn : window.length = n
  fun_induction Source.fill n source generalizing front window with
  | case1 source =>
    obtain rfl := List.length_eq_zero_iff.1 hn
    simpa [landed] using fillFrom_full front source
  | case2 n =>
    have hroom : window ≠ [] := List.ne_nil_of_length_eq_add_one hn
    rw [fillFrom_empty hroom rfl]
    simp [landed]
  | case3 n failure rest hp ih =>
    have hroom : window ≠ [] := List.ne_nil_of_length_eq_add_one hn
    rw [fillFrom_failed hroom (Source.read_fail ..), if_pos hp, ih front window hn]
  | case4 n failure rest hp =>
    have hroom : window ≠ [] := List.ne_nil_of_length_eq_add_one hn
    rw [fillFrom_failed hroom (Source.read_fail ..), if_neg hp]
    simp [landed]
  | case5 n rest =>
    have hroom : window ≠ [] := List.ne_nil_of_length_eq_add_one hn
    rw [fillFrom_empty hroom (Source.read_data_of_le (Nat.zero_le _) rest)]
    simp [landed]
  | case6 n b bytes rest hd more ih =>
    have hfits : (b :: bytes).length ≤ window.length := by
      rw [hn, List.length_cons]
      exact Nat.succ_le_succ (List.drop_eq_nil_iff.1 hd)
    have hleft : (window.drop (b :: bytes).length).length = n - bytes.length := by
      rw [List.length_drop, hn, List.length_cons]
      omega
    rw [fillFrom_piece (List.cons_ne_nil b bytes) hfits (Source.read_data_of_le hfits rest), ih _ _ hleft, ← landed_piece]
  | case7 n b bytes rest hd =>
    have hless : window.length < (b :: bytes).length := by
      rw [hn, List.length_cons]
      exact Nat.succ_lt_succ (not_le.1 (mt List.drop_eq_nil_iff.2 hd))
    have htake : (b :: bytes).take window.length = b :: bytes.take n := by rw [hn, List.take_succ_cons]
    have hlength : ((b :: bytes).take window.length).length = window.length := by rw [List.length_take]; omega
    have hpiece : (b :: bytes).take window.length ≠ [] := by rw [htake]; exact List.cons_ne_nil _ _
    rw [fillFrom_piece hpiece hlength.le (Source.read_data_of_lt hless rest), hlength, List.drop_length, List.append_nil,
      fillFrom_full, htake]
    have hnone : window.drop (b :: bytes.take n).length = [] := by rw [← htake, hlength, List.drop_length]
    simp only [landed, hnone, List.append_nil, hn, List.drop_succ_cons, Option.elim_none]

/-- **Filling a buffer** never overruns it -/
theorem readInto_eq (buffer : Bytes) (source : Source) :
    readInto buffer source = .ok (landed [] buffer (source.fill buffer.length)) :=
  fillFrom_append [] buffer source

/-! ## What is taken -/

namespace Source

/-- the replies after one of which so many bytes are left -/
def putBack (left : Bytes) (later : Source) : Source :=
  if left = [] then later else .data left :: later

/-- these bytes are taken from a source, which then stands there: either nothing is touched, or the last reply touched is
the one that the last byte comes from -/
inductive Takes : Source → Bytes → Source → Prop
  | nothing (source : Source) : Takes source [] source
  | upTo {passed : Source} {front piece : Bytes} (hpassed : passed.Gives front) (hpiece : piece ≠ []) (left : Bytes)
      (later : Source) : Takes (passed ++ .data (piece ++ left) :: later) (front ++ piece) (putBack left later)

/-- nothing is taken by touching nothing -/
theorem Takes.of_nil {source rest : Source} (h : source.Takes [] rest) : rest = source := by
  generalize hbytes : ([] : Bytes) = bytes at h
  cases h with
  | nothing => rfl
  | upTo hpassed hpiece => exact absurd (List.append_eq_nil_iff.1 hbytes.symm).2 hpiece

theorem Takes.cons {source rest : Source} {bytes : Bytes} (h : source.Takes bytes rest) (hbytes : bytes ≠ [])
    {reply : SourceReply} (hreply : match reply with
      | .data piece => piece ≠ []
      | .fail failure => failure.passing = true) : Takes (reply :: source) (replyBytes reply ++ bytes) rest := by
  cases h with
  | nothing => exact absurd rfl hbytes
  | upTo hpassed hpiece left later =>
    rw [← List.append_assoc, ← List.cons_append]
    exact .upTo (hpassed.cons hreply) hpiece left later

/-- **A fill that is satisfied** touches nothing behind its last byte -/
theorem takes_fill (n : Nat) (source : Source) (h : n ≤ source.lead.length) :
    source.Takes (source.fill n).bytes (source.fill n).rest := by
  have hcount (n : Nat) (source : Source) (h : n ≤ source.lead.length) : (source.fill n).bytes.length = n := by
    rw [(fill_full n source h).1, List.length_take, min_eq_left h]
  fun_induction fill n source with
  | case1 source => exact .nothing source
  | case2 n => simp [lead] at h
  | case3 n failure rest hp ih =>
    simp only [lead, if_pos hp] at h
    exact (ih h).cons (List.ne_nil_of_length_eq_add_one (hcount _ _ h)) hp
  | case4 n failure rest hp => simp [lead, hp] at h
  | case5 => simp [lead] at h
  | case6 n b bytes rest hd more ih =>
    have hle : bytes.length ≤ n := List.drop_eq_nil_iff.1 hd
    simp only [lead, List.cons_append, List.length_cons, List.length_append] at h
    have hmore := ih (by omega)
    by_cases hnone : more.bytes = []
    · rw [hnone] at hmore
      rw [hnone, hmore.of_nil]
      have htakes := Takes.upTo .nil (List.cons_ne_nil b bytes) [] rest
      rw [List.append_nil] at htakes ⊢
      exact htakes
    · exact hmore.cons hnone (List.cons_ne_nil b bytes)
  | case7 n b bytes rest hd =>
    have htakes := Takes.upTo .nil (List.cons_ne_nil b (bytes.take n)) (bytes.drop n) rest
    rw [List.cons_append, List.take_append_drop, putBack, if_neg hd] at htakes
    exact htakes

/-! ## Failures that pass -/

/-- a reply that only asks to try again -/
def replyPasses : SourceReply → Bool
  | .fail failure => failure.passing
  | .data _ => false

/-- the source without the failures that pass -/
def calm (source : Source) : Source :=
  source.filter fun reply => !replyPasses reply

/-- **Failures that pass** change nothing else -/
theorem fill_calm (n : Nat) (source : Source) :
    source.calm.fill n = ⟨(source.fill n).bytes, (source.fill n).failure?, (source.fill n).rest.calm⟩ := by
  fun_induction fill n source with
  | case1 source => rw [fill]
  | case2 n => rfl
  | case3 n failure rest hp ih =>
    have hcalm : calm (.fail failure :: rest) = calm rest := List.filter_cons_of_neg (by simp [replyPasses, hp])
    rw [hcalm, ih]
  | case4 n failure rest hp =>
    have hcalm : calm (.fail failure :: rest) = .fail failure :: calm rest :=
      List.filter_cons_of_pos (by simp [replyPasses, hp])
    rw [hcalm, fill, if_neg hp]
  | case5 n rest => rfl
  | case6 n b bytes rest hd more ih =>
    have hcalm : calm (.data (b :: bytes) :: rest) = .data (b :: bytes) :: calm rest := rfl
    rw [hcalm, fill, hd]
    simp only [ih, more]
  | case7 n b bytes rest hd =>
    obtain ⟨c, left, hleft⟩ := List.exists_cons_of_ne_nil hd
    have hcalm : calm (.data (b :: bytes) :: rest) = .data (b :: bytes) :: calm rest := rfl
    rw [hcalm, fill, hleft]
    rfl

end Source

/-! ## Filling or stopping -/

/-- **A buffer is filled or the source stops, and nothing is read ahead.** Let `n` be the length of the buffer, or the
number of bytes that come before the source stops, at an empty read, at its end or with a failure that does not pass, if
these are fewer. Whatever the source replies and whatever the buffer holds, filling it overruns nothing: the first `n`
places are then those bytes in order, the others are as before, and the source has lost these bytes and no more, also if it
failed. If the buffer is full, `n` is told, and no reply is touched behind the one that the last byte came from, so that a
stop which comes next is left for later; a buffer of no places touches nothing. If it is not, the source has gone past its
stop, and `n` is told or the failure that it stopped with. Failures that pass make no difference, and it all is what `fill`
gives. -/
theorem readInto_fills_or_stops (buffer : Bytes) (source : Source) :
    let n := min buffer.length source.lead.length
    let came := source.lead.take n
    source.StopsAfter source.lead source.stop? source.beyond ∧
    ∃ reading, readInto buffer source = .ok reading ∧
      reading.buffer = came ++ buffer.drop n ∧ source.data = came ++ reading.rest.data ∧
      (buffer.length ≤ source.lead.length →
        reading.result = .ok n ∧ source.Takes came reading.rest ∧ (buffer = [] → reading.rest = source)) ∧
      (source.lead.length < buffer.length →
        reading.result = source.stop?.elim (.ok n) .error ∧ reading.rest = source.beyond) ∧
      readInto buffer source.calm = .ok ⟨reading.buffer, reading.result, reading.rest.calm⟩ ∧
      reading = landed [] buffer (source.fill buffer.length) := by
  intro n came
  have hcalm : readInto buffer source.calm = .ok ⟨(landed [] buffer (source.fill buffer.length)).buffer,
      (landed [] buffer (source.fill buffer.length)).result,
      (landed [] buffer (source.fill buffer.length)).rest.calm⟩ := by
    rw [readInto_eq, Source.fill_calm]
    rfl
  have hlength : came.length = n := by
    rw [List.length_take]
    exact min_eq_left (min_le_right _ _)
  have hdata := Source.fill_bytes_append_data buffer.length source
  refine ⟨source.stopsAfter_lead, _, readInto_eq buffer source, ?_⟩
  rcases le_or_gt buffer.length source.lead.length with hfull | hshort
  · have hn : n = buffer.length := min_eq_left hfull
    obtain ⟨hbytes, hfailure, -⟩ := Source.fill_full buffer.length source hfull
    have htakes := Source.takes_fill buffer.length source hfull
    have hcame : (source.fill buffer.length).bytes = came := hbytes.trans (by rw [← hn])
    rw [hcame] at hdata htakes
    have hresult : (landed [] buffer (source.fill buffer.length)).result = .ok n := by
      simp only [landed, hfailure, hcame, List.nil_append, hlength, Option.elim_none]
    have hnothing : buffer = [] → (landed [] buffer (source.fill buffer.length)).rest = source := by
      intro hempty
      have hnone : came = [] := List.length_eq_zero_iff.1 (by rw [hlength, hn, hempty, List.length_nil])
      rw [hnone] at htakes
      exact htakes.of_nil
    refine ⟨?_, hdata.symm, fun _ => ⟨hresult, htakes, hnothing⟩, fun hc => absurd hfull hc.not_ge, hcalm, rfl⟩
    simp only [landed, hcame, List.nil_append, hlength]
  · have hn : n = source.lead.length := min_eq_right hshort.le
    have hcame : came = source.lead := List.take_of_length_le hn.ge
    have hfill := Source.fill_short buffer.length source hshort
    rw [hfill, ← hcame] at hdata
    refine ⟨?_, ?_, fun hc => absurd hshort hc.not_gt, fun _ => ⟨?_, ?_⟩, hcalm, rfl⟩
    · simp only [landed, hfill, List.nil_append, ← hcame, hlength]
    · simp only [landed, hfill]
      exact hdata.symm
    · simp only [landed, hfill, List.nil_append, ← hn]
    · simp only [landed, hfill]

/-- a failure that passes, a reply of which a byte is left, and an empty read that is left for later -/
example :
    readInto [7, 7, 7] [.data [1], .fail (.ofKind .interrupted), .data [2, 3, 4], .data []] =
      .ok ⟨[1, 2, 3], .ok 3, [.data [4], .data []]⟩ := by
  rw [readInto_eq]
  rfl

end CbcFile
