/-
Initial vectors read in a row from one source share out its bytes. A read takes what comes before the source stops, up
to sixteen bytes; how many these are and what the source stops with decide what the read gives, and nothing else does.

- `Source.StopsAfter`: a source gives some bytes, then stops; this is read off its replies, without reading from it;
- `IvRead.Exact`: what one read takes and what it gives, each of them told by the other;
- `IvRead.exact_on`: every read is so.

Result:
- `iv_reads_partition`: the bytes that the reads take, one after the other, and those that are left are the bytes of the
  source. A read that fails has taken its bytes too, and the next one goes on behind them.
-/
import Mathlib.Tactic
import CbcFile.Proofs.Stream.Calls

namespace CbcFile

/-! ## Where a source stops -/

namespace Source

theorem Gives.nil : Gives [] [] :=
  ⟨rfl, nofun⟩

theorem Gives.cons {reply : SourceReply} {chunks : Source} {bytes : Bytes} (h : chunks.Gives bytes)
    (hreply : match reply with
      | .data piece => piece ≠ []
      | .fail failure => failure.passing = true) : Gives (reply :: chunks) (replyBytes reply ++ bytes) := by
  refine ⟨by rw [data_cons, h.data], ?_⟩
  intro other hother
  rcases List.mem_cons.1 hother with rfl | hlater
  · exact hreply
  · exact h.flows other hlater

/-- a source stops here, with this failure or none, and stands there after it -/
inductive Stops : Option IoFailure → Source → Source → Prop
  /-- an empty read -/
  | empty (rest : Source) : Stops none (.data [] :: rest) rest
  /-- no reply is left -/
  | ended : Stops none [] []
  /-- a failure that does not pass -/
  | failed {failure : IoFailure} (hfailure : failure.passing = false) (rest : Source) :
      Stops (some failure) (.fail failure :: rest) rest

/-- the source gives these bytes, then stops, and stands there after it -/
def StopsAfter (source : Source) (bytes : Bytes) (failure? : Option IoFailure) (rest : Source) : Prop :=
  ∃ passed here : Source, passed.Gives bytes ∧ Stops failure? here rest ∧ source = passed ++ here

theorem Stops.view {failure? : Option IoFailure} {here rest : Source} (h : Stops failure? here rest) :
    here.lead = [] ∧ here.stop? = failure? ∧ here.beyond = rest := by
  cases h with
  | empty => exact ⟨rfl, rfl, rfl⟩
  | ended => exact ⟨rfl, rfl, rfl⟩
  | failed hfailure => simp [lead, stop?, beyond, hfailure]

/-- **Every source** gives some bytes and then stops -/
theorem stopsAfter_lead (source : Source) : source.StopsAfter source.lead source.stop? source.beyond := by
  fun_induction lead source with
  | case1 => exact ⟨[], [], .nil, .ended, rfl⟩
  | case2 failure rest hp ih =>
    obtain ⟨passed, here, hgives, hstop, hrest⟩ := ih
    simp only [stop?, beyond, if_pos hp]
    exact ⟨.fail failure :: passed, here, hgives.cons hp, hstop, by rw [hrest]; rfl⟩
  | case3 failure rest hp =>
    simp only [stop?, beyond, if_neg hp]
    exact ⟨[], _, .nil, .failed (by simpa using hp) rest, rfl⟩
  | case4 rest => exact ⟨[], _, .nil, .empty rest, rfl⟩
  | case5 b bytes rest ih =>
    obtain ⟨passed, here, hgives, hstop, hrest⟩ := ih
    exact ⟨.data (b :: bytes) :: passed, here, hgives.cons (List.cons_ne_nil b bytes), hstop, by rw [hrest]; rfl⟩

/-- there is one stop only -/
theorem stopsAfter_iff {source : Source} {bytes : Bytes} {failure? : Option IoFailure} {rest : Source} :
    source.StopsAfter bytes failure? rest ↔
      source.lead = bytes ∧ source.stop? = failure? ∧ source.beyond = rest := by
  constructor
  · rintro ⟨passed, here, hgives, hstop, rfl⟩
    obtain ⟨hlead, hstops, hbeyond⟩ := hgives.append here
    obtain ⟨hnone, hfailure, hrest⟩ := hstop.view
    exact ⟨by rw [hlead, hnone, List.append_nil], hstops.trans hfailure, hbeyond.trans hrest⟩
  · rintro ⟨rfl, rfl, rfl⟩
    exact source.stopsAfter_lead

end Source

/-! ## One read -/

/-- one read of an initial vector: the source before it and after it, and what it gave -/
structure IvRead where
  before : Source
  result : Except DecryptError Block
  after : Source

namespace IvRead

/-- the read of an initial vector from this source -/
def on (source : Source) : IvRead :=
  ⟨source, (readIv source).1, (readIv source).2⟩

/-- the bytes that a read takes: as many of the next ones as the source has fewer after it -/
def consumed (read : IvRead) : Bytes :=
  read.before.data.take (read.before.size - read.after.size)

/-- what a read takes, and what it gives for it -/
structure Exact (read : IvRead) : Prop where
  /-- all bytes that are not taken are left -/
  data : read.before.data = read.consumed ++ read.after.data
  le : read.consumed.length ≤ 16
  whole : (∃ iv, read.result = .ok iv) ↔ read.consumed.length = 16
  same : ∀ iv, read.result = .ok iv → iv.toList = read.consumed
  /-- fewer bytes, and then an empty read or the end -/
  short : ∀ length, read.result = .error (.inputTooSmall length) ↔
    length < 16 ∧ read.consumed.length = length ∧ read.before.StopsAfter read.consumed none read.after
  /-- fewer bytes, and then a failure that does not pass -/
  failed : ∀ failure, read.result = .error (.io .readIv failure) ↔
    read.consumed.length < 16 ∧ read.before.StopsAfter read.consumed (some failure) read.after
  /-- there is no other error -/
  known : ∀ error, read.result = .error error →
    (∃ length, error = .inputTooSmall length) ∨ ∃ failure, error = .io .readIv failure

section On

variable (source : Source)

theorem after_on : (on source).after = (source.fill Block.size).rest := by
  simp only [on, readIv]
  split
  · rfl
  · split <;> rfl

theorem consumed_on : (on source).consumed = (source.fill Block.size).bytes := by
  have hdata := Source.fill_bytes_append_data Block.size source
  have hsize := Source.size_fill Block.size source
  have hcount : source.size - (source.fill Block.size).rest.size = (source.fill Block.size).bytes.length := by omega
  rw [consumed, after_on]
  change source.data.take (source.size - _) = _
  rw [hcount, ← hdata, List.take_left]

theorem data_on : source.data = (on source).consumed ++ (on source).after.data := by
  rw [consumed_on, after_on, Source.fill_bytes_append_data]

theorem length_consumed_on : (on source).consumed.length ≤ 16 := by
  rw [consumed_on]
  exact Source.length_fill_le Block.size source

variable {source}

/-- **Sixteen bytes before the stop**: they are the initial vector -/
theorem on_of_le (h : 16 ≤ source.lead.length) :
    ∃ iv, (on source).result = .ok iv ∧ iv.toList = (on source).consumed := by
  obtain ⟨iv, hiv⟩ : ∃ iv : Block, iv.toList = source.lead.take 16 :=
    Block.exists_toList (by rw [List.length_take]; omega)
  refine ⟨iv, ?_, ?_⟩
  · change (readIv source).1 = .ok iv
    rw [readIv_eq, ← hiv, Block.ofBytes?_toList]
  · rw [consumed_on, (Source.fill_full Block.size source h).1, hiv, Block.size]

/-- **Fewer bytes before the stop**: all of them are taken, and the stop with them -/
theorem on_of_lt (h : source.lead.length < 16) :
    (on source).consumed = source.lead ∧ (on source).after = source.beyond ∧
    (on source).result = .error (match source.stop? with
      | none => .inputTooSmall source.lead.length
      | some failure => .io .readIv failure) := by
  have hfill := Source.fill_short Block.size source h
  refine ⟨by rw [consumed_on, hfill], by rw [after_on, hfill], ?_⟩
  change (readIv source).1 = _
  rw [readIv_eq, Block.ofBytes?_take_eq_none.2 h]
  cases source.stop? <;> rfl

theorem exact_of_le (h : 16 ≤ source.lead.length) : (on source).Exact := by
  obtain ⟨iv, hresult, hsame⟩ := on_of_le h
  have hsixteen : (on source).consumed.length = 16 := by rw [← hsame, Vector.length_toList]
  have hok : ∀ error, (on source).result ≠ .error error := by
    intro error hc
    rw [hresult] at hc
    cases hc
  refine ⟨data_on source, length_consumed_on source, ⟨fun _ => hsixteen, fun _ => ⟨iv, hresult⟩⟩, ?_, ?_, ?_, ?_⟩
  · intro other hother
    rw [hresult] at hother
    rw [← Except.ok.inj hother, hsame]
  · intro length
    refine ⟨fun hc => absurd hc (hok _), ?_⟩
    rintro ⟨hlt, hc, -⟩
    omega
  · intro failure
    refine ⟨fun hc => absurd hc (hok _), ?_⟩
    rintro ⟨hlt, -⟩
    omega
  · intro error hc
    exact absurd hc (hok error)

theorem exact_of_lt (h : source.lead.length < 16) : (on source).Exact := by
  obtain ⟨hconsumed, hafter, hresult⟩ := on_of_lt h
  have herror : ∀ iv, (on source).result ≠ .ok iv := by
    intro iv hc
    rw [hresult] at hc
    cases hc
  have hstops : ∀ failure?, (on source).before.StopsAfter (on source).consumed failure? (on source).after ↔
      source.stop? = failure? := by
    intro failure?
    change source.StopsAfter _ _ _ ↔ _
    rw [Source.stopsAfter_iff, hconsumed, hafter]
    exact ⟨fun hview => hview.2.1, fun hstop => ⟨rfl, hstop, rfl⟩⟩
  refine ⟨data_on source, length_consumed_on source, ⟨?_, ?_⟩, ?_, ?_, ?_, ?_⟩
  · rintro ⟨iv, hc⟩
    exact absurd hc (herror iv)
  · intro hc
    rw [hconsumed] at hc
    omega
  · intro iv hc
    exact absurd hc (herror iv)
  · intro length
    rw [hstops, hconsumed, hresult]
    cases source.stop? with
    | none => simp; omega
    | some failure => simp
  · intro failure
    rw [hstops, hconsumed, hresult]
    cases source.stop? with
    | none => simp
    | some other => simp [h]
  · intro error hc
    rw [hresult] at hc
    rw [← Except.error.inj hc]
    cases source.stop? with
    | none => exact Or.inl ⟨_, rfl⟩
    | some failure => exact Or.inr ⟨_, rfl⟩

/-- **One read** takes up to sixteen bytes, and these and the stop decide what it gives -/
theorem exact_on (source : Source) : (on source).Exact := by
  by_cases h : 16 ≤ source.lead.length
  · exact exact_of_le h
  · exact exact_of_lt (not_le.1 h)

end On

end IvRead

/-! ## Reads in a row -/

/-- reads of initial vectors one after the other on the same source, and the source after the last one -/
def ivReads : Nat → Source → List IvRead × Source
  | 0, source => ([], source)
  | n + 1, source =>
    let read := IvRead.on source
    let more := ivReads n read.after
    (read :: more.1, more.2)

/-- **Reads in a row share out the source.** Whatever a source replies and however many reads are made, the bytes that the
reads take, in the order of the reads, and the bytes that are left are the bytes of the source in their order. No read
takes more than sixteen. A read gives a block exactly if it takes sixteen bytes, and then these bytes; it finds the input
too small, with a length, exactly if it takes that many bytes, fewer than sixteen, and then meets an empty read or the
end; and it fails to read, with a failure, exactly if it takes fewer than sixteen bytes and then meets that failure, which
does not pass. -/
theorem iv_reads_partition (source : Source) (n : Nat) :
    let reads := ivReads n source
    reads.1.length = n ∧ reads.1.flatMap IvRead.consumed ++ reads.2.data = source.data ∧
    (∀ read ∈ reads.1, read.Exact) ∧
    Activity.text .readIv = "failed to read IV" := by
  induction n generalizing source with
  | zero => exact ⟨rfl, rfl, nofun, rfl⟩
  | succ n ih =>
    have hread := IvRead.exact_on source
    obtain ⟨hlength, hdata, hexact, htext⟩ := ih (IvRead.on source).after
    refine ⟨congrArg Nat.succ hlength, ?_, ?_, htext⟩
    · rw [ivReads, List.flatMap_cons, List.append_assoc, hdata, ← hread.data]
      rfl
    · intro read hmem
      rcases List.mem_cons.1 hmem with rfl | hlater
      · exact hread
      · exact hexact read hlater

/-- a reply that two reads share, with a failure that passes inside the second one, and an empty read that ends it -/
example :
    let again : SourceReply := .fail (.ofKind .interrupted)
    (ivReads 3 [.data (List.replicate 20 7), again, .data [8], .data [], .data [9]]).1.map IvRead.consumed =
      [List.replicate 16 7, [7, 7, 7, 7, 8], [9]] := by
  decide

end CbcFile
