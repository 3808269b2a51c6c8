/-
How the input is chopped up never matters. A decryption sees of its source only the bytes before the first stop and the
stop itself; sizes of replies, passing failures and the place of the stop inside a block or between two change nothing.

- `verdict`, `written`: the result of a run and what it writes, as functions of those bytes and of the failure that
  ended them, if one did;
- `decryptStream_verdict`: a run with a sink that takes everything has that result, writes those bytes and leaves the
  source just after its stop.

Result:
- `decryptStream_chopping`: the outcome is that of the same bytes in memory, or the failure that stopped the source; all
  bytes before the stop are consumed, and no others; a run that fails has written the plaintext of all whole ciphertext
  blocks but the last.
-/
import Mathlib.Tactic
import CbcFile.Proofs.Stream.Decrypt

namespace CbcFile

/-- what has been written when a run fails: the plaintext of all whole ciphertext blocks but the last -/
def writtenOnFailure (key : Key) (bytes : Bytes) : Bytes :=
  match Block.ofBytes? (bytes.take 16) with
  | none => []
  | some iv => early (Aes.decryptBlock (.ofKey key)) iv (bytes.drop 16)

theorem writtenOnFailure_short (key : Key) {bytes : Bytes} (h : bytes.length < 16) : writtenOnFailure key bytes = [] := by
  rw [writtenOnFailure, Block.ofBytes?_take_eq_none.2 h]

/-- the result of a run on a source that stops after these bytes -/
def verdict (key : Key) (stop? : Option IoFailure) (bytes : Bytes) : Except DecryptError Lengths :=
  match stop? with
  | some failure => .error (.io (if bytes.length < 16 then .readIv else .readCiphertext) failure)
  | none => (decryptBytes key bytes).map fun plaintext => ⟨bytes.length - 16, plaintext.length⟩

/-- what a run on a source that stops after these bytes writes -/
def written (key : Key) (stop? : Option IoFailure) (bytes : Bytes) : Bytes :=
  match stop?, decryptBytes key bytes with
  | none, .ok plaintext => plaintext
  | _, _ => writtenOnFailure key bytes

theorem written_of_error {key : Key} {stop? : Option IoFailure} {bytes : Bytes} {error : DecryptError}
    (h : verdict key stop? bytes = .error error) : written key stop? bytes = writtenOnFailure key bytes := by
  cases stop? with
  | some failure => rfl
  | none =>
    unfold verdict at h
    unfold written
    cases hb : decryptBytes key bytes with
    | error _ => rfl
    | ok plaintext => rw [hb] at h; cases h

theorem verdict_eq_ok {key : Key} {stop? : Option IoFailure} {bytes : Bytes} {lengths : Lengths} :
    verdict key stop? bytes = .ok lengths ↔ stop? = none ∧ ∃ plaintext,
      decryptBytes key bytes = .ok plaintext ∧ lengths = ⟨bytes.length - 16, plaintext.length⟩ := by
  unfold verdict
  cases stop? with
  | some failure => simp
  | none => cases decryptBytes key bytes <;> simp [Except.map, eq_comm]

/-- **A run on a chopped source**: only the bytes before the stop and the stop matter -/
theorem decryptStream_verdict (key : Key) (source : Source) (received : Array UInt8) :
    decryptStream key source ⟨[], received⟩ =
      ⟨verdict key source.stop? source.lead, source.beyond, ⟨[], received ++ written key source.stop? source.lead⟩⟩ := by
  rw [decryptStream_collecting]
  unfold verdict written writtenOnFailure
  rw [decryptBytes_eq]
  cases hiv : Block.ofBytes? (source.lead.take 16) with
  | none =>
    have hl := Block.ofBytes?_take_eq_none.1 hiv
    cases source.stop? <;> simp [hl, Except.map]
  | some iv =>
    have hl : ¬ source.lead.length < 16 := by
      rw [← Block.ofBytes?_take_eq_none, hiv]
      exact Option.some_ne_none iv
    cases source.stop? with
    | some failure => simp [hl]
    | none =>
      simp only
      cases opened (Aes.decryptBlock (.ofKey key)) iv (source.lead.drop 16) with
      | error fault => rfl
      | ok plaintext => simp [Except.mapError, Except.map]

/-- **How the input is chopped up never matters.** Let `D` be the bytes of the source before its first empty read, its
end or its first failure that does not pass. If no failure ended it, a run on the source succeeds exactly when `D`
decrypts in memory, with the same plaintext written and counted, and fails with the same error otherwise. If a failure
ended it, the run fails with that failure. In every case exactly `D` is consumed, and a run that fails has written the
plaintext of all whole ciphertext blocks of `D` but the last one. Two sources that agree on `D` and on what ended it
have the same result and the same bytes written. -/
theorem decryptStream_chopping (key : Key) (source : Source) :
    let outcome := decryptStream key source .collecting
    let D := source.lead
    (match source.stop?, decryptBytes key D with
      | none, .ok plaintext =>
        outcome.result = .ok ⟨D.length - 16, plaintext.length⟩ ∧ outcome.sink.received.toList = plaintext
      | none, .error error => outcome.result = .error error
      | some failure, _ => ∃ activity, outcome.result = .error (.io activity failure) ∧
          activity.text = if D.length < 16 then "failed to read IV" else "failed to read ciphertext") ∧
    source.data = D ++ outcome.source.data ∧
    (∀ error, outcome.result = .error error → outcome.sink.received.toList =
      match Block.ofBytes? (D.take 16) with
      | none => []
      | some iv =>
        Block.joined (Cbc.decrypt (Aes.decryptBlock (.ofKey key)) iv (Block.wholeBlocks (D.drop 16))).dropLast) ∧
    ∀ other : Source, other.lead = D → other.stop? = source.stop? →
      (decryptStream key other .collecting).result = outcome.result ∧
      (decryptStream key other .collecting).sink = outcome.sink := by
  intro outcome D
  have ho : outcome = ⟨verdict key source.stop? D, source.beyond, ⟨[], #[] ++ written key source.stop? D⟩⟩ :=
    decryptStream_verdict key source #[]
  refine ⟨?_, ?_, fun error h => ?_, fun other hl hs => ?_⟩
  · rw [ho]
    unfold verdict written
    cases source.stop? with
    | some failure =>
      refine ⟨_, rfl, ?_⟩
      split_ifs <;> rfl
    | none =>
      cases decryptBytes key D with
      | error error => rfl
      | ok plaintext => exact ⟨rfl, by simp⟩
  · rw [ho]
    exact source.lead_append_beyond.symm
  · rw [ho] at h ⊢
    rw [written_of_error h]
    simp only [Array.toList_appendList, List.nil_append]
    rfl
  · have h := decryptStream_verdict key other #[]
    rw [hl, hs] at h
    rw [Sink.collecting, h, ho]
    exact ⟨rfl, rfl⟩

end CbcFile
