/-
Calls one after the other on one source. A source can carry several inputs, each ended by an empty read, and every call
takes exactly one of them: whichever way it ends, it goes past one stop and no further.

- `Source.Gives`: replies that give some bytes, cut anywhere, with passing failures anywhere;
- `decryptStream_frame`: a call takes the first input and leaves the source where the next one begins.

Result:
- `calls_stay_in_frame`: each call answers for its own input as decryption in memory does, consumes exactly its bytes and
  writes only what they decrypt to. So a call that fails costs the next one nothing.
-/
import Mathlib.Tactic
import CbcFile.Proofs.Format
import CbcFile.Proofs.Stream.Chopping

namespace CbcFile

/-! ## Several inputs on one source -/

/-- replies that give these bytes without a stop: each is some bytes, or a failure that passes -/
structure Source.Gives (chunks : Source) (bytes : Bytes) : Prop where
  data : chunks.data = bytes
  flows : ∀ reply ∈ chunks,
    match reply with
    | .data piece => piece ≠ []
    | .fail failure => failure.passing = true

/-- the chunks of several inputs, an empty read after those of each -/
def presented (inputs : List Source) : Source :=
  inputs.flatMap fun chunks => chunks ++ [.data []]

namespace Source

theorem data_append (source other : Source) : data (source ++ other) = data source ++ data other :=
  List.flatMap_append

/-- such replies only come before what a source gives anyway -/
theorem Gives.append {chunks : Source} {bytes : Bytes} (h : chunks.Gives bytes) (rest : Source) :
    lead (chunks ++ rest) = bytes ++ lead rest ∧ stop? (chunks ++ rest) = stop? rest ∧
      beyond (chunks ++ rest) = beyond rest := by
  induction chunks generalizing bytes with
  | nil => exact ⟨by rw [← h.data]; rfl, rfl, rfl⟩
  | cons reply chunks ih =>
    obtain ⟨hlead, hstop, hbeyond⟩ := ih ⟨rfl, fun other ho => h.flows other (List.mem_cons_of_mem reply ho)⟩
    have hreply := h.flows reply List.mem_cons_self
    rw [← h.data, data_cons, List.cons_append, List.append_assoc, ← hlead]
    cases reply with
    | data piece =>
      obtain ⟨b, more, rfl⟩ := List.exists_cons_of_ne_nil hreply
      exact ⟨rfl, hstop, hbeyond⟩
    | fail failure =>
      simp only [lead, stop?, beyond, if_pos hreply]
      exact ⟨rfl, hstop, hbeyond⟩

/-- **One input ends where its empty read is** -/
theorem Gives.frame {chunks : Source} {bytes : Bytes} (h : chunks.Gives bytes) (rest : Source) :
    lead (chunks ++ .data [] :: rest) = bytes ∧ stop? (chunks ++ .data [] :: rest) = none ∧
      beyond (chunks ++ .data [] :: rest) = rest := by
  obtain ⟨hlead, hstop, hbeyond⟩ := h.append (.data [] :: rest)
  exact ⟨hlead.trans (List.append_nil bytes), hstop, hbeyond⟩

end Source

/-! ## Several calls -/

/-- what is seen of one call: its result, how many bytes it took from the source, and what it wrote -/
structure Call where
  result : Except DecryptError Lengths
  consumed : Nat
  written : Bytes

/-- calls one after the other on the same source and sink, and the source after the last one -/
def callsOn (key : Key) : Nat → Source → Sink → List Call × Source
  | 0, source, _ => ([], source)
  | n + 1, source, sink =>
    let outcome := decryptStream key source sink
    let call : Call := ⟨outcome.result, source.size - outcome.source.size,
      outcome.sink.received.toList.drop sink.received.size⟩
    let more := callsOn key n outcome.source outcome.sink
    (call :: more.1, more.2)

/-- a call answers for these bytes: as decryption in memory does, by taking them and writing what they decrypt to -/
def Answers (key : Key) (bytes : Bytes) (call : Call) : Prop :=
  call.consumed = bytes.length ∧
  match decryptBytes key bytes with
  | .ok plaintext => call.result = .ok ⟨bytes.length - 16, plaintext.length⟩ ∧ call.written = plaintext
  | .error error => call.result = .error error ∧ call.written = writtenOnFailure key bytes

/-- **One call takes one input**, and leaves the source where the next one begins -/
theorem decryptStream_frame (key : Key) {chunks : Source} {bytes : Bytes} (h : chunks.Gives bytes) (rest : Source)
    (received : Array UInt8) :
    decryptStream key (chunks ++ .data [] :: rest) ⟨[], received⟩ =
      ⟨verdict key none bytes, rest, ⟨[], received ++ written key none bytes⟩⟩ := by
  obtain ⟨hlead, hstop, hbeyond⟩ := h.frame rest
  rw [decryptStream_verdict, hlead, hstop, hbeyond]

theorem answers_of_verdict (key : Key) (bytes : Bytes) :
    Answers key bytes ⟨verdict key none bytes, bytes.length, written key none bytes⟩ := by
  refine ⟨rfl, ?_⟩
  unfold verdict written
  cases decryptBytes key bytes with
  | error error => exact ⟨rfl, rfl⟩
  | ok plaintext => exact ⟨rfl, rfl⟩

/-- **Calls on one source stay in frame.** If a source carries several inputs, each cut anywhere with passing failures
anywhere and ended by an empty read, and as many calls are made on it one after the other, with a sink that takes
everything, then each call gives the plaintext's length or the error that its own input gives in memory, consumes
exactly the bytes of that input and writes what they decrypt to. After the last call the source stands just behind the
last input. -/
theorem calls_stay_in_frame (key : Key) {inputs : List Bytes} {chunks : List Source}
    (h : List.Forall₂ Source.Gives chunks inputs) (later : Source) (received : Array UInt8) :
    let calls := callsOn key inputs.length (presented chunks ++ later) ⟨[], received⟩
    List.Forall₂ (Answers key) inputs calls.1 ∧ calls.2 = later := by
  induction h generalizing received with
  | nil => exact ⟨.nil, rfl⟩
  | @cons first bytes others inputs hfirst hothers ih =>
    have hsource : presented (first :: others) ++ later = first ++ .data [] :: (presented others ++ later) := by
      simp [presented]
    have hsize : (first ++ .data [] :: (presented others ++ later)).size - (presented others ++ later).size =
        bytes.length := by
      simp [Source.size, Source.data_append, hfirst.data, Source.replyBytes]
    have hwritten : (received ++ written key none bytes).toList.drop received.size = written key none bytes := by
      simp
    obtain ⟨hanswers, hrest⟩ := ih (received ++ written key none bytes)
    simp only [List.length_cons, callsOn]
    rw [hsource, decryptStream_frame key hfirst, hsize, hwritten]
    exact ⟨.cons (answers_of_verdict key bytes) hanswers, hrest⟩

/-- an input that ends inside the initial vector and an empty one before an encrypted one -/
theorem calls_after_failures :
    let key : Key := .replicate 32 0
    let sealed := encryptBytes key (.replicate 16 0) (ascii ['h', 'i'])
    let again : SourceReply := .fail (.ofKind .interrupted)
    let chunks : List Source := [[.data [1], again, .data [2, 3]], [again], [.data sealed]]
    List.Forall₂ Source.Gives chunks [[1, 2, 3], [], sealed] ∧
    let calls := (callsOn key 3 (presented chunks) .collecting).1
    calls.map Call.consumed = [3, 0, sealed.length] ∧ calls.map Call.written = [[], [], ascii ['h', 'i']] := by
  intro key sealed again chunks
  have hsealed : sealed ≠ [] := by simp [sealed, encryptBytes, Vector.toList]
  have hgives : List.Forall₂ Source.Gives chunks [[1, 2, 3], [], sealed] := by
    refine .cons ⟨rfl, ?_⟩ (.cons ⟨rfl, ?_⟩ (.cons ⟨?_, ?_⟩ .nil))
    · simp [again, IoFailure.ofKind, IoFailure.passing]
    · simp [again, IoFailure.ofKind, IoFailure.passing]
    · simp [Source.replyBytes]
    · simpa using hsealed
  refine ⟨hgives, ?_⟩
  have hopen : decryptBytes key sealed = .ok (ascii ['h', 'i']) := decryptBytes_eq_ok.2 ⟨_, rfl⟩
  have hanswers := (calls_stay_in_frame key hgives [] #[]).1
  rw [List.append_nil] at hanswers
  change List.Forall₂ _ _ (callsOn key 3 (presented chunks) .collecting).1 at hanswers
  generalize (callsOn key 3 (presented chunks) .collecting).1 = calls at hanswers ⊢
  obtain _ | ⟨h1, _ | ⟨h2, _ | ⟨h3, _ | _⟩⟩⟩ := hanswers
  unfold Answers at h1 h2 h3
  rw [decryptBytes_short key (by decide), writtenOnFailure_short key (by decide)] at h1 h2
  rw [hopen] at h3
  refine ⟨?_, ?_⟩
  · simp [h1.1, h2.1, h3.1]
  · simp [h1.2.2, h2.2.2, h3.2.2]

end CbcFile
