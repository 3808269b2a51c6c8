/-
What a decryption does to a source and a sink, one block at a time and as a whole.

One step (`decryptFrom_block`, `decryptFrom_stop`) works for every sink. A whole run is described for a sink that takes
everything: it depends on the source's bytes up to the stop and on the stop alone.
- `opened`: the plaintext of a ciphertext that is all there, or the fault in it;
- `early`: the plaintext that leaves before the end is known, which is all blocks but the last whole one;
- `decryptFrom_start`, `decryptStream_collecting`: a run is `opened` with `early`.
The induction is on the ciphertext blocks and carries the block held back (`Progress.plain`).
-/
import Mathlib.Tactic
import CbcFile.Cbc
import CbcFile.Stream.Decrypt
import CbcFile.Proofs.Padding
import CbcFile.Proofs.Stream.Sink
import CbcFile.Proofs.Stream.Source

namespace CbcFile

open Block (joined wholeBlocks)

/-! ## One step -/

section Step

variable {decipher : Block → Block} {progress : Progress} {source : Source} {sink : Sink}

/-- **A block of input**: the block held back before it is written, then the run goes on -/
theorem decryptFrom_block {sealed : Block} {rest : Bytes} (h : source.lead = sealed.toList ++ rest) :
    decryptFrom decipher progress source sink =
      match sink.write progress.free with
      | (some failure, sink) => ⟨.error (.io .writePlaintext failure), (source.fill Block.size).rest, sink⟩
      | (none, sink) => decryptFrom decipher (progress.advance decipher sealed) (source.fill Block.size).rest sink := by
  obtain ⟨hb, hf, -⟩ := Source.fill_full Block.size source (by simp [h, Block.size])
  have hs : Block.ofBytes? (source.fill Block.size).bytes = some sealed := by
    rw [hb, h, List.take_left' (by simp [Block.size]), Block.ofBytes?_toList]
  rw [decryptFrom]
  simp only [hf]
  split
  · rename_i hn
    rw [hs] at hn
    cases hn
  · rename_i c hc
    rw [hs] at hc
    cases hc
    rfl

/-- **The stop**: nothing further is read, and what was left over decides -/
theorem decryptFrom_stop (h : source.lead.length < 16) : decryptFrom decipher progress source sink =
    match source.stop? with
    | some failure => ⟨.error (.io .readCiphertext failure), source.beyond, sink⟩
    | none =>
      if source.lead = [] then finish progress source.beyond sink
      else ⟨.error (.cipher (.misaligned (progress.read + source.lead.length))), source.beyond, sink⟩ := by
  have hf := Source.fill_short Block.size source h
  have hn : Block.ofBytes? (source.fill Block.size).bytes = none := by
    rw [hf, Block.ofBytes?_eq_none]
    exact h.ne
  rw [decryptFrom]
  cases hstop : source.stop? with
  | some failure => simp [hf, hstop]
  | none =>
    simp only [hf, hstop]
    split
    · rfl
    · rename_i c hc
      rw [hn] at hc
      cases hc

end Step

/-! ## The blocks of a run -/

theorem append_joined (received : Array UInt8) (a b : Bytes) : received ++ a ++ b = received ++ (a ++ b) :=
  Array.ext' (by simp)

namespace Progress

/-- the block held back, and the blocks that further ciphertext blocks decrypt to -/
def plain (decipher : Block → Block) (progress : Progress) (blocks : List Block) : List Block :=
  progress.held.toList ++ Cbc.decrypt decipher progress.previous blocks

theorem plain_cons (decipher : Block → Block) (progress : Progress) (b : Block) (rest : List Block) :
    progress.plain decipher (b :: rest) = progress.held.toList ++ (progress.advance decipher b).plain decipher rest :=
  rfl

theorem plain_advance_ne_nil (decipher : Block → Block) (progress : Progress) (b : Block) (rest : List Block) :
    (progress.advance decipher b).plain decipher rest ≠ [] := by
  simp [plain, advance]

theorem joined_held (progress : Progress) : joined progress.held.toList = progress.free := by
  unfold free
  cases progress.held <;> simp

variable (decipher : Block → Block)

theorem read_foldl (progress : Progress) (blocks : List Block) :
    (blocks.foldl (advance decipher) progress).read = progress.read + 16 * blocks.length := by
  induction blocks generalizing progress with
  | nil => rfl
  | cons b rest ih =>
    rw [List.foldl_cons, ih]
    simp only [advance, Block.size, List.length_cons]
    omega

theorem held_foldl (progress : Progress) (blocks : List Block) :
    (blocks.foldl (advance decipher) progress).held = (progress.plain decipher blocks).getLast? := by
  induction blocks generalizing progress with
  | nil => cases hh : progress.held <;> simp [plain, Cbc.decrypt, hh]
  | cons b rest ih =>
    rw [List.foldl_cons, ih, plain_cons, List.getLast?_append_of_ne_nil _ (plain_advance_ne_nil _ _ _ _)]

theorem released_foldl (progress : Progress) (blocks : List Block) :
    (blocks.foldl (advance decipher) progress).released =
      progress.released + 16 * (progress.plain decipher blocks).dropLast.length := by
  induction blocks generalizing progress with
  | nil => cases hh : progress.held <;> simp [plain, Cbc.decrypt, hh]
  | cons b rest ih =>
    rw [List.foldl_cons, ih, plain_cons, List.dropLast_append_of_ne_nil (plain_advance_ne_nil _ _ _ _)]
    cases hh : progress.held <;> simp [advance, hh, Block.size]
    omega

end Progress

/-- **A run up to the stop**: all whole blocks are read, and all plaintext but the last block of it has left -/
theorem decryptFrom_blocks (decipher : Block → Block) (progress : Progress) (source : Source) (received : Array UInt8)
    (blocks : List Block) {tail : Bytes} (hl : source.lead = joined blocks ++ tail) (ht : tail.length < 16) :
    let last := blocks.foldl (Progress.advance decipher) progress
    let sink : Sink := ⟨[], received ++ joined (progress.plain decipher blocks).dropLast⟩
    decryptFrom decipher progress source ⟨[], received⟩ =
      match source.stop? with
      | some failure => ⟨.error (.io .readCiphertext failure), source.beyond, sink⟩
      | none =>
        if tail = [] then finish last source.beyond sink
        else ⟨.error (.cipher (.misaligned (last.read + tail.length))), source.beyond, sink⟩ := by
  induction blocks generalizing progress source received with
  | nil =>
    have hd : (progress.plain decipher []).dropLast = [] := by
      cases hh : progress.held <;> simp [Progress.plain, Cbc.decrypt, hh]
    rw [joined, List.flatMap_nil, List.nil_append] at hl
    simp only [hd, Block.joined_nil, Array.appendList_nil, List.foldl_nil]
    rw [decryptFrom_stop (by rw [hl]; exact ht), hl]
  | cons b rest ih =>
    rw [Block.joined_cons, List.append_assoc] at hl
    obtain ⟨-, -, hlead, hstop, hbeyond⟩ := Source.fill_full Block.size source (by simp [hl, Block.size])
    have hl' : (source.fill Block.size).rest.lead = joined rest ++ tail := by
      rw [hlead, hl, List.drop_left' (by simp [Block.size])]
    have hfree : received ++ progress.free ++ joined ((progress.advance decipher b).plain decipher rest).dropLast =
        received ++ joined (progress.plain decipher (b :: rest)).dropLast := by
      rw [append_joined, Progress.plain_cons, List.dropLast_append_of_ne_nil (Progress.plain_advance_ne_nil _ _ _ _),
        Block.joined_append, Progress.joined_held]
    rw [decryptFrom_block hl, Sink.write_all]
    simp only [List.foldl_cons]
    rw [ih _ _ _ hl', hstop, hbeyond, hfree]

/-! ## Whole inputs -/

/-- the plaintext of a ciphertext, or why it has none -/
def opened (decipher : Block → Block) (iv : Block) (ciphertext : Bytes) : Except CipherFault Bytes :=
  if ciphertext.length % 16 ≠ 0 then .error (.misaligned ciphertext.length)
  else unpad (Cbc.decrypt decipher iv (wholeBlocks ciphertext))

/-- the plaintext that leaves while the end is not known yet -/
def early (decipher : Block → Block) (iv : Block) (ciphertext : Bytes) : Bytes :=
  joined (Cbc.decrypt decipher iv (wholeBlocks ciphertext)).dropLast

/-- the end of the input with all plaintext blocks but the last one written -/
theorem finish_unpad {progress : Progress} {plain : List Block} (source : Source) (received : Array UInt8)
    (hheld : progress.held = plain.getLast?) (hreleased : progress.released = 16 * plain.dropLast.length) :
    finish progress source ⟨[], received ++ joined plain.dropLast⟩ =
      match unpad plain with
      | .error fault => ⟨.error (.cipher fault), source, ⟨[], received ++ joined plain.dropLast⟩⟩
      | .ok plaintext => ⟨.ok ⟨progress.read, plaintext.length⟩, source, ⟨[], received ++ plaintext⟩⟩ := by
  unfold finish unpad
  rw [hheld]
  cases plain.getLast? with
  | none => rfl
  | some last =>
    simp only
    cases paddingLength? last with
    | none => rfl
    | some n => simp only [Sink.write_all, append_joined, hreleased, List.length_append, Block.length_joined]

theorem decryptFrom_start (decipher : Block → Block) (iv : Block) (source : Source) (received : Array UInt8) :
    decryptFrom decipher (.start iv) source ⟨[], received⟩ =
      match source.stop? with
      | some failure =>
        ⟨.error (.io .readCiphertext failure), source.beyond, ⟨[], received ++ early decipher iv source.lead⟩⟩
      | none =>
        match opened decipher iv source.lead with
        | .error fault => ⟨.error (.cipher fault), source.beyond, ⟨[], received ++ early decipher iv source.lead⟩⟩
        | .ok plaintext =>
          ⟨.ok ⟨source.lead.length, plaintext.length⟩, source.beyond, ⟨[], received ++ plaintext⟩⟩ := by
  obtain ⟨blocks, tail, hl, ht⟩ := Block.blocks_and_tail source.lead
  have hw : wholeBlocks source.lead = blocks := by rw [hl, Block.wholeBlocks_append blocks ht]
  have hp : (Progress.start iv).plain decipher blocks = Cbc.decrypt decipher iv blocks := rfl
  have hread := Progress.read_foldl decipher (.start iv) blocks
  have hheld := Progress.held_foldl decipher (.start iv) blocks
  have hreleased := Progress.released_foldl decipher (.start iv) blocks
  rw [hp] at hheld hreleased
  simp only [Progress.start, Nat.zero_add] at hread hreleased
  have hlen : source.lead.length = 16 * blocks.length + tail.length := by rw [hl]; simp
  rw [decryptFrom_blocks decipher (.start iv) source received blocks hl ht, hp]
  unfold opened early
  rw [hw]
  cases source.stop? with
  | some failure => rfl
  | none =>
    by_cases htail : tail = []
    · rw [htail, List.length_nil, Nat.add_zero] at hlen
      have hz : ¬ source.lead.length % 16 ≠ 0 := by omega
      simp only [htail, if_true, if_neg hz]
      rw [finish_unpad _ _ hheld hreleased]
      simp only [Progress.start, hread, hlen]
    · have hpos : 0 < tail.length := List.length_pos_iff.2 htail
      have hz : source.lead.length % 16 ≠ 0 := by omega
      simp only [htail, if_false, if_pos hz]
      simp only [Progress.start, hread, hlen]

/-- the initial vector is the first block of what comes before the stop -/
theorem readIv_eq (source : Source) : readIv source =
    match Block.ofBytes? (source.lead.take 16) with
    | none =>
      match source.stop? with
      | some failure => (.error (.io .readIv failure), source.beyond)
      | none => (.error (.inputTooSmall source.lead.length), source.beyond)
    | some iv => (.ok iv, (source.fill Block.size).rest) := by
  by_cases h : source.lead.length < 16
  · rw [readIv, Source.fill_short Block.size source h, Block.ofBytes?_take_eq_none.2 h]
    cases source.stop? <;> simp [Block.ofBytes?_eq_none.2 h.ne]
  · obtain ⟨hb, hf, -⟩ := Source.fill_full Block.size source (by simp only [Block.size]; omega)
    obtain ⟨iv, hiv⟩ : ∃ iv : Block, iv.toList = source.lead.take 16 :=
      Block.exists_toList (by rw [List.length_take]; omega)
    have hs : Block.ofBytes? (source.lead.take 16) = some iv := by rw [← hiv, Block.ofBytes?_toList]
    simp only [Block.size] at hb hf
    simp only [readIv, Block.size, hb, hf, hs]

/-- **A whole run** with a sink that takes everything -/
theorem decryptStream_collecting (key : Key) (source : Source) (received : Array UInt8) :
    decryptStream key source ⟨[], received⟩ =
      let decipher := Aes.decryptBlock (.ofKey key)
      let ciphertext := source.lead.drop 16
      match Block.ofBytes? (source.lead.take 16), source.stop? with
      | none, some failure => ⟨.error (.io .readIv failure), source.beyond, ⟨[], received⟩⟩
      | none, none => ⟨.error (.inputTooSmall source.lead.length), source.beyond, ⟨[], received⟩⟩
      | some iv, some failure =>
        ⟨.error (.io .readCiphertext failure), source.beyond, ⟨[], received ++ early decipher iv ciphertext⟩⟩
      | some iv, none =>
        match opened decipher iv ciphertext with
        | .error fault => ⟨.error (.cipher fault), source.beyond, ⟨[], received ++ early decipher iv ciphertext⟩⟩
        | .ok plaintext => ⟨.ok ⟨ciphertext.length, plaintext.length⟩, source.beyond, ⟨[], received ++ plaintext⟩⟩ := by
  rw [decryptStream, readIv_eq]
  cases hiv : Block.ofBytes? (source.lead.take 16) with
  | none => cases source.stop? <;> rfl
  | some iv =>
    have hl : 16 ≤ source.lead.length := by
      have := Block.length_of_ofBytes? hiv
      rw [List.length_take] at this
      omega
    obtain ⟨-, -, hlead, hstop, hbeyond⟩ := Source.fill_full Block.size source hl
    simp only [decryptCiphertext]
    rw [decryptFrom_start, hlead, hstop, hbeyond]
    simp only [Block.size]
    cases source.stop? <;> rfl

/-- bytes in memory: the first block is the initial vector, the rest is ciphertext -/
theorem decryptBytes_eq (key : Key) (bytes : Bytes) : decryptBytes key bytes =
    match Block.ofBytes? (bytes.take 16) with
    | none => .error (.inputTooSmall bytes.length)
    | some iv => (opened (Aes.decryptBlock (.ofKey key)) iv (bytes.drop 16)).mapError .cipher := by
  unfold decryptBytes
  rw [Sink.collecting, decryptStream_collecting, Source.lead_ofBytes, Source.stop?_ofBytes]
  cases Block.ofBytes? (bytes.take 16) with
  | none => rfl
  | some iv =>
    simp only
    cases opened (Aes.decryptBlock (.ofKey key)) iv (bytes.drop 16) with
    | error fault => rfl
    | ok plaintext => simp [Except.mapError]

theorem decryptBytes_short (key : Key) {bytes : Bytes} (h : bytes.length < 16) :
    decryptBytes key bytes = .error (.inputTooSmall bytes.length) := by
  rw [decryptBytes_eq, Block.ofBytes?_take_eq_none.2 h]

end CbcFile
