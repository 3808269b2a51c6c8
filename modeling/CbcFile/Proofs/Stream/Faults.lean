/-
Which fault bytes are refused for. The loop over the blocks carries one block from step to step, so the last plaintext
block comes from the last two blocks alone, whatever stands before them (`Cbc.decrypt_concat`). Bytes that are not cut
short decrypt or do not by the end of that block (`decryptBytes_final`); all other faults are told by the length
(`decryptBytes_fault`).

Result:
- `fault_of_last_blocks`: each fault has its own condition on the length and the last two blocks, and there is no other.
  Two byte strings of one length that end in the same thirty-two bytes come to the same.
-/
import Mathlib.Tactic
import CbcFile.Proofs.Stream.Decrypt

namespace CbcFile

open Block (joined wholeBlocks)

/-! ## Faults and lengths -/

/-- why bytes of this length do not decrypt, if they do not -/
def faultOf (length : Nat) : DecryptError :=
  if length < 16 then .inputTooSmall length
  else if length % 16 ≠ 0 then .cipher (.misaligned (length - 16))
  else if length = 16 then .cipher .noFinalBlock
  else .cipher .badPadding

theorem faultOf_misaligned {length : Nat} (h : 16 ≤ length) (hrest : length % 16 ≠ 0) :
    faultOf length = .cipher (.misaligned (length - 16)) := by
  rw [faultOf, if_neg (by omega), if_pos hrest]

theorem faultOf_whole {length : Nat} (h : 32 ≤ length) (hwhole : length % 16 = 0) :
    faultOf length = .cipher .badPadding := by
  rw [faultOf, if_neg (by omega), if_neg (by omega), if_neg (by omega)]

theorem unpad_fault {plain : List Block} {fault : CipherFault} (hne : plain ≠ []) (h : unpad plain = .error fault) :
    fault = .badPadding := by
  obtain ⟨front, last, rfl⟩ := List.eq_nil_or_concat plain |>.resolve_left hne
  rw [List.concat_eq_append, unpad_concat] at h
  cases hp : paddingLength? last with
  | none => rw [hp] at h; exact (Except.error.inj h).symm
  | some n => rw [hp] at h; cases h

theorem decrypt_ne_nil (decipher : Block → Block) (iv : Block) {ciphertext : Bytes} (h : 16 ≤ ciphertext.length) :
    Cbc.decrypt decipher iv (wholeBlocks ciphertext) ≠ [] := by
  obtain ⟨blocks, tail, rfl, htail⟩ := Block.blocks_and_tail ciphertext
  rw [Block.wholeBlocks_append blocks htail]
  cases blocks with
  | nil => exact absurd h (not_le.2 htail)
  | cons block rest => exact List.cons_ne_nil _ _

theorem opened_fault {decipher : Block → Block} {iv : Block} {ciphertext : Bytes} {fault : CipherFault}
    (h : opened decipher iv ciphertext = .error fault) :
    fault = if ciphertext.length % 16 ≠ 0 then .misaligned ciphertext.length
      else if ciphertext.length = 0 then .noFinalBlock
      else .badPadding := by
  unfold opened at h
  split_ifs at h ⊢ with hwhole hempty
  · exact (Except.error.inj h).symm
  · rw [List.length_eq_zero_iff.1 hempty, Block.wholeBlocks_short (by decide)] at h
    exact (Except.error.inj h).symm
  · exact unpad_fault (decrypt_ne_nil decipher iv (by omega)) h

/-- **A fault tells the length** and nothing else -/
theorem decryptBytes_fault {key : Key} {bytes : Bytes} {error : DecryptError} (h : decryptBytes key bytes = .error error) :
    error = faultOf bytes.length := by
  rw [decryptBytes_eq] at h
  cases hiv : Block.ofBytes? (bytes.take 16) with
  | none =>
    rw [hiv] at h
    rw [faultOf, if_pos (Block.ofBytes?_take_eq_none.1 hiv)]
    exact (Except.error.inj h).symm
  | some iv =>
    have hlong : ¬ bytes.length < 16 := by
      rw [← Block.ofBytes?_take_eq_none, hiv]
      exact Option.some_ne_none iv
    rw [hiv] at h
    simp only at h
    cases ho : opened (Aes.decryptBlock (.ofKey key)) iv (bytes.drop 16) with
    | ok plaintext => rw [ho] at h; cases h
    | error fault =>
      rw [ho] at h
      rw [← show .cipher fault = error from Except.error.inj h, opened_fault ho, List.length_drop, faultOf, if_neg hlong]
      split_ifs <;> first | rfl | omega

/-- the faults that bytes in memory are refused for -/
theorem decryptBytes_error {key : Key} {bytes : Bytes} {error : DecryptError}
    (h : decryptBytes key bytes = .error error) :
    error = .inputTooSmall bytes.length ∨ ∃ fault, error = .cipher fault := by
  rw [decryptBytes_fault h, faultOf]
  split_ifs
  · exact Or.inl rfl
  · exact Or.inr ⟨_, rfl⟩
  · exact Or.inr ⟨_, rfl⟩
  · exact Or.inr ⟨_, rfl⟩

/-- bytes that decrypt are whole blocks, two of them at least -/
theorem length_of_decryptBytes {key : Key} {bytes plaintext : Bytes} (h : decryptBytes key bytes = .ok plaintext) :
    32 ≤ bytes.length ∧ bytes.length % 16 = 0 := by
  rw [decryptBytes_eq] at h
  cases hiv : Block.ofBytes? (bytes.take 16) with
  | none => rw [hiv] at h; cases h
  | some iv =>
    rw [hiv] at h
    simp only at h
    have hlong := Block.length_of_ofBytes? hiv
    rw [List.length_take] at hlong
    unfold opened at h
    split_ifs at h with hwhole
    · cases h
    · have hblock : 16 ≤ (bytes.drop 16).length := by
        by_contra hc
        rw [Block.wholeBlocks_short (not_le.1 hc)] at h
        cases h
      rw [List.length_drop] at hwhole hblock
      omega

/-! ## The last block -/

/-- **The last plaintext block** is that of the last ciphertext block, chained to the one before it -/
theorem Cbc.decrypt_concat (decipher : Block → Block) (iv : Block) (blocks : List Block) (last : Block) :
    Cbc.decrypt decipher iv (blocks ++ [last]) =
      Cbc.decrypt decipher iv blocks ++ [(decipher last).xor (blocks.getLast?.getD iv)] := by
  induction blocks generalizing iv with
  | nil => rfl
  | cons block rest ih =>
    rw [List.cons_append, Cbc.decrypt, ih, Cbc.decrypt, List.cons_append]
    cases rest with
    | nil => rfl
    | cons next later => simp [List.getLast?_cons]

/-- whole blocks, the last two of which are these -/
def EndsInBlocks (bytes : Bytes) (previous last : Block) : Prop :=
  bytes.length % 16 = 0 ∧ previous.toList ++ last.toList <:+ bytes

theorem exists_last_blocks {bytes : Bytes} (hlong : 32 ≤ bytes.length) (hwhole : bytes.length % 16 = 0) :
    ∃ previous last, EndsInBlocks bytes previous last := by
  obtain ⟨last, hlast⟩ : ∃ last : Block, last.toList = bytes.drop (bytes.length - 16) :=
    Block.exists_toList (by rw [List.length_drop]; omega)
  obtain ⟨previous, hprevious⟩ : ∃ previous : Block,
      previous.toList = (bytes.take (bytes.length - 16)).drop (bytes.length - 32) :=
    Block.exists_toList (by rw [List.length_drop, List.length_take]; omega)
  refine ⟨previous, last, hwhole, (bytes.take (bytes.length - 16)).take (bytes.length - 32), ?_⟩
  rw [hprevious, hlast, ← List.append_assoc, List.take_append_drop, List.take_append_drop]

/-- **Whole blocks, two at least**: the end of the last plaintext block decides, and tells how much is cut off -/
theorem decryptBytes_final (key : Key) {bytes : Bytes} {previous last : Block} (h : EndsInBlocks bytes previous last) :
    (decryptBytes key bytes).map List.length =
      match paddingLength? ((Aes.decryptBlock (.ofKey key) last).xor previous) with
      | none => .error (.cipher .badPadding)
      | some n => .ok (bytes.length - 16 - n) := by
  obtain ⟨hwhole, front, rfl⟩ := h
  obtain ⟨blocks, rfl⟩ : ∃ blocks, front = joined blocks := by
    refine ⟨wholeBlocks front, (Block.joined_wholeBlocks ?_).symm⟩
    simp only [List.length_append, Vector.length_toList] at hwhole
    omega
  -- the first of all blocks is the initial vector, which is the one before the last if there are only two
  obtain ⟨iv, rest, hrest⟩ : ∃ iv rest, blocks ++ [previous] = iv :: rest := by
    cases blocks with
    | nil => exact ⟨previous, [], rfl⟩
    | cons block more => exact ⟨block, more ++ [previous], rfl⟩
  have hprevious : rest.getLast?.getD iv = previous := by
    have hlast := congrArg List.getLast? hrest
    rw [List.getLast?_concat, List.getLast?_cons] at hlast
    exact (Option.some.inj hlast).symm
  have hbytes : joined blocks ++ (previous.toList ++ last.toList) = iv.toList ++ joined (rest ++ [last]) := by
    have hall : joined (blocks ++ [previous] ++ [last]) = joined (iv :: (rest ++ [last])) := by rw [hrest]; rfl
    simpa using hall
  have hopened : opened (Aes.decryptBlock (.ofKey key)) iv (joined (rest ++ [last])) =
      unpad (Cbc.decrypt (Aes.decryptBlock (.ofKey key)) iv rest ++
        [(Aes.decryptBlock (.ofKey key) last).xor previous]) := by
    rw [opened, if_neg (by rw [Block.length_joined]; omega), Block.wholeBlocks_joined, Cbc.decrypt_concat, hprevious]
  rw [hbytes, decryptBytes_eq, List.take_left' (by simp), List.drop_left' (by simp), Block.ofBytes?_toList]
  simp only
  rw [hopened, unpad_concat]
  cases hpad : paddingLength? ((Aes.decryptBlock (.ofKey key) last).xor previous) with
  | none => rfl
  | some n =>
    obtain ⟨-, h16⟩ := paddingLength?_le hpad
    simp only [Block.size] at h16
    simp only [Except.mapError, Except.map, Except.ok.injEq, List.length_append, Block.length_joined,
      Cbc.length_decrypt, List.length_take, Vector.length_toList, Block.size, List.length_singleton]
    omega

/-! ## Classification -/

/-- bytes that are too few or cut short inside a block are refused for it, whatever they are -/
theorem decryptBytes_of_length (key : Key) {bytes : Bytes} (h : ¬ (32 ≤ bytes.length ∧ bytes.length % 16 = 0)) :
    decryptBytes key bytes = .error (faultOf bytes.length) := by
  cases hb : decryptBytes key bytes with
  | error error => rw [decryptBytes_fault hb]
  | ok plaintext => exact absurd (length_of_decryptBytes hb) h

/-- the block ends in `n` bytes of value `n`, between one and sixteen of them -/
def EndsPadded (block : Block) (n : Nat) : Prop :=
  1 ≤ n ∧ n ≤ 16 ∧ List.replicate n (UInt8.ofNat n) <:+ block.toList

theorem paddingLength?_iff_endsPadded {block : Block} {n : Nat} : paddingLength? block = some n ↔ EndsPadded block n := by
  rw [paddingLength?_eq_some, EndsPadded]
  refine and_congr_right fun _ => and_congr_right fun h16 => ⟨?_, ?_⟩
  · rintro ⟨x, -, hx⟩
    exact ⟨x, hx.symm⟩
  · rintro ⟨x, hx⟩
    have hlength := congrArg List.length hx
    rw [List.length_append, List.length_replicate, Vector.length_toList] at hlength
    exact ⟨x, by omega, hx.symm⟩

theorem paddingLength?_eq_none {block : Block} : paddingLength? block = none ↔ ∀ n, ¬ EndsPadded block n := by
  rw [Option.eq_none_iff_forall_ne_some]
  exact forall_congr' fun n => not_congr paddingLength?_iff_endsPadded

/-- the padding is refused exactly if the last of whole blocks decrypts to one that is not padded -/
theorem decryptBytes_eq_badPadding {key : Key} {bytes : Bytes} :
    decryptBytes key bytes = .error (.cipher .badPadding) ↔ ∃ previous last, EndsInBlocks bytes previous last ∧
      ∀ n, ¬ EndsPadded ((Aes.decryptBlock (.ofKey key) last).xor previous) n := by
  constructor
  · intro h
    have hwhole : 32 ≤ bytes.length ∧ bytes.length % 16 = 0 := by
      have hfault := decryptBytes_fault h
      unfold faultOf at hfault
      split_ifs at hfault with hshort hrest hempty
      · cases hfault
      · cases hfault
      · omega
    obtain ⟨previous, last, hends⟩ := exists_last_blocks hwhole.1 hwhole.2
    refine ⟨previous, last, hends, paddingLength?_eq_none.1 ?_⟩
    have hfinal := decryptBytes_final key hends
    rw [h] at hfinal
    cases hpad : paddingLength? ((Aes.decryptBlock (.ofKey key) last).xor previous) with
    | none => rfl
    | some n => rw [hpad] at hfinal; cases hfinal
  · rintro ⟨previous, last, hends, hpad⟩
    have hfinal := decryptBytes_final key hends
    rw [paddingLength?_eq_none.2 hpad] at hfinal
    cases hb : decryptBytes key bytes with
    | error error => rw [hb] at hfinal; rw [Except.error.inj hfinal]
    | ok plaintext => rw [hb] at hfinal; cases hfinal

/-- there is a plaintext exactly if the last of whole blocks decrypts to a padded one, and the padding is what it lacks -/
theorem decryptBytes_length_iff {key : Key} {bytes : Bytes} {k : Nat} :
    (∃ plaintext, decryptBytes key bytes = .ok plaintext ∧ plaintext.length = k) ↔
      ∃ previous last n, EndsInBlocks bytes previous last ∧
        EndsPadded ((Aes.decryptBlock (.ofKey key) last).xor previous) n ∧ k = bytes.length - 16 - n := by
  constructor
  · rintro ⟨plaintext, hb, rfl⟩
    obtain ⟨hlong, hwhole⟩ := length_of_decryptBytes hb
    obtain ⟨previous, last, hends⟩ := exists_last_blocks hlong hwhole
    have hfinal := decryptBytes_final key hends
    rw [hb] at hfinal
    cases hpad : paddingLength? ((Aes.decryptBlock (.ofKey key) last).xor previous) with
    | none => rw [hpad] at hfinal; cases hfinal
    | some n =>
      rw [hpad] at hfinal
      exact ⟨previous, last, n, hends, paddingLength?_iff_endsPadded.1 hpad, Except.ok.inj hfinal⟩
  · rintro ⟨previous, last, n, hends, hpad, rfl⟩
    have hfinal := decryptBytes_final key hends
    rw [paddingLength?_iff_endsPadded.2 hpad] at hfinal
    cases hb : decryptBytes key bytes with
    | error error => rw [hb] at hfinal; cases hfinal
    | ok plaintext => rw [hb] at hfinal; exact ⟨plaintext, rfl, Except.ok.inj hfinal⟩

/-- **Equal lengths and equal last two blocks** come to the same fault, or to plaintexts of one length -/
theorem decryptBytes_congr (key : Key) {bytes other : Bytes} (hlength : other.length = bytes.length)
    (hlast : other.drop (bytes.length - 32) = bytes.drop (bytes.length - 32)) :
    (decryptBytes key other).map List.length = (decryptBytes key bytes).map List.length := by
  by_cases hwhole : 32 ≤ bytes.length ∧ bytes.length % 16 = 0
  swap
  · rw [decryptBytes_of_length key hwhole, decryptBytes_of_length key (by rw [hlength]; exact hwhole), hlength]
  obtain ⟨previous, last, hends⟩ := exists_last_blocks hwhole.1 hwhole.2
  have hother : EndsInBlocks other previous last := by
    refine ⟨by rw [hlength]; exact hwhole.2, ?_⟩
    obtain ⟨-, front, rfl⟩ := hends
    rw [show (front ++ (previous.toList ++ last.toList)).length - 32 = front.length by simp, List.drop_left] at hlast
    exact hlast ▸ List.drop_suffix front.length other
  rw [decryptBytes_final key hother, decryptBytes_final key hends, hlength]

theorem text_misaligned (n : Nat) :
    CipherFault.text (.misaligned n) = s!"ciphertext length {n} is not a multiple of 16 bytes" := by
  have hend : " is not a multiple of " ++ (toString Block.size ++ " bytes") = " is not a multiple of 16 bytes" := by decide
  change "ciphertext length " ++ toString n ++ " is not a multiple of " ++ toString Block.size ++ " bytes" = _
  rw [String.append_assoc, String.append_assoc, hend]
  rfl

/-- **The length, the key and the last two blocks decide.** Let `m` be the number of bytes after the first sixteen. Bytes
are refused as too few for an initial vector exactly if there are fewer than sixteen, as no whole blocks exactly if `m`
is no multiple of sixteen, as empty exactly if `m` is zero, and for their padding exactly if they are two whole blocks at
least and the last one decrypts to a block that does not end in `n` bytes of value `n` for any `n` from one to sixteen.
If it does, and only then, they decrypt, to `m - n` bytes. No other error is possible. Byte strings of one length that
end in the same thirty-two bytes come to the same error or to plaintexts of one length. -/
theorem fault_of_last_blocks (key : Key) (bytes : Bytes) :
    let result := decryptBytes key bytes
    let m := bytes.length - 16
    let plain (previous last : Block) := (Aes.decryptBlock (.ofKey key) last).xor previous
    (∀ n, result = .error (.inputTooSmall n) ↔ bytes.length < 16 ∧ n = bytes.length) ∧
    (∀ n, result = .error (.cipher (.misaligned n)) ↔ 16 ≤ bytes.length ∧ m % 16 ≠ 0 ∧ n = m) ∧
    (result = .error (.cipher .noFinalBlock) ↔ 16 ≤ bytes.length ∧ m = 0) ∧
    (result = .error (.cipher .badPadding) ↔
      ∃ previous last, EndsInBlocks bytes previous last ∧ ∀ n, ¬ EndsPadded (plain previous last) n) ∧
    (∀ k, (∃ plaintext, result = .ok plaintext ∧ plaintext.length = k) ↔
      ∃ previous last n, EndsInBlocks bytes previous last ∧ EndsPadded (plain previous last) n ∧ k = m - n) ∧
    (∀ error, result = .error error → error = .inputTooSmall bytes.length ∨ error = .cipher (.misaligned m) ∨
      error = .cipher .noFinalBlock ∨ error = .cipher .badPadding) ∧
    (∀ other : Bytes, other.length = bytes.length → other.drop (bytes.length - 32) = bytes.drop (bytes.length - 32) →
      (decryptBytes key other).map List.length = result.map List.length) ∧
    CipherFault.text (.misaligned m) = s!"ciphertext length {m} is not a multiple of 16 bytes" ∧
    CipherFault.text .noFinalBlock = "empty ciphertext: missing final block" ∧
    CipherFault.text .badPadding = "bad decrypt: invalid PKCS#7 padding (wrong key or corrupted data)" := by
  intro result m plain
  -- a fault that the length tells comes exactly from the lengths that tell it
  have hfault : ∀ error, error ≠ .cipher .badPadding → (result = .error error ↔ error = faultOf bytes.length) := by
    intro error hne
    refine ⟨decryptBytes_fault, ?_⟩
    rintro rfl
    refine decryptBytes_of_length key fun hwhole => hne ?_
    rw [faultOf, if_neg (by omega), if_neg (by omega), if_neg (by omega)]
  refine ⟨fun n => ?_, fun n => ?_, ?_, decryptBytes_eq_badPadding, fun k => decryptBytes_length_iff, fun error h => ?_,
    fun other hlength hlast => decryptBytes_congr key hlength hlast, text_misaligned m, rfl, rfl⟩
  · rw [hfault _ (by simp), faultOf]
    split_ifs <;> simp_all
  · rw [hfault _ (by simp), faultOf]
    split_ifs <;> simp <;> omega
  · rw [hfault _ (by simp), faultOf]
    split_ifs <;> simp <;> omega
  · rw [decryptBytes_fault h, faultOf]
    split_ifs <;> simp [m]

end CbcFile
