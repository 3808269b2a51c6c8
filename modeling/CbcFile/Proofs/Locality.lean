/-
A plaintext block is made of two neighbours in the row of sealed blocks, where the initial vector is a block like any
other: the block itself, decrypted, and the one before it (`Cbc.unchain`). Nothing else is carried from block to block.
- `decryptBytes_joined`: decryption of whole blocks is `unpad` of these neighbours;
- `fromBlock_eq`: the bytes of a plaintext that come from a block are told by its pair of neighbours and the length.

Results:
- `starts_at_any_block`: decryption of the bytes after any block boundary gives the plaintext after that boundary, or the
  same fault;
- `change_confined`: a change in one block changes what comes from that block and the same bits of what comes from the
  next one. It cannot be seen anywhere else, and it decides nothing unless it is in the last two blocks.
-/
import Mathlib.Tactic
import CbcFile.Proofs.Format
import CbcFile.Proofs.Stream.Faults

namespace CbcFile

open Block (joined wholeBlocks)

/-! ## Rows of blocks -/

namespace Block

theorem drop_joined (blocks : List Block) (k : Nat) : (joined blocks).drop (16 * k) = joined (blocks.drop k) := by
  induction k generalizing blocks with
  | zero => rfl
  | succ k ih =>
    cases blocks with
    | nil => simp
    | cons block rest =>
      rw [List.drop_succ_cons, ← ih, joined_cons, Nat.mul_succ, Nat.add_comm, ← List.drop_drop,
        List.drop_left' (Vector.length_toList)]

theorem take_joined (blocks : List Block) : (joined blocks).take 16 = joined blocks.head?.toList := by
  cases blocks with
  | nil => rfl
  | cons block rest => simp

/-- sixteen bytes from a block boundary on are a block, if there is one -/
theorem take_drop_joined (blocks : List Block) (i : Nat) :
    ((joined blocks).drop (16 * i)).take 16 = joined blocks[i]?.toList := by
  rw [drop_joined, take_joined, List.head?_drop]

end Block

namespace Cbc

/-- what a row of blocks decrypts to: each block but the first, chained to the one before it -/
def unchain (decipher : Block → Block) (blocks : List Block) : List Block :=
  List.zipWith (fun previous sealed => (decipher sealed).xor previous) blocks blocks.tail

theorem decrypt_eq_unchain (decipher : Block → Block) (iv : Block) (sealed : List Block) :
    decrypt decipher iv sealed = unchain decipher (iv :: sealed) := by
  induction sealed generalizing iv with
  | nil => rfl
  | cons block rest ih =>
    rw [decrypt, ih]
    rfl

section Unchain

variable (decipher : Block → Block) (blocks : List Block)

theorem length_unchain : (unchain decipher blocks).length = blocks.length - 1 := by
  simp [unchain]

theorem unchain_drop (k : Nat) : unchain decipher (blocks.drop k) = (unchain decipher blocks).drop k := by
  rw [unchain, unchain, List.drop_zipWith, List.tail_drop, List.drop_tail]

variable {blocks}

theorem getElem?_unchain {i : Nat} {previous sealed : Block} (hprevious : blocks[i]? = some previous)
    (hsealed : blocks[i + 1]? = some sealed) : (unchain decipher blocks)[i]? = some ((decipher sealed).xor previous) := by
  rw [unchain, List.getElem?_zipWith, List.getElem?_tail, hprevious, hsealed]

/-- a change in one block is seen from that block and the next one alone -/
theorem getElem?_unchain_modify (change : Block → Block) {i j : Nat} (hnext : i ≠ j) (hself : i + 1 ≠ j) :
    (unchain decipher (blocks.modify j change))[i]? = (unchain decipher blocks)[i]? := by
  simp only [unchain, List.getElem?_zipWith, List.getElem?_tail, List.getElem?_modify, if_neg hnext.symm,
    if_neg hself.symm, Option.map_eq_map, Option.map_id']

end Unchain

end Cbc

/-! ## Whole blocks -/

/-- **Whole blocks decrypt** to what their pairs of neighbours do, without the padding -/
theorem decryptBytes_joined (key : Key) {blocks : List Block} (hne : blocks ≠ []) :
    decryptBytes key (joined blocks) =
      (unpad (Cbc.unchain (Aes.decryptBlock (.ofKey key)) blocks)).mapError .cipher := by
  obtain ⟨iv, sealed, rfl⟩ := List.exists_cons_of_ne_nil hne
  have hwhole : ¬ (joined sealed).length % 16 ≠ 0 := by
    rw [Block.length_joined]
    omega
  rw [decryptBytes_eq, Block.joined_cons, List.take_left' Vector.length_toList, List.drop_left' Vector.length_toList,
    Block.ofBytes?_toList]
  simp only [opened, if_neg hwhole, Block.wholeBlocks_joined, Cbc.decrypt_eq_unchain]

/-- the padding is at the end, whatever is cut off in front -/
theorem unpad_drop {plain : List Block} {k : Nat} (h : k < plain.length) :
    unpad (plain.drop k) = (unpad plain).map (List.drop (16 * k)) := by
  obtain ⟨front, last, rfl⟩ := List.eq_nil_or_concat plain |>.resolve_left (List.ne_nil_of_length_pos (by omega))
  rw [List.concat_eq_append] at h ⊢
  rw [List.length_append, List.length_singleton] at h
  rw [List.drop_append_of_le_length (by omega), unpad_concat, unpad_concat]
  cases paddingLength? last with
  | none => rfl
  | some n =>
    simp only [Except.map]
    rw [List.drop_append_of_le_length (by rw [Block.length_joined]; omega), Block.drop_joined]

/-! ## Starting later -/

/-- **Whole blocks from any of them on** decrypt to the plaintext from there on -/
theorem decryptBytes_drop (key : Key) {bytes : Bytes} {k : Nat} (h : 16 * k + 32 ≤ bytes.length)
    (hwhole : bytes.length % 16 = 0) :
    decryptBytes key (bytes.drop (16 * k)) = (decryptBytes key bytes).map (List.drop (16 * k)) := by
  obtain ⟨blocks, rfl⟩ : ∃ blocks, bytes = joined blocks := ⟨wholeBlocks bytes, (Block.joined_wholeBlocks hwhole).symm⟩
  rw [Block.length_joined] at h
  have hlater : blocks.drop k ≠ [] := List.ne_nil_of_length_pos (by rw [List.length_drop]; omega)
  rw [Block.drop_joined, decryptBytes_joined key hlater, Cbc.unchain_drop,
    unpad_drop (by rw [Cbc.length_unchain]; omega), decryptBytes_joined key (List.ne_nil_of_length_pos (by omega))]
  cases unpad (Cbc.unchain (Aes.decryptBlock (.ofKey key)) blocks) <;> rfl

theorem decryptBytes_drop_of_ok {key : Key} {bytes plaintext : Bytes} {k : Nat} (h : 16 * k + 32 ≤ bytes.length)
    (hb : decryptBytes key bytes = .ok plaintext) :
    decryptBytes key (bytes.drop (16 * k)) = .ok (plaintext.drop (16 * k)) := by
  rw [decryptBytes_drop key h (length_of_decryptBytes hb).2, hb]
  rfl

/-- **Decryption can start at any block boundary.** If there are two blocks at least after the first `k`, then the bytes
after these decrypt exactly if all of them do, to the plaintext without its first `k` blocks. If they do not decrypt,
the fault is the same; only the length that is told of bytes which are no whole blocks is less by that of `k` blocks. -/
theorem starts_at_any_block (key : Key) {bytes : Bytes} {k : Nat} (h : 32 ≤ (bytes.drop (16 * k)).length) :
    let later := decryptBytes key (bytes.drop (16 * k))
    (match decryptBytes key bytes with
      | .ok plaintext => 16 * k ≤ plaintext.length ∧ later = .ok (plaintext.drop (16 * k))
      | .error (.cipher (.misaligned length)) =>
        16 * k ≤ length ∧ later = .error (.cipher (.misaligned (length - 16 * k)))
      | .error error => later = .error error) ∧
    ((∃ plaintext, later = .ok plaintext) → ∃ plaintext, decryptBytes key bytes = .ok plaintext) ∧
    ∀ n, CipherFault.text (.misaligned n) = s!"ciphertext length {n} is not a multiple of 16 bytes" := by
  intro later
  have hlater : (bytes.drop (16 * k)).length = bytes.length - 16 * k := List.length_drop
  rw [hlater] at h
  by_cases hwhole : bytes.length % 16 = 0
  · have hdrop : later = (decryptBytes key bytes).map (List.drop (16 * k)) :=
      decryptBytes_drop key (by omega) hwhole
    cases hb : decryptBytes key bytes with
    | ok plaintext =>
      have hlength := length_of_plaintext hb
      rw [hb] at hdrop
      exact ⟨⟨by omega, hdrop⟩, fun _ => ⟨plaintext, rfl⟩, text_misaligned⟩
    | error error =>
      obtain rfl : error = .cipher .badPadding := by rw [decryptBytes_fault hb, faultOf_whole (by omega) hwhole]
      rw [hb] at hdrop
      refine ⟨hdrop, ?_, text_misaligned⟩
      rintro ⟨plaintext, hc⟩
      rw [hdrop] at hc
      cases hc
  · -- bytes that are no whole blocks are refused for their length, and so are the later ones
    have hb : decryptBytes key bytes = .error (.cipher (.misaligned (bytes.length - 16))) := by
      rw [decryptBytes_of_length key (by omega), faultOf_misaligned (by omega) hwhole]
    have hl : later = .error (.cipher (.misaligned (bytes.length - 16 - 16 * k))) :=
      calc later = .error (faultOf (bytes.length - 16 * k)) := by
            rw [← hlater]
            exact decryptBytes_of_length key (by rw [hlater]; omega)
        _ = .error (.cipher (.misaligned (bytes.length - 16 - 16 * k))) := by
            rw [faultOf_misaligned (by omega) (by omega), Nat.sub_right_comm]
    rw [hb, hl]
    refine ⟨⟨by omega, rfl⟩, ?_, text_misaligned⟩
    rintro ⟨plaintext, hc⟩
    cases hc

/-- a plaintext that ends inside its second block, opened from the first of its two ciphertext blocks on -/
theorem starts_at_any_block_second :
    let key : Key := .replicate 32 0
    let sealed := encryptBytes key (.replicate 16 0) (List.replicate 20 7)
    32 ≤ (sealed.drop (16 * 1)).length ∧ decryptBytes key (sealed.drop (16 * 1)) = .ok (List.replicate 4 7) := by
  intro key sealed
  have hlength : sealed.length = 48 := by rw [length_encryptBytes, List.length_replicate]
  have hlong : 32 ≤ (sealed.drop (16 * 1)).length := by rw [List.length_drop, hlength]
  have hopen : decryptBytes key sealed = .ok (List.replicate 20 7) := decryptBytes_eq_ok.2 ⟨_, rfl⟩
  have hlater := (starts_at_any_block key hlong).1
  rw [hopen] at hlater
  exact ⟨hlong, hlater.2⟩

/-! ## A change in one block -/

/-- the bytes of a plaintext that come from block `i`, where the initial vector is block `0`: sixteen of them, or fewer if
they end in padding -/
def fromBlock (plaintext : Bytes) (i : Nat) : Bytes :=
  (plaintext.drop (16 * (i - 1))).take 16

section Row

variable {key : Key} {blocks : List Block} {plaintext : Bytes}

/-- the plaintext of whole blocks: what they decrypt to, as far as it goes before the padding -/
theorem plaintext_of_joined (hne : blocks ≠ []) (h : decryptBytes key (joined blocks) = .ok plaintext) :
    plaintext = (joined (Cbc.unchain (Aes.decryptBlock (.ofKey key)) blocks)).take plaintext.length := by
  rw [decryptBytes_joined key hne] at h
  cases hu : unpad (Cbc.unchain (Aes.decryptBlock (.ofKey key)) blocks) with
  | error fault => rw [hu] at h; cases h
  | ok opened =>
    rw [hu] at h
    obtain rfl : opened = plaintext := Except.ok.inj h
    rw [unpad_eq_ok.1 hu, pad, List.take_left]

/-- **What comes from a block** is what its pair of neighbours decrypts to, as far as the plaintext goes -/
theorem fromBlock_eq (hne : blocks ≠ []) (h : decryptBytes key (joined blocks) = .ok plaintext) (i : Nat) :
    fromBlock plaintext (i + 1) =
      (joined (Cbc.unchain (Aes.decryptBlock (.ofKey key)) blocks)[i]?.toList).take (plaintext.length - 16 * i) := by
  rw [fromBlock, Nat.add_sub_cancel, ← Block.take_drop_joined]
  conv_lhs => rw [plaintext_of_joined hne h]
  rw [List.drop_take, List.take_take, List.take_take, Nat.min_comm]

theorem fromBlock_eq_take (h : decryptBytes key (joined blocks) = .ok plaintext) {i : Nat} {previous sealed : Block}
    (hprevious : blocks[i]? = some previous) (hsealed : blocks[i + 1]? = some sealed) :
    fromBlock plaintext (i + 1) =
      ((Aes.decryptBlock (.ofKey key) sealed).xor previous).toList.take (plaintext.length - 16 * i) := by
  have hne : blocks ≠ [] := by
    rintro rfl
    cases hprevious
  rw [fromBlock_eq hne h, Cbc.getElem?_unchain _ hprevious hsealed, Option.toList_some, Block.joined_cons,
    Block.joined_nil, List.append_nil]

/-- all sixteen bytes come out of a block that is not the last one -/
theorem fromBlock_eq_toList (h : decryptBytes key (joined blocks) = .ok plaintext) {i : Nat}
    (hi : i + 2 < blocks.length) {previous sealed : Block} (hprevious : blocks[i]? = some previous)
    (hsealed : blocks[i + 1]? = some sealed) :
    fromBlock plaintext (i + 1) = ((Aes.decryptBlock (.ofKey key) sealed).xor previous).toList := by
  have hlength := length_of_plaintext h
  rw [Block.length_joined] at hlength
  rw [fromBlock_eq_take h hprevious hsealed, List.take_of_length_le]
  rw [Vector.length_toList]
  omega

end Row

section Change

variable {key : Key} {blocks : List Block} {j : Nat}

/-- a change in front of a block boundary is not seen behind it -/
theorem drop_joined_modify (change : Block → Block) {k : Nat} (h : j < k) :
    (joined (blocks.modify j change)).drop (16 * k) = (joined blocks).drop (16 * k) := by
  rw [Block.drop_joined, Block.drop_joined, List.drop_modify_of_lt change j k blocks h]

/-- the length and the last two blocks decide, and these are not changed -/
theorem decryptBytes_modify (key : Key) (change : Block → Block) (h : j + 2 < blocks.length) :
    (decryptBytes key (joined (blocks.modify j change))).map List.length =
      (decryptBytes key (joined blocks)).map List.length := by
  refine decryptBytes_congr key ?_ ?_
  · rw [Block.length_joined, Block.length_joined, List.length_modify]
  · rw [Block.length_joined, show 16 * blocks.length - 32 = 16 * (blocks.length - 2) by omega]
    exact drop_joined_modify change (by omega)

variable {plaintext other : Bytes} {change : Block → Block}

/-- **Everywhere else** the same comes out -/
theorem fromBlock_modify_of_ne (h : j + 2 < blocks.length) (hb : decryptBytes key (joined blocks) = .ok plaintext)
    (hc : decryptBytes key (joined (blocks.modify j change)) = .ok other) (hlength : other.length = plaintext.length)
    {i : Nat} (hnext : i ≠ j) (hself : i + 1 ≠ j) : fromBlock other (i + 1) = fromBlock plaintext (i + 1) := by
  have hne : blocks ≠ [] := List.ne_nil_of_length_pos (by omega)
  have hchanged : blocks.modify j change ≠ [] := List.ne_nil_of_length_pos (by rw [List.length_modify]; omega)
  rw [fromBlock_eq hchanged hc, fromBlock_eq hne hb, Cbc.getElem?_unchain_modify _ _ hnext hself, hlength]

/-- **The block after the changed one** takes over the change as it is -/
theorem fromBlock_modify_next (h : j + 2 < blocks.length) (hb : decryptBytes key (joined blocks) = .ok plaintext)
    {d : Block} (hc : decryptBytes key (joined (blocks.modify j (·.xor d))) = .ok other) :
    ∃ block : Block, fromBlock plaintext (j + 1) = block.toList ∧ fromBlock other (j + 1) = (block.xor d).toList := by
  obtain ⟨previous, hprevious⟩ : ∃ previous, blocks[j]? = some previous := ⟨_, List.getElem?_eq_getElem (by omega)⟩
  obtain ⟨sealed, hsealed⟩ : ∃ sealed, blocks[j + 1]? = some sealed := ⟨_, List.getElem?_eq_getElem (by omega)⟩
  have hself : (blocks.modify j (·.xor d))[j]? = some (previous.xor d) := by
    rw [List.getElem?_modify_eq, hprevious]
    rfl
  have hnext : (blocks.modify j (·.xor d))[j + 1]? = some sealed := by
    rw [List.getElem?_modify_ne _ _ (Nat.lt_succ_self j).ne, hsealed]
  refine ⟨_, fromBlock_eq_toList hb h hprevious hsealed, ?_⟩
  rw [fromBlock_eq_toList hc (by rw [List.length_modify]; exact h) hself hnext, Block.xor_assoc]

/-- behind the block after it nothing is changed -/
theorem drop_modify (h : j + 2 < blocks.length) (hb : decryptBytes key (joined blocks) = .ok plaintext)
    (hc : decryptBytes key (joined (blocks.modify j change)) = .ok other) :
    other.drop (16 * (j + 1)) = plaintext.drop (16 * (j + 1)) := by
  have hlater : decryptBytes key ((joined blocks).drop (16 * (j + 1))) = .ok (plaintext.drop (16 * (j + 1))) :=
    decryptBytes_drop_of_ok (by rw [Block.length_joined]; omega) hb
  have hother : decryptBytes key ((joined (blocks.modify j change)).drop (16 * (j + 1))) =
      .ok (other.drop (16 * (j + 1))) :=
    decryptBytes_drop_of_ok (by rw [Block.length_joined, List.length_modify]; omega) hc
  rw [drop_joined_modify change (Nat.lt_succ_self j), hlater] at hother
  exact (Except.ok.inj hother).symm

end Change

/-- **A change in one block is confined to two.** Let block `j` of a row of whole blocks be changed in the bits of `d`,
where the initial vector is block `0` and block `j` is not one of the last two. Then the changed row decrypts exactly if
the other does, to a plaintext of the same length; if they do not decrypt, the error is the same. What comes from a
block is what it decrypts to, chained to the one before it, as far as the plaintext goes. It is the same in both
plaintexts for all blocks but `j` and the next one, and all of what comes from the next one is changed in the bits of
`d`. If block `j` is the initial vector, this is all that changes. -/
theorem change_confined (key : Key) {blocks : List Block} {j : Nat} (h : j + 2 < blocks.length) (d : Block) :
    match decryptBytes key (joined blocks), decryptBytes key (joined (blocks.modify j (·.xor d))) with
    | .ok plaintext, .ok other =>
      other.length = plaintext.length ∧
      (∀ i previous sealed, blocks[i]? = some previous → blocks[i + 1]? = some sealed →
        fromBlock plaintext (i + 1) =
          ((Aes.decryptBlock (.ofKey key) sealed).xor previous).toList.take (plaintext.length - 16 * i)) ∧
      (∀ i, 1 ≤ i → i ≠ j → i ≠ j + 1 → fromBlock other i = fromBlock plaintext i) ∧
      (∃ block : Block, fromBlock plaintext (j + 1) = block.toList ∧ fromBlock other (j + 1) = (block.xor d).toList) ∧
      (j = 0 → other.drop 16 = plaintext.drop 16)
    | .error error, .error other => other = error
    | _, _ => False := by
  have hsame := decryptBytes_modify key (·.xor d) h
  cases hb : decryptBytes key (joined blocks) with
  | error error =>
    cases hc : decryptBytes key (joined (blocks.modify j (·.xor d))) with
    | error other => rw [hb, hc] at hsame; exact Except.error.inj hsame
    | ok other => rw [hb, hc] at hsame; cases hsame
  | ok plaintext =>
    cases hc : decryptBytes key (joined (blocks.modify j (·.xor d))) with
    | error other => rw [hb, hc] at hsame; cases hsame
    | ok other =>
      rw [hb, hc] at hsame
      have hlength : other.length = plaintext.length := Except.ok.inj hsame
      refine ⟨hlength, ?_, ?_, fromBlock_modify_next h hb hc, ?_⟩
      · intro i previous sealed hprevious hsealed
        exact fromBlock_eq_take hb hprevious hsealed
      · intro i hone hself hnext
        obtain ⟨i, rfl⟩ : ∃ before, i = before + 1 := ⟨i - 1, by omega⟩
        exact fromBlock_modify_of_ne h hb hc hlength (by omega) hself
      · rintro rfl
        exact drop_modify h hb hc

/-- a plaintext of two and a half blocks, the second of which is read off a ciphertext block with one bit of each byte
changed in the block before it -/
theorem change_confined_third :
    let key : Key := .replicate 32 0
    let iv : Block := .replicate 16 0
    let text : Bytes := List.replicate 40 7
    let blocks := iv :: Cbc.encrypt (Aes.encryptBlock (.ofKey key)) iv (wholeBlocks (pad text))
    1 + 2 < blocks.length ∧ decryptBytes key (joined blocks) = .ok text ∧
    ∃ other, decryptBytes key (joined (blocks.modify 1 (·.xor (.replicate 16 1)))) = .ok other ∧
      fromBlock other 2 = List.replicate 16 6 ∧ fromBlock other 3 = List.replicate 8 7 := by
  intro key iv text blocks
  have hsealed : joined blocks = encryptBytes key iv text := rfl
  have hopen : decryptBytes key (joined blocks) = .ok text := decryptBytes_eq_ok.2 ⟨iv, hsealed⟩
  have hlong : 1 + 2 < blocks.length := by
    have hlength := congrArg List.length hsealed
    rw [Block.length_joined, length_encryptBytes, List.length_replicate] at hlength
    omega
  have hchange := change_confined key hlong (.replicate 16 1)
  rw [hopen] at hchange
  refine ⟨hlong, hopen, ?_⟩
  cases hc : decryptBytes key (joined (blocks.modify 1 (·.xor (.replicate 16 1)))) with
  | error error => rw [hc] at hchange; exact hchange.elim
  | ok other =>
    rw [hc] at hchange
    obtain ⟨-, -, helse, ⟨block, hblock, hnext⟩, -⟩ := hchange
    obtain rfl : .replicate 16 7 = block := Vector.toList_inj.1 hblock
    refine ⟨other, rfl, ?_, ?_⟩
    · have hsix : (7 : UInt8) ^^^ 1 = 6 := by decide
      rw [hnext]
      simp [Block.xor, hsix]
    · rw [helse 3 (by omega) (by omega) (by omega)]
      decide

end CbcFile
