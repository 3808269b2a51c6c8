/-
Decryption accepts exactly the encrypted format and inverts it. A ciphertext opens exactly if it is a chained padded
plaintext (`opened_eq_ok`), for every block cipher whose two directions undo each other; AES-256 is one of them.

Result:
- `accepts_exactly_encrypted`: a byte string decrypts to a plaintext if and only if it is that plaintext encrypted under
  some initial vector. So every plaintext round-trips, and nothing else is accepted.
-/
import Mathlib.Tactic
import CbcFile.Seal
import CbcFile.Proofs.Aes.Inverse
import CbcFile.Proofs.Stream.Decrypt

namespace CbcFile

open Block (joined wholeBlocks)

/-! ## Chaining -/

/-- **A ciphertext opens exactly if it is a chained padded plaintext** -/
theorem opened_eq_ok {encipher decipher : Block → Block} (hde : ∀ b, decipher (encipher b) = b)
    (hed : ∀ b, encipher (decipher b) = b) (iv : Block) (ciphertext plaintext : Bytes) :
    opened decipher iv ciphertext = .ok plaintext ↔
      ciphertext = joined (Cbc.encrypt encipher iv (wholeBlocks (pad plaintext))) := by
  have hpad : joined (wholeBlocks (pad plaintext)) = pad plaintext :=
    Block.joined_wholeBlocks (by rw [length_pad]; omega)
  constructor
  · intro h
    simp only [opened] at h
    split_ifs at h with hlen
    have hplain : Cbc.decrypt decipher iv (wholeBlocks ciphertext) = wholeBlocks (pad plaintext) := by
      rw [← unpad_eq_ok.1 h, Block.wholeBlocks_joined]
    rw [← hplain, Cbc.encrypt_decrypt hed, Block.joined_wholeBlocks (not_not.1 hlen)]
  · rintro rfl
    have hlen : (joined (Cbc.encrypt encipher iv (wholeBlocks (pad plaintext)))).length % 16 = 0 := by
      rw [Block.length_joined]
      omega
    simp only [opened, hlen, ne_eq, not_true_eq_false, if_false]
    rw [Block.wholeBlocks_joined, Cbc.decrypt_encrypt hde]
    exact unpad_eq_ok.2 hpad

theorem Cbc.length_encrypt (encipher : Block → Block) (iv : Block) (plain : List Block) :
    (Cbc.encrypt encipher iv plain).length = plain.length := by
  induction plain generalizing iv with
  | nil => rfl
  | cons block rest ih => rw [Cbc.encrypt, List.length_cons, ih, List.length_cons]

/-! ## The format -/

/-- the length of encrypted bytes depends on that of the plaintext alone: an initial vector, and a block of padding if
the last block is full -/
theorem length_encryptBytes (key : Key) (iv : Block) (plaintext : Bytes) :
    (encryptBytes key iv plaintext).length = 16 * (plaintext.length / 16 + 2) := by
  have hblocks : 16 * (wholeBlocks (pad plaintext)).length = (pad plaintext).length := by
    rw [← Block.length_joined, Block.joined_wholeBlocks (by rw [length_pad]; omega)]
  rw [encryptBytes, List.length_append, Block.length_joined, Cbc.length_encrypt, hblocks, length_pad,
    Vector.length_toList]
  omega

theorem decryptBytes_eq_ok {key : Key} {bytes plaintext : Bytes} :
    decryptBytes key bytes = .ok plaintext ↔ ∃ iv, bytes = encryptBytes key iv plaintext := by
  have ho := opened_eq_ok (Aes.decryptBlock_encryptBlock (.ofKey key)) (Aes.encryptBlock_decryptBlock (.ofKey key))
  rw [decryptBytes_eq]
  constructor
  · intro h
    cases hiv : Block.ofBytes? (bytes.take 16) with
    | none => rw [hiv] at h; cases h
    | some iv =>
      rw [hiv] at h
      simp only at h
      cases hp : opened (Aes.decryptBlock (.ofKey key)) iv (bytes.drop 16) with
      | error fault => rw [hp] at h; cases h
      | ok opened =>
        rw [hp] at h
        cases h
        refine ⟨iv, ?_⟩
        have hc := (ho iv (bytes.drop 16) plaintext).1 hp
        calc bytes = bytes.take 16 ++ bytes.drop 16 := (List.take_append_drop 16 bytes).symm
          _ = encryptBytes key iv plaintext := by rw [hc, Block.ofBytes?_eq_some.1 hiv]; rfl
  · rintro ⟨iv, rfl⟩
    have ht : (encryptBytes key iv plaintext).take 16 = iv.toList := List.take_left' (by simp)
    have hd : (encryptBytes key iv plaintext).drop 16 =
        joined (Cbc.encrypt (Aes.encryptBlock (.ofKey key)) iv (wholeBlocks (pad plaintext))) :=
      List.drop_left' (by simp)
    rw [ht, hd, Block.ofBytes?_toList]
    simp only
    rw [(ho iv _ plaintext).2 rfl]
    rfl

/-- bytes that decrypt have the length that encryption gives -/
theorem length_of_plaintext {key : Key} {bytes plaintext : Bytes} (h : decryptBytes key bytes = .ok plaintext) :
    bytes.length = 16 * (plaintext.length / 16 + 2) := by
  obtain ⟨iv, rfl⟩ := decryptBytes_eq_ok.1 h
  exact length_encryptBytes key iv plaintext

/-- **Decryption accepts exactly the encrypted format and inverts it.** The block cipher's two directions undo each
other under every key; a byte string decrypts to `plaintext` if and only if it is `plaintext` encrypted under some
initial vector; every plaintext round-trips under every initial vector; and a byte string that no encryption gives is
refused. -/
theorem accepts_exactly_encrypted (key : Key) :
    (∀ block, Aes.decryptBlock (.ofKey key) (Aes.encryptBlock (.ofKey key) block) = block ∧
      Aes.encryptBlock (.ofKey key) (Aes.decryptBlock (.ofKey key) block) = block) ∧
    (∀ bytes plaintext, decryptBytes key bytes = .ok plaintext ↔ ∃ iv, bytes = encryptBytes key iv plaintext) ∧
    (∀ iv plaintext, decryptBytes key (encryptBytes key iv plaintext) = .ok plaintext) ∧
    ∀ bytes, (∀ iv plaintext, bytes ≠ encryptBytes key iv plaintext) → ∃ error, decryptBytes key bytes = .error error := by
  refine ⟨fun block => ⟨Aes.decryptBlock_encryptBlock _ block, Aes.encryptBlock_decryptBlock _ block⟩,
    fun bytes plaintext => decryptBytes_eq_ok, fun iv plaintext => decryptBytes_eq_ok.2 ⟨iv, rfl⟩, fun bytes h => ?_⟩
  cases hr : decryptBytes key bytes with
  | error error => exact ⟨error, rfl⟩
  | ok plaintext =>
    obtain ⟨iv, hiv⟩ := decryptBytes_eq_ok.1 hr
    exact absurd hiv (h iv plaintext)

end CbcFile
