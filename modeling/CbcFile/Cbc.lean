/-
Cipher block chaining over whole blocks. `encrypt` XORs each plaintext block with the ciphertext block before it (the
initial vector for the first) and encrypts; `decrypt` decrypts each block and XORs the same block off again. The block
cipher is a parameter.

Main fact: if the two directions of the block cipher undo each other, so do `decrypt` and `encrypt`.
-/
import CbcFile.Block

namespace CbcFile.Cbc

/-- chains plaintext blocks through the block cipher, starting from the initial vector -/
def encrypt (encipher : Block → Block) : Block → List Block → List Block
  | _, [] => []
  | previous, plain :: rest =>
    let sealed := encipher (plain.xor previous)
    sealed :: encrypt encipher sealed rest

/-- unchains ciphertext blocks, starting from the initial vector -/
def decrypt (decipher : Block → Block) : Block → List Block → List Block
  | _, [] => []
  | previous, sealed :: rest => (decipher sealed).xor previous :: decrypt decipher sealed rest

theorem length_decrypt (decipher : Block → Block) (iv : Block) (sealed : List Block) :
    (decrypt decipher iv sealed).length = sealed.length := by
  induction sealed generalizing iv with
  | nil => rfl
  | cons c rest ih => rw [decrypt, List.length_cons, ih, List.length_cons]

theorem decrypt_encrypt {encipher decipher : Block → Block} (h : ∀ b, decipher (encipher b) = b)
    (iv : Block) (plain : List Block) : decrypt decipher iv (encrypt encipher iv plain) = plain := by
  induction plain generalizing iv with
  | nil => rfl
  | cons p rest ih => simp [encrypt, decrypt, h, ih, Block.xor_cancel]

theorem encrypt_decrypt {encipher decipher : Block → Block} (h : ∀ b, encipher (decipher b) = b)
    (iv : Block) (sealed : List Block) : encrypt encipher iv (decrypt decipher iv sealed) = sealed := by
  induction sealed generalizing iv with
  | nil => rfl
  | cons c rest ih => simp [encrypt, decrypt, h, ih, Block.xor_cancel]

end CbcFile.Cbc
