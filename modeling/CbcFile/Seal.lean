/-
The encrypted format, written: an initial vector, then the padded plaintext chained through AES-256. Decryption accepts
nothing else.
-/
import CbcFile.Aes.Cipher
import CbcFile.Cbc
import CbcFile.Padding

namespace CbcFile

/-- encrypts bytes in memory under a key and an initial vector -/
def encryptBytes (key : Key) (iv : Block) (plaintext : Bytes) : Bytes :=
  let schedule := Aes.Schedule.ofKey key
  iv.toList ++ Block.joined (Cbc.encrypt (Aes.encryptBlock schedule) iv (Block.wholeBlocks (pad plaintext)))

end CbcFile
