/-
PKCS#7 padding for blocks of sixteen bytes. `pad` appends between one and sixteen bytes, each holding their number, so
that whole blocks result; `paddingLength?` recognises such a tail in a final block. It looks at every byte of the tail
whatever it finds, so how long it takes does not tell where a mismatch stands.
-/
import CbcFile.Block

namespace CbcFile

/-- the plaintext with the bytes that fill its last block, a block of them if it is full already -/
def pad (plaintext : Bytes) : Bytes :=
  let n := Block.size - plaintext.length % Block.size
  plaintext ++ List.replicate n (UInt8.ofNat n)

/-- how many bytes of padding a final block ends in, if it is padded -/
def paddingLength? (block : Block) : Option Nat :=
  let last := block[15]
  let n := last.toNat
  if n = 0 ∨ Block.size < n then none
  else
    let tail := block.toList.drop (Block.size - n)
    let mismatch := tail.foldl (fun acc b => acc ||| (b ^^^ last)) 0
    if mismatch = 0 then some n else none

theorem paddingLength?_le {block : Block} {n : Nat} (h : paddingLength? block = some n) : 1 ≤ n ∧ n ≤ Block.size := by
  simp only [paddingLength?, Option.ite_none_left_eq_some, Option.ite_none_right_eq_some, Option.some.injEq] at h
  omega

end CbcFile
