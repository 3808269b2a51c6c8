/-
AES-256 on one block, in both directions. A round is a chain of invertible maps of the block: substitute every byte,
turn the rows, mix the columns, add the round key; the last round does not mix. Decryption undoes them in reverse.

Every map stands beside the one that undoes it, so both directions work with any schedule, whatever key it came from.
-/
import CbcFile.Aes.Schedule

namespace CbcFile.Aes

/-! ## The maps of a round -/

/-- every byte substituted -/
def substituteAll (block : Block) : Block :=
  block.map substitute

/-- undoes `substituteAll` -/
def restoreAll (block : Block) : Block :=
  block.map restore

/-- row `r` turned left by `r` columns -/
def turnRows (block : Block) : Block :=
  Vector.ofFn fun i => block[(i.val + 4 * (i.val % 4)) % 16]

/-- row `r` turned right by `r` columns -/
def turnRowsBack (block : Block) : Block :=
  Vector.ofFn fun i => block[(i.val + 12 * (i.val % 4)) % 16]

/-- the product of one row of coefficients with a column -/
def dot (a b c d : UInt8) (column : Column) : UInt8 :=
  mul a column.b0 ^^^ mul b column.b1 ^^^ mul c column.b2 ^^^ mul d column.b3

/-- a column times the circulant matrix whose first row is given -/
def circulant (a b c d : UInt8) (column : Column) : Column :=
  ⟨dot a b c d column, dot d a b c column, dot c d a b column, dot b c d a column⟩

/-- every column mixed -/
def mixColumns (block : Block) : Block :=
  ofColumns fun j => circulant 2 3 1 1 (column block j)

/-- undoes `mixColumns` -/
def mixColumnsBack (block : Block) : Block :=
  ofColumns fun j => circulant 14 11 13 9 (column block j)

/-! ## The cipher -/

/-- a full round of encryption -/
def fullRound (block roundKey : Block) : Block :=
  (mixColumns (turnRows (substituteAll block))).xor roundKey

/-- undoes `fullRound` -/
def fullRoundBack (roundKey block : Block) : Block :=
  restoreAll (turnRowsBack (mixColumnsBack (block.xor roundKey)))

/-- the last round, which does not mix -/
def lastRound (block roundKey : Block) : Block :=
  (turnRows (substituteAll block)).xor roundKey

/-- undoes `lastRound` -/
def lastRoundBack (roundKey block : Block) : Block :=
  restoreAll (turnRowsBack (block.xor roundKey))

/-- one block encrypted -/
def encryptBlock (schedule : Schedule) (block : Block) : Block :=
  lastRound (schedule.middle.foldl fullRound (block.xor schedule.first)) schedule.last

/-- one block decrypted -/
def decryptBlock (schedule : Schedule) (block : Block) : Block :=
  (schedule.middle.foldr fullRoundBack (lastRoundBack schedule.last block)).xor schedule.first

theorem turnRowsBack_turnRows (block : Block) : turnRowsBack (turnRows block) = block := by
  ext i hi
  have h : (i + 12 * (i % 4) + 4 * ((i + 12 * (i % 4)) % 4)) % 16 = i := by omega
  simp [turnRows, turnRowsBack, h]

theorem turnRows_turnRowsBack (block : Block) : turnRows (turnRowsBack block) = block := by
  ext i hi
  have h : (i + 4 * (i % 4) + 12 * (i % 4)) % 16 = i := by omega
  simp [turnRows, turnRowsBack, h]

end CbcFile.Aes
