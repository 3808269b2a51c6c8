/-
The key schedule of AES-256: fifteen round keys of one block each. The two halves of the key come first; every later
round key is made from the two before it, column by column.

Main facts: a block is its four columns (`column_ofColumns`, `ofColumns_column`).
-/
import CbcFile.Aes.SBox
import CbcFile.Block
import CbcFile.Key

namespace CbcFile.Aes

/-! ## Columns -/

/-- four bytes: a column of the state, or a word of the schedule -/
structure Column where
  b0 : UInt8
  b1 : UInt8
  b2 : UInt8
  b3 : UInt8
deriving DecidableEq, Repr

namespace Column

/-- byte by byte exclusive or -/
def xor (a b : Column) : Column :=
  ⟨a.b0 ^^^ b.b0, a.b1 ^^^ b.b1, a.b2 ^^^ b.b2, a.b3 ^^^ b.b3⟩

/-- the byte in row `r`, of which there are four -/
def row (c : Column) (r : Nat) : UInt8 :=
  match r with
  | 0 => c.b0
  | 1 => c.b1
  | 2 => c.b2
  | _ => c.b3

theorem eq_of_row {a b : Column} (h : ∀ r < 4, a.row r = b.row r) : a = b := by
  cases a
  cases b
  have h0 := h 0 (by omega)
  have h1 := h 1 (by omega)
  have h2 := h 2 (by omega)
  have h3 := h 3 (by omega)
  simp only [row] at h0 h1 h2 h3
  simp [h0, h1, h2, h3]

end Column

/-- column `j` of a block -/
def column (block : Block) (j : Fin 4) : Column :=
  ⟨block[4 * j.val], block[4 * j.val + 1], block[4 * j.val + 2], block[4 * j.val + 3]⟩

/-- the block with these columns -/
def ofColumns (columns : Fin 4 → Column) : Block :=
  Vector.ofFn fun i => (columns ⟨i.val / 4, by omega⟩).row (i.val % 4)

theorem row_column (block : Block) (j : Fin 4) {r : Nat} (h : r < 4) :
    (column block j).row r = block[4 * j.val + r] := by
  match r, h with
  | 0, _ => rfl
  | 1, _ => rfl
  | 2, _ => rfl
  | 3, _ => rfl

theorem column_ofColumns (columns : Fin 4 → Column) (j : Fin 4) : column (ofColumns columns) j = columns j := by
  refine Column.eq_of_row fun r hr => ?_
  have hj : (4 * j.val + r) / 4 = j.val := by omega
  rw [row_column _ _ hr]
  simp [ofColumns, hj, Nat.mod_eq_of_lt hr]

theorem ofColumns_column (block : Block) : ofColumns (column block) = block := by
  ext i hi
  have h : 4 * (i / 4) + i % 4 = i := by omega
  simp [ofColumns, row_column _ _ (Nat.mod_lt i (by omega : 4 > 0)), h]

/-! ## Round keys -/

/-- the round keys: the first and the last stand alone, the others each belong to a full round -/
structure Schedule where
  first : Block
  middle : List Block
  last : Block
deriving DecidableEq, Repr

/-- the round key after `older`, whose columns are chained from `seed` on -/
def chain (older : Block) (seed : Column) : Block :=
  let c0 := seed.xor (column older 0)
  let c1 := c0.xor (column older 1)
  let c2 := c1.xor (column older 2)
  let c3 := c2.xor (column older 3)
  ofColumns fun j => match j.val with
    | 0 => c0
    | 1 => c1
    | 2 => c2
    | _ => c3

/-- the seed of an even round key: the newer key's last column turned, substituted and marked with the round constant -/
def evenSeed (newer : Block) (mark : UInt8) : Column :=
  let word := column newer 3
  ⟨substitute word.b1 ^^^ mark, substitute word.b2, substitute word.b3, substitute word.b0⟩

/-- the seed of an odd round key: the newer key's last column substituted -/
def oddSeed (newer : Block) : Column :=
  let word := column newer 3
  ⟨substitute word.b0, substitute word.b1, substitute word.b2, substitute word.b3⟩

/-- the pairs of round keys for six constants and the single one for the seventh, after `a` and `b` -/
def expand (a b : Block) : List UInt8 → List Block × Block
  | [] => ([], b)
  | [mark] => ([b], chain a (evenSeed b mark))
  | mark :: marks =>
    let even := chain a (evenSeed b mark)
    let odd := chain b (oddSeed even)
    let (middle, last) := expand even odd marks
    (b :: even :: middle, last)

/-- the round constants: the powers of x -/
def marks : List UInt8 :=
  [0x01, 0x02, 0x04, 0x08, 0x10, 0x20, 0x40]

/-- the schedule of a key -/
def Schedule.ofKey (key : Key) : Schedule :=
  let (middle, last) := expand key.left key.right marks
  ⟨key.left, middle, last⟩

end CbcFile.Aes
