/-
The byte substitution of AES: the inverse in the field, then an affine map of the bits. Both directions are kept as
tables of 256 bytes, computed once from the definition.
-/
import CbcFile.Aes.Field

namespace CbcFile.Aes

/-- a byte turned left by `n` bits -/
def rotate (b : UInt8) (n : UInt8) : UInt8 :=
  (b <<< n) ||| (b >>> (8 - n))

/-- the affine map of the substitution -/
def affine (b : UInt8) : UInt8 :=
  b ^^^ rotate b 1 ^^^ rotate b 2 ^^^ rotate b 3 ^^^ rotate b 4 ^^^ 0x63

/-- the affine map that undoes `affine` -/
def affineBack (b : UInt8) : UInt8 :=
  rotate b 1 ^^^ rotate b 3 ^^^ rotate b 6 ^^^ 0x05

/-- a function on bytes as a table -/
def tabulate (f : UInt8 → UInt8) : Vector UInt8 256 :=
  Vector.ofFn fun i => f (UInt8.ofNat i)

/-- the table's entry for a byte -/
def look (table : Vector UInt8 256) (b : UInt8) : UInt8 :=
  have h : b.toNat < 256 := UInt8.toNat_lt b
  table[b.toNat]

theorem look_tabulate (f : UInt8 → UInt8) (b : UInt8) : look (tabulate f) b = f b := by
  simp [look, tabulate]

/-- the substitution as a table -/
def substituteTable : Vector UInt8 256 :=
  tabulate fun b => affine (inverse b)

/-- its inverse as a table -/
def restoreTable : Vector UInt8 256 :=
  tabulate fun b => inverse (affineBack b)

/-- the substitution of one byte -/
def substitute (b : UInt8) : UInt8 :=
  look substituteTable b

/-- undoes `substitute` -/
def restore (b : UInt8) : UInt8 :=
  look restoreTable b

theorem substitute_eq (b : UInt8) : substitute b = affine (inverse b) :=
  look_tabulate _ b

theorem restore_eq (b : UInt8) : restore b = inverse (affineBack b) :=
  look_tabulate _ b

end CbcFile.Aes
