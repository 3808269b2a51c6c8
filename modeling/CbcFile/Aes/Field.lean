/-
The field of 256 elements in which AES computes: bytes as polynomials over two elements modulo x^8 + x^4 + x^3 + x + 1.
Addition is XOR, so only multiplication and the inverse are defined here. Multiplying by a byte respects XOR, which is
what makes the column maps of the cipher linear.
-/

namespace CbcFile.Aes

/-- the byte times x -/
def double (b : UInt8) : UInt8 :=
  (b <<< 1) ^^^ (if b &&& 0x80 = 0 then 0 else 0x1B)

/-- adds the shifts of `b` that the low `n` bits of `a` name -/
def mulBits : Nat → UInt8 → UInt8 → UInt8
  | 0, _, _ => 0
  | n + 1, a, b => (if a &&& 1 = 0 then 0 else b) ^^^ mulBits n (a >>> 1) (double b)

/-- the product of two bytes -/
def mul (a b : UInt8) : UInt8 :=
  mulBits 8 a b

/-- the product of the first `n` squarings of `b` -/
def squarings : Nat → UInt8 → UInt8
  | 0, _ => 1
  | n + 1, b => mul (mul b b) (squarings n (mul b b))

/-- the inverse of a byte other than zero, and zero for zero: `b` to the power 254 -/
def inverse (b : UInt8) : UInt8 :=
  squarings 7 b

end CbcFile.Aes
