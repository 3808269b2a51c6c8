/-
The two directions of AES-256 undo each other, under every key schedule.

The byte substitution and its inverse are checked on all 256 bytes. Mixing is linear, so a product of two circulant
matrices is the identity as soon as the first row of the one gives it on columns with a single byte; that too is a check
of 256 bytes. Products of bytes are computed on their numbers in these checks, where the kernel does the arithmetic
itself (`toNat_mul`).

Results:
- `restore_substitute`, `substitute_restore`: the two tables are inverse;
- `unmix_mix`, `mix_unmix`: so are the two matrices;
- `decryptBlock_encryptBlock`, `encryptBlock_decryptBlock`: so are the two directions of the cipher.
-/
import Mathlib.Tactic
import Mathlib.Data.Nat.Bitwise
import CbcFile.Aes.Cipher

namespace CbcFile.Aes

/-! ## The field in numbers -/

/-- `double` on the number of a byte -/
def doubleNat (n : Nat) : Nat :=
  cond (n.blt 128) (2 * n) ((2 * n - 256).xor 27)

/-- `mulBits` on the numbers of two bytes -/
def mulBitsNat : Nat → Nat → Nat → Nat
  | 0, _, _ => 0
  | k + 1, m, n => (cond ((m % 2).beq 0) 0 n).xor (mulBitsNat k (m / 2) (doubleNat n))

/-- `mul` on the numbers of two bytes -/
def mulNat (m n : Nat) : Nat :=
  mulBitsNat 8 m n

/-- `squarings` on the number of a byte -/
def squaringsNat : Nat → Nat → Nat
  | 0, _ => 1
  | k + 1, n => mulNat (mulNat n n) (squaringsNat k (mulNat n n))

/-- `dot` on the numbers of a column's bytes -/
def dotNat (p q r s : UInt8) (w x y z : Nat) : Nat :=
  (((mulNat p.toNat w).xor (mulNat q.toNat x)).xor (mulNat r.toNat y)).xor (mulNat s.toNat z)

/-- a fact about every byte, from a check of the numbers below 256 -/
theorem forall_byte {p : UInt8 → Prop} (h : ∀ n < 256, p (UInt8.ofNat n)) (b : UInt8) : p b := by
  have hb := h b.toNat (UInt8.toNat_lt b)
  rwa [UInt8.ofNat_toNat] at hb

theorem high_bit (b : UInt8) : b &&& 0x80 = if b.toNat < 128 then 0 else 0x80 := by
  have hb := UInt8.toNat_lt b
  have h : b.toNat &&& 2 ^ 7 = (b.toNat.testBit 7).toNat * 2 ^ 7 := Nat.and_two_pow b.toNat 7
  rw [Nat.testBit_eq_decide_div_mod_eq] at h
  rw [← UInt8.toNat_inj, UInt8.toNat_and]
  split_ifs with hlow
  · rw [show b.toNat / 2 ^ 7 = 0 by omega] at h
    exact h
  · rw [show b.toNat / 2 ^ 7 = 1 by omega] at h
    exact h

theorem toNat_double (b : UInt8) : (double b).toNat = doubleNat b.toNat := by
  have hb := UInt8.toNat_lt b
  have hshift : (b <<< 1).toNat = 2 * b.toNat % 256 := by
    rw [UInt8.toNat_shiftLeft, mul_comm]
    exact congrArg (· % 256) (Nat.shiftLeft_eq _ 1)
  rw [double, UInt8.toNat_xor, hshift, high_bit, doubleNat]
  by_cases hlow : b.toNat < 128
  · have hblt : b.toNat.blt 128 = true := by simpa using hlow
    rw [if_pos hlow, if_pos rfl, hblt, Nat.mod_eq_of_lt (by omega)]
    exact Nat.xor_zero _
  · have hblt : b.toNat.blt 128 = false := Bool.eq_false_iff.2 fun hc => hlow (by simpa using hc)
    rw [if_neg hlow, if_neg (by decide), hblt, show 2 * b.toNat % 256 = 2 * b.toNat - 256 by omega]
    rfl

theorem toNat_half (b : UInt8) : (b >>> 1).toNat = b.toNat / 2 := by
  rw [UInt8.toNat_shiftRight]
  exact Nat.shiftRight_eq_div_pow _ 1

theorem low_bit (b : UInt8) : b &&& 1 = 0 ↔ (b.toNat % 2).beq 0 = true := by
  rw [← UInt8.toNat_inj, UInt8.toNat_and, Nat.beq_eq]
  exact Iff.of_eq (congrArg (· = 0) (Nat.and_one_is_mod b.toNat))

theorem toNat_mulBits (k : Nat) (a b : UInt8) : (mulBits k a b).toNat = mulBitsNat k a.toNat b.toNat := by
  induction k generalizing a b with
  | zero => rfl
  | succ k ih =>
    rw [mulBits, mulBitsNat, UInt8.toNat_xor, ih, toNat_half, toNat_double]
    congr 1
    split_ifs with h
    · rw [(low_bit a).1 h]; rfl
    · rw [Bool.eq_false_iff.2 (mt (low_bit a).2 h)]; rfl

theorem toNat_mul (a b : UInt8) : (mul a b).toNat = mulNat a.toNat b.toNat :=
  toNat_mulBits 8 a b

theorem toNat_squarings (k : Nat) (b : UInt8) : (squarings k b).toNat = squaringsNat k b.toNat := by
  induction k generalizing b with
  | zero => rfl
  | succ k ih => rw [squarings, squaringsNat, toNat_mul, ih, toNat_mul]

theorem toNat_dot (p q r s : UInt8) (w : Column) :
    (dot p q r s w).toNat = dotNat p q r s w.b0.toNat w.b1.toNat w.b2.toNat w.b3.toNat := by
  simp only [dot, UInt8.toNat_xor, toNat_mul]
  rfl

/-! ## The substitution -/

theorem inverse_inverse (b : UInt8) : inverse (inverse b) = b := by
  have check : ∀ n < 256, squaringsNat 7 (squaringsNat 7 n) = n := by decide +kernel
  rw [← UInt8.toNat_inj, inverse, toNat_squarings, inverse, toNat_squarings]
  exact check b.toNat (UInt8.toNat_lt b)

theorem affine_inverse : ∀ b, affineBack (affine b) = b ∧ affine (affineBack b) = b :=
  forall_byte (by decide +kernel)

theorem restore_substitute (b : UInt8) : restore (substitute b) = b := by
  rw [restore_eq, substitute_eq, (affine_inverse _).1, inverse_inverse]

theorem substitute_restore (b : UInt8) : substitute (restore b) = b := by
  rw [substitute_eq, restore_eq, inverse_inverse, (affine_inverse _).2]

/-! ## Multiplication respects XOR -/

theorem top_bit (b : UInt8) : b &&& 0x80 = 0 ∨ b &&& 0x80 = 0x80 := by
  rw [high_bit]
  split_ifs
  · exact Or.inl rfl
  · exact Or.inr rfl

theorem xor_and (x y m : UInt8) : (x ^^^ y) &&& m = (x &&& m) ^^^ (y &&& m) := by
  apply UInt8.toBitVec_inj.1
  ext i hi
  simp [Bool.and_xor_distrib_right]

theorem double_xor (x y : UInt8) : double (x ^^^ y) = double x ^^^ double y := by
  unfold double
  rw [UInt8.shiftLeft_xor, xor_and]
  -- the carries of two bytes that both lose their top bit cancel
  have hcarry : (0x1B : UInt8) ^^^ 0x1B = 0 := by decide
  rcases top_bit x with hx | hx <;> rcases top_bit y with hy | hy <;> rw [hx, hy] <;> simp
  · ac_rfl
  · ac_rfl
  · rw [← UInt8.xor_zero (a := x <<< 1 ^^^ y <<< 1), ← hcarry]; ac_rfl

theorem mulBits_xor (k : Nat) (a x y : UInt8) : mulBits k a (x ^^^ y) = mulBits k a x ^^^ mulBits k a y := by
  induction k generalizing a x y with
  | zero => simp [mulBits]
  | succ n ih =>
    simp only [mulBits, double_xor, ih]
    split_ifs
    · simp
    · ac_rfl

theorem mul_xor (a x y : UInt8) : mul a (x ^^^ y) = mul a x ^^^ mul a y :=
  mulBits_xor 8 a x y

/-! ## Mixing -/

/-- a column turned up by one row -/
def Column.turn (w : Column) : Column := ⟨w.b1, w.b2, w.b3, w.b0⟩

section Circulant

variable {a b c d p q r s : UInt8}

/-- every row of a circulant matrix is its first row on a turned column -/
theorem circulant_eq (w : Column) : circulant p q r s w =
    ⟨dot p q r s w, dot p q r s w.turn, dot p q r s w.turn.turn, dot p q r s w.turn.turn.turn⟩ := by
  simp only [circulant, dot, Column.turn, Column.mk.injEq, true_and]
  refine ⟨?_, ?_, ?_⟩ <;> ac_rfl

theorem circulant_turn (w : Column) : circulant p q r s w.turn = (circulant p q r s w).turn := by
  simp only [circulant_eq, Column.turn]

theorem circulant_circulant (h : ∀ w, dot p q r s (circulant a b c d w) = w.b0) (w : Column) :
    circulant p q r s (circulant a b c d w) = w := by
  rw [circulant_eq, ← circulant_turn, ← circulant_turn, ← circulant_turn, h, h, h, h]
  rfl

/-- what the first row `p q r s` makes of the columns of the matrix `a b c d`, all times the byte `n` -/
def FirstRowUndoes (p q r s a b c d : UInt8) (n : Nat) : Prop :=
  dotNat p q r s (mulNat a.toNat n) (mulNat d.toNat n) (mulNat c.toNat n) (mulNat b.toNat n) = n ∧
  dotNat p q r s (mulNat b.toNat n) (mulNat a.toNat n) (mulNat d.toNat n) (mulNat c.toNat n) = 0 ∧
  dotNat p q r s (mulNat c.toNat n) (mulNat b.toNat n) (mulNat a.toNat n) (mulNat d.toNat n) = 0 ∧
  dotNat p q r s (mulNat d.toNat n) (mulNat c.toNat n) (mulNat b.toNat n) (mulNat a.toNat n) = 0

instance (n : Nat) : Decidable (FirstRowUndoes p q r s a b c d n) := by
  unfold FirstRowUndoes; infer_instance

theorem dot_mul (k0 k1 k2 k3 x : UInt8) : (dot p q r s ⟨mul k0 x, mul k1 x, mul k2 x, mul k3 x⟩).toNat =
    dotNat p q r s (mulNat k0.toNat x.toNat) (mulNat k1.toNat x.toNat) (mulNat k2.toNat x.toNat)
      (mulNat k3.toNat x.toNat) := by
  simp only [toNat_dot, toNat_mul]

theorem dot_circulant (h : ∀ n < 256, FirstRowUndoes p q r s a b c d n) (w : Column) :
    dot p q r s (circulant a b c d w) = w.b0 := by
  have h0 : dot p q r s ⟨mul a w.b0, mul d w.b0, mul c w.b0, mul b w.b0⟩ = w.b0 :=
    UInt8.toNat_inj.1 ((dot_mul a d c b w.b0).trans (h _ (UInt8.toNat_lt w.b0)).1)
  have h1 : dot p q r s ⟨mul b w.b1, mul a w.b1, mul d w.b1, mul c w.b1⟩ = 0 :=
    UInt8.toNat_inj.1 ((dot_mul b a d c w.b1).trans (h _ (UInt8.toNat_lt w.b1)).2.1)
  have h2 : dot p q r s ⟨mul c w.b2, mul b w.b2, mul a w.b2, mul d w.b2⟩ = 0 :=
    UInt8.toNat_inj.1 ((dot_mul c b a d w.b2).trans (h _ (UInt8.toNat_lt w.b2)).2.2.1)
  have h3 : dot p q r s ⟨mul d w.b3, mul c w.b3, mul b w.b3, mul a w.b3⟩ = 0 :=
    UInt8.toNat_inj.1 ((dot_mul d c b a w.b3).trans (h _ (UInt8.toNat_lt w.b3)).2.2.2)
  calc dot p q r s (circulant a b c d w)
      = dot p q r s ⟨mul a w.b0, mul d w.b0, mul c w.b0, mul b w.b0⟩ ^^^
        dot p q r s ⟨mul b w.b1, mul a w.b1, mul d w.b1, mul c w.b1⟩ ^^^
        dot p q r s ⟨mul c w.b2, mul b w.b2, mul a w.b2, mul d w.b2⟩ ^^^
        dot p q r s ⟨mul d w.b3, mul c w.b3, mul b w.b3, mul a w.b3⟩ := by
        simp only [dot, circulant, mul_xor]
        ac_rfl
    _ = w.b0 := by simp [h0, h1, h2, h3]

end Circulant

theorem unmix_mix : ∀ w, circulant 14 11 13 9 (circulant 2 3 1 1 w) = w :=
  circulant_circulant (dot_circulant (by decide +kernel))

theorem mix_unmix : ∀ w, circulant 2 3 1 1 (circulant 14 11 13 9 w) = w :=
  circulant_circulant (dot_circulant (by decide +kernel))

/-! ## Rounds -/

theorem restoreAll_substituteAll (block : Block) : restoreAll (substituteAll block) = block := by
  ext i hi
  simp [restoreAll, substituteAll, restore_substitute]

theorem substituteAll_restoreAll (block : Block) : substituteAll (restoreAll block) = block := by
  ext i hi
  simp [restoreAll, substituteAll, substitute_restore]

theorem mixColumnsBack_mixColumns (block : Block) : mixColumnsBack (mixColumns block) = block := by
  simp only [mixColumnsBack, mixColumns, column_ofColumns, unmix_mix]
  exact ofColumns_column block

theorem mixColumns_mixColumnsBack (block : Block) : mixColumns (mixColumnsBack block) = block := by
  simp only [mixColumnsBack, mixColumns, column_ofColumns, mix_unmix]
  exact ofColumns_column block

theorem fullRoundBack_fullRound (block roundKey : Block) : fullRoundBack roundKey (fullRound block roundKey) = block := by
  rw [fullRoundBack, fullRound, Block.xor_cancel, mixColumnsBack_mixColumns, turnRowsBack_turnRows,
    restoreAll_substituteAll]

theorem fullRound_fullRoundBack (block roundKey : Block) : fullRound (fullRoundBack roundKey block) roundKey = block := by
  rw [fullRoundBack, fullRound, substituteAll_restoreAll, turnRows_turnRowsBack, mixColumns_mixColumnsBack,
    Block.xor_cancel]

theorem lastRoundBack_lastRound (block roundKey : Block) : lastRoundBack roundKey (lastRound block roundKey) = block := by
  rw [lastRoundBack, lastRound, Block.xor_cancel, turnRowsBack_turnRows, restoreAll_substituteAll]

theorem lastRound_lastRoundBack (block roundKey : Block) : lastRound (lastRoundBack roundKey block) roundKey = block := by
  rw [lastRoundBack, lastRound, substituteAll_restoreAll, turnRows_turnRowsBack, Block.xor_cancel]

/-- the full rounds undone in reverse -/
theorem foldr_foldl_fullRound (roundKeys : List Block) (block : Block) :
    roundKeys.foldr fullRoundBack (roundKeys.foldl fullRound block) = block := by
  induction roundKeys generalizing block with
  | nil => rfl
  | cons k rest ih => rw [List.foldl_cons, List.foldr_cons, ih, fullRoundBack_fullRound]

theorem foldl_foldr_fullRoundBack (roundKeys : List Block) (block : Block) :
    roundKeys.foldl fullRound (roundKeys.foldr fullRoundBack block) = block := by
  induction roundKeys generalizing block with
  | nil => rfl
  | cons k rest ih => rw [List.foldr_cons, List.foldl_cons, fullRound_fullRoundBack, ih]

/-! ## The cipher -/

/-- **Decryption undoes encryption**, under every schedule -/
theorem decryptBlock_encryptBlock (schedule : Schedule) (block : Block) :
    decryptBlock schedule (encryptBlock schedule block) = block := by
  rw [decryptBlock, encryptBlock, lastRoundBack_lastRound, foldr_foldl_fullRound, Block.xor_cancel]

/-- **Encryption undoes decryption**, under every schedule -/
theorem encryptBlock_decryptBlock (schedule : Schedule) (block : Block) :
    encryptBlock schedule (decryptBlock schedule block) = block := by
  rw [decryptBlock, encryptBlock, Block.xor_cancel, foldl_foldr_fullRoundBack, lastRound_lastRoundBack]

end CbcFile.Aes
