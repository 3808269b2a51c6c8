/-
ASCII in UTF-8. A byte below 128 is a character by itself, and no other character is one of the first 128, because the
bytes that begin it and those that follow already spell a larger number (`Beyond`). So the letters that a byte string
begins with can be read off byte by byte:
- `validSpan_ascii`: a byte below 128 is the next letter;
- `validSpan_beyond`: any other byte begins a letter beyond ASCII, or nothing that is text.
-/
import Mathlib.Tactic
import CbcFile.Text.Utf8

namespace CbcFile.Utf8

/-! ## Numbers that are being spelled -/

/-- whatever the bytes still owed are, they finish a character beyond ASCII -/
def Beyond : State → Prop
  | .between => False
  | .inside owed low high value =>
    let unit := 64 ^ (owed - 1)
    let least := (value * 64 + (low.toNat - 128)) * unit
    let most := (value * 64 + (high.toNat - 128)) * unit + (unit - 1)
    (owed = 1 ∨ owed = 2 ∨ owed = 3) ∧ 128 ≤ low.toNat ∧ high.toNat < 192 ∧
      128 ≤ least ∧ (most < 0xD800 ∨ 0xE000 ≤ least) ∧ most < 0x110000

theorem toNat_ofNat_of_beyond {n : Nat} (h : n < 0xD800 ∨ 0xE000 ≤ n) (hmost : n < 0x110000) :
    (Char.ofNat n).toNat = n := by
  have hv : n.isValidChar := by
    rcases h with h | h
    · exact Or.inl h
    · exact Or.inr ⟨by omega, hmost⟩
  have hchar : Char.ofNat n = Char.ofNatAux n hv := dif_pos hv
  rw [hchar]
  rfl

/-- the low bits of a byte are its remainder -/
theorem toNat_and_low (b : UInt8) : (b &&& 0x3F).toNat = b.toNat % 64 ∧ (b &&& 0x1F).toNat = b.toNat % 32 ∧
    (b &&& 0x0F).toNat = b.toNat % 16 ∧ (b &&& 0x07).toNat = b.toNat % 8 := by
  simp only [UInt8.toNat_and]
  exact ⟨Nat.and_two_pow_sub_one_eq_mod b.toNat 6, Nat.and_two_pow_sub_one_eq_mod b.toNat 5,
    Nat.and_two_pow_sub_one_eq_mod b.toNat 4, Nat.and_two_pow_sub_one_eq_mod b.toNat 3⟩

/-- **A byte beyond ASCII** between characters is a stray one, or begins a character beyond ASCII -/
theorem lead_beyond {b : UInt8} (h : 0x7F < b) :
    lead b = ⟨[none], .between⟩ ∨ ∃ state, lead b = ⟨[], state⟩ ∧ Beyond state := by
  obtain ⟨-, h32, h16, h8⟩ := toNat_and_low b
  have hb : 0x7F < b.toNat := UInt8.lt_iff_toNat_lt.1 h
  unfold lead
  rw [if_neg (UInt8.not_le.2 h), h32, h16, h8]
  simp only [UInt8.lt_iff_toNat_lt, UInt8.le_iff_toNat_le, ← UInt8.toNat_inj, UInt8.reduceToNat]
  split_ifs
  · exact Or.inl rfl
  · refine Or.inr ⟨_, rfl, Or.inl rfl, le_refl 128, Nat.lt_add_one 191, ?_⟩
    simp only [Nat.reduceSub, pow_zero, UInt8.reduceToNat]
    omega
  · exact Or.inr ⟨_, rfl, by simp [Beyond]⟩
  · exact Or.inr ⟨_, rfl, by simp [Beyond]⟩
  · refine Or.inr ⟨_, rfl, Or.inr (Or.inl rfl), le_refl 128, Nat.lt_add_one 191, ?_⟩
    simp only [Nat.reduceSub, pow_one, UInt8.reduceToNat]
    omega
  · exact Or.inr ⟨_, rfl, by simp [Beyond]⟩
  · refine Or.inr ⟨_, rfl, Or.inr (Or.inr rfl), le_refl 128, Nat.lt_add_one 191, ?_⟩
    simp only [Nat.reduceSub, Nat.reducePow, UInt8.reduceToNat]
    omega
  · exact Or.inr ⟨_, rfl, by simp [Beyond]⟩
  · exact Or.inl rfl

/-- **A byte that continues** such a character finishes it, or leaves less of it to come -/
theorem step_beyond {owed value : Nat} {low high b : UInt8} (h : Beyond (.inside owed low high value))
    (hb : low ≤ b ∧ b ≤ high) :
    (∃ c, step (.inside owed low high value) b = ⟨[some c], .between⟩ ∧ 128 ≤ c.toNat) ∨
    ∃ state, step (.inside owed low high value) b = ⟨[], state⟩ ∧ Beyond state := by
  obtain ⟨h64, -⟩ := toNat_and_low b
  obtain ⟨howed, hlow, hhigh, hleast, hgap, hmost⟩ := h
  have hl : low.toNat ≤ b.toNat := UInt8.le_iff_toNat_le.1 hb.1
  have hh : b.toNat ≤ high.toNat := UInt8.le_iff_toNat_le.1 hb.2
  have hstep : b.toNat % 64 = b.toNat - 128 := by omega
  simp only [step, if_pos hb, h64, hstep]
  rcases howed with rfl | rfl | rfl
  · refine Or.inl ⟨_, rfl, ?_⟩
    simp only [Nat.sub_self, pow_zero, Nat.mul_one, Nat.add_zero] at hleast hgap hmost
    rw [toNat_ofNat_of_beyond (by omega) (by omega)]
    omega
  · refine Or.inr ⟨_, rfl, Or.inl rfl, le_refl 128, Nat.lt_add_one 191, ?_⟩
    simp only [Nat.add_one_sub_one, Nat.reduceSub, pow_one, pow_zero, UInt8.reduceToNat] at hleast hgap hmost ⊢
    omega
  · refine Or.inr ⟨_, rfl, Or.inr (Or.inl rfl), le_refl 128, Nat.lt_add_one 191, ?_⟩
    simp only [Nat.add_one_sub_one, Nat.reduceSub, pow_one, Nat.reducePow, UInt8.reduceToNat] at hleast hgap hmost ⊢
    omega

/-- what is being spelled comes out broken or as a character beyond ASCII -/
theorem decodeFrom_beyond {state : State} (h : Beyond state) (bytes : Bytes) :
    ∃ piece pieces, decodeFrom state bytes = piece :: pieces ∧ ∀ c ∈ piece, 128 ≤ c.toNat := by
  induction bytes generalizing state with
  | nil =>
    cases state with
    | between => exact h.elim
    | inside owed low high value => exact ⟨none, [], rfl, by simp⟩
  | cons b rest ih =>
    cases state with
    | between => exact h.elim
    | inside owed low high value =>
      by_cases hb : low ≤ b ∧ b ≤ high
      · rcases step_beyond h hb with ⟨c, hstep, hc⟩ | ⟨next, hstep, hnext⟩
        · exact ⟨some c, decodeFrom .between rest, by simp [decodeFrom, hstep], by simpa using hc⟩
        · obtain ⟨piece, pieces, hpieces, hc⟩ := ih hnext
          exact ⟨piece, pieces, by simp [decodeFrom, hstep, hpieces], hc⟩
      · refine ⟨none, (lead b).pieces ++ decodeFrom (lead b).state rest, ?_, by simp⟩
        simp [decodeFrom, step, if_neg hb]

/-- **Bytes that begin beyond ASCII** are broken there, or their first character is beyond ASCII too -/
theorem decode_beyond {b : UInt8} (h : 0x7F < b) (rest : Bytes) :
    ∃ piece pieces, decode (b :: rest) = piece :: pieces ∧ ∀ c ∈ piece, 128 ≤ c.toNat := by
  rcases lead_beyond h with hlead | ⟨state, hlead, hstate⟩
  · exact ⟨none, decode rest, by simp [decode, decodeFrom, step, hlead], by simp⟩
  · obtain ⟨piece, pieces, hpieces, hc⟩ := decodeFrom_beyond hstate rest
    exact ⟨piece, pieces, by simp [decode, decodeFrom, step, hlead, hpieces], hc⟩

/-! ## Letters at the start -/

theorem foldl_utf8Size (chars : List Char) (n : Nat) :
    chars.foldl (fun size c => size + c.utf8Size) n = n + chars.foldl (fun size c => size + c.utf8Size) 0 := by
  induction chars generalizing n with
  | nil => rfl
  | cons c rest ih =>
    rw [List.foldl_cons, List.foldl_cons, ih, ih (0 + c.utf8Size)]
    omega

/-- **A byte below 128** is the next letter -/
theorem validSpan_ascii {b : UInt8} (h : b ≤ 0x7F) (rest : Bytes) :
    validSpan (b :: rest) = (Char.ofNat b.toNat :: (validSpan rest).1, (validSpan rest).2) := by
  have hn : b.toNat ≤ 0x7F := UInt8.le_iff_toNat_le.1 h
  have hc : (Char.ofNat b.toNat).toNat = b.toNat := toNat_ofNat_of_beyond (by omega) (by omega)
  have hsize : (Char.ofNat b.toNat).utf8Size = 1 := by
    rw [Char.utf8Size_eq_one_iff, UInt32.le_iff_toNat_le]
    exact hc.trans_le hn
  simp only [validSpan, decode_ascii h, List.takeWhile_cons, Option.isSome_some, if_true, List.filterMap_cons, id,
    List.foldl_cons]
  rw [foldl_utf8Size, hsize, Nat.zero_add, Nat.add_comm 1, List.drop_succ_cons]

/-- **Any other byte** begins a letter beyond ASCII, or nothing that is text -/
theorem validSpan_beyond {b : UInt8} (h : 0x7F < b) (rest : Bytes) :
    (∃ c chars, (validSpan (b :: rest)).1 = c :: chars ∧ 128 ≤ c.toNat) ∨ validSpan (b :: rest) = ([], b :: rest) := by
  obtain ⟨piece, pieces, hpieces, hc⟩ := decode_beyond h rest
  cases piece with
  | none => exact Or.inr (by simp [validSpan, hpieces])
  | some c => exact Or.inl ⟨c, (pieces.takeWhile Option.isSome).filterMap id, by simp [validSpan, hpieces], hc c rfl⟩

end CbcFile.Utf8
