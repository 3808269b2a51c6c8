/-
Byte strings cut into blocks. Every byte string is the bytes of its whole blocks and a tail shorter than a block
(`blocks_and_tail`), and this cut is the only one (`wholeBlocks_append`). Where the length is a multiple of sixteen there
is no tail (`joined_wholeBlocks`).

The exclusive or over a buffer is the buffer with its first bytes replaced (`xorFirst_eq`); over whole blocks it is that of
the blocks (`xorFirst_toList`).
-/
import Mathlib.Tactic
import CbcFile.Block

namespace CbcFile

namespace Block

/-! ## Joining -/

@[simp] theorem joined_nil : joined [] = [] := rfl

@[simp] theorem joined_cons (b : Block) (rest : List Block) : joined (b :: rest) = b.toList ++ joined rest := rfl

@[simp] theorem joined_append (bs cs : List Block) : joined (bs ++ cs) = joined bs ++ joined cs := by
  simp [joined]

@[simp] theorem length_joined (blocks : List Block) : (joined blocks).length = 16 * blocks.length := by
  induction blocks with
  | nil => rfl
  | cons b rest ih => simp [ih]; omega

theorem joined_injective {bs cs : List Block} (h : joined bs = joined cs) : bs = cs := by
  rw [← wholeBlocks_joined bs, h, wholeBlocks_joined]

/-! ## Cutting -/

theorem ofBytes?_toList (b : Block) : ofBytes? b.toList = some b :=
  ofBytes?_eq_some.2 rfl

theorem ofBytes?_eq_none {bytes : Bytes} : ofBytes? bytes = none ↔ bytes.length ≠ 16 := by
  simp [ofBytes?]

theorem ofBytes?_take_eq_none {bytes : Bytes} : ofBytes? (bytes.take 16) = none ↔ bytes.length < 16 := by
  rw [ofBytes?_eq_none, List.length_take]
  omega

/-- sixteen bytes are a block -/
theorem exists_toList {bytes : Bytes} (h : bytes.length = 16) : ∃ b : Block, b.toList = bytes :=
  ⟨⟨bytes.toArray, by simpa using h⟩, rfl⟩

theorem wholeBlocks_short {bytes : Bytes} (h : bytes.length < 16) : wholeBlocks bytes = [] := by
  have hn : ofBytes? (bytes.take size) = none := by
    rw [ofBytes?_eq_none, List.length_take]
    omega
  rw [wholeBlocks]
  split
  · rfl
  · rename_i hb
    rw [hn] at hb
    cases hb

theorem wholeBlocks_toList_append (b : Block) (rest : Bytes) :
    wholeBlocks (b.toList ++ rest) = b :: wholeBlocks rest := by
  have ht : (b.toList ++ rest).take size = b.toList := List.take_left' (by simp [size])
  have hd : (b.toList ++ rest).drop size = rest := List.drop_left' (by simp [size])
  rw [wholeBlocks]
  split
  · rename_i hn
    rw [ht, ofBytes?_toList] at hn
    cases hn
  · rename_i c hc
    rw [ht, ofBytes?_toList] at hc
    cases hc
    rw [hd]

/-- the cut into blocks and a short tail is the only one -/
theorem wholeBlocks_append (blocks : List Block) {tail : Bytes} (h : tail.length < 16) :
    wholeBlocks (joined blocks ++ tail) = blocks := by
  induction blocks with
  | nil => exact wholeBlocks_short h
  | cons b rest ih => rw [joined_cons, List.append_assoc, wholeBlocks_toList_append, ih]

theorem blocks_and_tail (bytes : Bytes) : ∃ blocks tail, bytes = joined blocks ++ tail ∧ tail.length < 16 := by
  induction hn : bytes.length using Nat.strong_induction_on generalizing bytes with
  | _ n ih =>
    by_cases h : bytes.length < 16
    · exact ⟨[], bytes, rfl, h⟩
    · obtain ⟨b, hb⟩ : ∃ b : Block, b.toList = bytes.take 16 := exists_toList (by rw [List.length_take]; omega)
      obtain ⟨blocks, tail, ht, hl⟩ := ih (bytes.drop 16).length (by rw [List.length_drop]; omega) _ rfl
      refine ⟨b :: blocks, tail, ?_, hl⟩
      rw [joined_cons, List.append_assoc, ← ht, hb, List.take_append_drop]

theorem joined_wholeBlocks {bytes : Bytes} (h : bytes.length % 16 = 0) : joined (wholeBlocks bytes) = bytes := by
  obtain ⟨blocks, tail, rfl, hl⟩ := blocks_and_tail bytes
  have ht : tail = [] := by
    rw [← List.length_eq_zero_iff]
    simp only [List.length_append, length_joined] at h
    omega
  rw [wholeBlocks_append blocks hl, ht, List.append_nil]

/-! ## Exclusive or -/

theorem toList_xor (a b : Block) : (a.xor b).toList = List.zipWith (· ^^^ ·) a.toList b.toList := by
  simp [xor]

end Block

/-- **The exclusive or over a buffer** reaches as far as all three go, and leaves what is behind -/
theorem xorFirst_eq {n m : Nat} {a b out : Bytes} (hm : m = min n (min a.length (min b.length out.length))) :
    xorFirst n a b out = List.zipWith (· ^^^ ·) (a.take m) (b.take m) ++ out.drop m := by
  fun_induction xorFirst n a b out generalizing m with
  | case1 n x a y b z out ih =>
    obtain ⟨k, rfl⟩ : ∃ k, m = k + 1 := ⟨m - 1, by simp only [List.length_cons] at hm; omega⟩
    rw [ih (m := k) (by simp only [List.length_cons] at hm; omega)]
    rfl
  | case2 n a b out h =>
    have hnone : m = 0 := by
      by_contra hc
      obtain ⟨k, hk⟩ := Nat.exists_eq_succ_of_ne_zero (show n ≠ 0 by omega)
      obtain ⟨x, a', ha⟩ := List.exists_cons_of_length_pos (show 0 < a.length by omega)
      obtain ⟨y, b', hb⟩ := List.exists_cons_of_length_pos (show 0 < b.length by omega)
      obtain ⟨z, out', hout⟩ := List.exists_cons_of_length_pos (show 0 < out.length by omega)
      exact h k x a' y b' z out' hk ha hb hout
    rw [hnone]
    rfl

/-- over blocks it is that of the blocks -/
theorem xorFirst_toList (a b : Block) {out : Bytes} (h : out.length = 16) :
    xorFirst Block.size a.toList b.toList out = (a.xor b).toList := by
  have hreach : 16 = min Block.size (min a.toList.length (min b.toList.length out.length)) := by
    rw [Vector.length_toList, Vector.length_toList, h]
    rfl
  rw [xorFirst_eq hreach, List.take_of_length_le (by simp), List.take_of_length_le (by simp),
    List.drop_eq_nil_of_le h.le, List.append_nil, Block.toList_xor]

end CbcFile
