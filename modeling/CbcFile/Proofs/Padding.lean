/-
Padding and its removal. `paddingLength?` folds the differences of all tail bytes into one byte; the fold is zero exactly
when every tail byte is the last one (`foldl_mismatch`), so `n` is recognised exactly in blocks that end in `n` bytes of
value `n` (`paddingLength?_eq_some`). No block does so for two values of `n` (`FilledUp.unique`).

`unpad` is what the end of a decryption does with all plaintext blocks.

Results:
- `padding_recognised_exactly`: which blocks are padded, by how much, and what is left of them without it;
- `unpad_eq_ok`: unpadding accepts exactly the blocks of padded byte strings and gives back what was padded.
-/
import Mathlib.Tactic
import CbcFile.Error
import CbcFile.Padding
import CbcFile.Proofs.Blocks

namespace CbcFile

/-! ## Recognising padding -/

/-- the differences of all bytes folded together vanish exactly when there is no difference -/
theorem foldl_mismatch (last : UInt8) (tail : Bytes) (acc : UInt8) :
    tail.foldl (fun acc b => acc ||| (b ^^^ last)) acc = 0 ↔ acc = 0 ∧ ∀ b ∈ tail, b = last := by
  induction tail generalizing acc with
  | nil => simp
  | cons b rest ih => simp [ih, and_assoc]

theorem getElem_last {block : Block} {x : Bytes} {n : Nat} {v : UInt8} (hn : 1 ≤ n)
    (h : block.toList = x ++ List.replicate n v) : block[15] = v := by
  have hg : block.toList.getLast? = some block[15] := by
    rw [List.getLast?_eq_getElem?]
    simp
  rw [h, List.getLast?_append_of_ne_nil _ (by simp; omega), List.getLast?_replicate] at hg
  rw [if_neg (by omega)] at hg
  exact (Option.some.inj hg).symm

/-- **What counts as padding**: `n` bytes of value `n` at the end, between one and sixteen of them -/
theorem paddingLength?_eq_some {block : Block} {n : Nat} :
    paddingLength? block = some n ↔
      1 ≤ n ∧ n ≤ 16 ∧ ∃ x, x.length = 16 - n ∧ block.toList = x ++ List.replicate n (UInt8.ofNat n) := by
  simp only [paddingLength?, Option.ite_none_left_eq_some, Option.ite_none_right_eq_some, Option.some.injEq,
    foldl_mismatch, true_and, Block.size]
  constructor
  · rintro ⟨hr, ht, rfl⟩
    refine ⟨by omega, by omega, block.toList.take (16 - block[15].toNat), ?_, ?_⟩
    · simp
    · have hl : (block.toList.drop (16 - block[15].toNat)).length = block[15].toNat := by simp; omega
      rw [UInt8.ofNat_toNat, ← List.eq_replicate_iff.2 ⟨hl, ht⟩, List.take_append_drop]
  · rintro ⟨h1, h16, x, hx, hb⟩
    have hv : block[15].toNat = n := by
      rw [getElem_last h1 hb, UInt8.toNat_ofNat', Nat.mod_eq_of_lt (by omega)]
    refine ⟨by omega, ?_, hv⟩
    rw [hv, hb, List.drop_left' hx]
    intro b hm
    rw [List.eq_of_mem_replicate hm, ← hv, UInt8.ofNat_toNat]

/-- the block is `x`, filled up by `n` bytes of value `n`, between one and sixteen of them -/
structure FilledUp (block : Block) (x : Bytes) (n : Nat) : Prop where
  one_le : 1 ≤ n
  le : n ≤ 16
  length : x.length = 16 - n
  bytes : block.toList = x ++ List.replicate n (UInt8.ofNat n)

theorem paddingLength?_iff_filledUp {block : Block} {n : Nat} :
    paddingLength? block = some n ↔ ∃ x, FilledUp block x n := by
  rw [paddingLength?_eq_some]
  constructor
  · rintro ⟨h1, h16, x, hx, hb⟩
    exact ⟨x, h1, h16, hx, hb⟩
  · rintro ⟨x, h1, h16, hx, hb⟩
    exact ⟨h1, h16, x, hx, hb⟩

/-- every byte string shorter than a block can be filled up -/
theorem exists_filledUp {x : Bytes} (h : x.length < 16) : ∃ block, FilledUp block x (16 - x.length) := by
  obtain ⟨block, hb⟩ : ∃ block : Block,
      block.toList = x ++ List.replicate (16 - x.length) (UInt8.ofNat (16 - x.length)) :=
    Block.exists_toList (by simp; omega)
  exact ⟨block, by omega, by omega, by omega, hb⟩

namespace FilledUp

variable {block : Block} {x y : Bytes} {n m : Nat}

/-- what is filled up are the first bytes of the block -/
theorem eq_take (h : FilledUp block x n) : x = block.toList.take (16 - n) := by
  rw [h.bytes, List.take_left' h.length]

/-- **One way only**: a shorter or longer run of equal bytes at the end is no padding -/
theorem unique (h : FilledUp block x n) (h' : FilledUp block y m) : n = m ∧ x = y := by
  have hn := paddingLength?_iff_filledUp.2 ⟨x, h⟩
  have hm := paddingLength?_iff_filledUp.2 ⟨y, h'⟩
  obtain rfl : n = m := Option.some.inj (hn.symm.trans hm)
  exact ⟨rfl, h.eq_take.trans h'.eq_take.symm⟩

end FilledUp

/-- **The padding of a block is recognised exactly.** A padding of length `n` is found exactly if the block is a byte
string filled up by `n` bytes of value `n`, between one and sixteen of them, and none is found for every other block. A
block is filled up in one way at most, so what is left when the padding is taken off is settled: it is the bytes before
it. Every byte string shorter than a block is filled up by the bytes that it lacks, and these are found. -/
theorem padding_recognised_exactly (block : Block) :
    (∀ n, paddingLength? block = some n ↔
      1 ≤ n ∧ n ≤ 16 ∧ ∃ x : Bytes, x.length = 16 - n ∧ block.toList = x ++ List.replicate n (UInt8.ofNat n)) ∧
    (paddingLength? block = none ↔ ∀ x n, ¬ FilledUp block x n) ∧
    (∀ x n, FilledUp block x n → x = block.toList.take (16 - n) ∧ ∀ y m, FilledUp block y m → m = n ∧ y = x) ∧
    ∀ x : Bytes, x.length < 16 → ∃ filled, FilledUp filled x (16 - x.length) ∧
      paddingLength? filled = some (16 - x.length) := by
  refine ⟨fun n => paddingLength?_eq_some, ?_, fun x n h => ⟨h.eq_take, fun y m h' => h'.unique h⟩, fun x hx => ?_⟩
  · rw [Option.eq_none_iff_forall_ne_some]
    constructor
    · intro hnone x n h
      exact hnone n (paddingLength?_iff_filledUp.2 ⟨x, h⟩)
    · intro hnot n hsome
      obtain ⟨x, h⟩ := paddingLength?_iff_filledUp.1 hsome
      exact hnot x n h
  · obtain ⟨filled, h⟩ := exists_filledUp hx
    exact ⟨filled, h, paddingLength?_iff_filledUp.2 ⟨x, h⟩⟩

/-! ## Removing it -/

/-- what plaintext blocks hold before their padding, or why there is none -/
def unpad (plain : List Block) : Except CipherFault Bytes :=
  match plain.getLast? with
  | none => .error .noFinalBlock
  | some last =>
    match paddingLength? last with
    | none => .error .badPadding
    | some n => .ok (Block.joined plain.dropLast ++ last.toList.take (Block.size - n))

theorem unpad_concat (front : List Block) (last : Block) : unpad (front ++ [last]) =
    match paddingLength? last with
    | none => .error .badPadding
    | some n => .ok (Block.joined front ++ last.toList.take (Block.size - n)) := by
  simp [unpad]

theorem length_pad (plaintext : Bytes) : (pad plaintext).length = 16 * (plaintext.length / 16 + 1) := by
  simp only [pad, Block.size, List.length_append, List.length_replicate]
  omega

theorem pad_eq (x : Bytes) {front : List Block} {n : Nat} (h1 : 1 ≤ n) (h16 : n ≤ 16) (hx : x.length = 16 - n) :
    pad (Block.joined front ++ x) = Block.joined front ++ (x ++ List.replicate n (UInt8.ofNat n)) := by
  have hn : Block.size - (Block.joined front ++ x).length % Block.size = n := by
    simp only [Block.size, List.length_append, Block.length_joined]
    omega
  rw [pad, hn, List.append_assoc]

/-- **Unpadding accepts exactly padded byte strings** -/
theorem unpad_eq_ok {plain : List Block} {plaintext : Bytes} :
    unpad plain = .ok plaintext ↔ Block.joined plain = pad plaintext := by
  constructor
  · intro h
    rcases List.eq_nil_or_concat plain with rfl | ⟨front, last, rfl⟩
    · simp [unpad] at h
    · rw [List.concat_eq_append, unpad_concat] at h
      cases hp : paddingLength? last with
      | none => rw [hp] at h; simp at h
      | some n =>
        rw [hp] at h
        obtain ⟨x, hlast⟩ := paddingLength?_iff_filledUp.1 hp
        simp only [Block.size, ← hlast.eq_take, Except.ok.injEq] at h
        rw [← h, pad_eq x hlast.one_le hlast.le hlast.length, ← hlast.bytes]
        simp
  · intro h
    -- the last block begins with what the plaintext has after its whole blocks
    obtain ⟨front, x, rfl, hx⟩ := Block.blocks_and_tail plaintext
    have hp : pad (Block.joined front ++ x) =
        Block.joined front ++ (x ++ List.replicate (16 - x.length) (UInt8.ofNat (16 - x.length))) :=
      pad_eq x (by omega) (by omega) (by omega)
    obtain ⟨last, hlast⟩ := exists_filledUp hx
    have hplain : plain = front ++ [last] := by
      apply Block.joined_injective
      rw [h, hp, ← hlast.bytes]
      simp
    rw [hplain, unpad_concat, paddingLength?_iff_filledUp.2 ⟨x, hlast⟩]
    simp only [Block.size, ← hlast.eq_take]

end CbcFile
