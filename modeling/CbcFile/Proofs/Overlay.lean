/-
The exclusive or over a buffer reaches as far as a block and all three byte strings do, and no further. The place where
it stops is the length of the shortest, whichever of the three that is.

- `xorAt_of_lt`, `xorAt_end`: one place, when all three have it and when it is the first that one of them lacks;
- `XoredUpTo`: the first places hold the exclusive or, and the others what they held before. One place more keeps this
  (`XoredUpTo.next`), so does every row of places (`xorFrom_stops`), and only one buffer is like this
  (`XoredUpTo.unique`).

Results:
- `xorOver_eq_xorInto`, `Checked.xorBlocks_eq`: what is computed place after place is what is given at once elsewhere;
- `xorOver_writes_common_places`: what is written, what is not, which bound is overrun and when, and that it undoes
  itself.
-/
import Mathlib.Tactic
import CbcFile.Overlay
import CbcFile.Proofs.Blocks

namespace CbcFile

/-! ## One place -/

section Place

variable {a b buffer : Bytes} {place : Nat}

/-- a place that all three have -/
theorem xorAt_of_lt (ha : place < a.length) (hb : place < b.length) (hbuffer : place < buffer.length) :
    xorAt a b place buffer = .ok (buffer.set place (a[place] ^^^ b[place])) := by
  rw [xorAt, Checked.byteAt_of_lt ha, Checked.ok_bind, Checked.byteAt_of_lt hb, Checked.ok_bind,
    Checked.putByte_of_lt hbuffer]

/-- **The first place that one of the three lacks**: whichever of them is found to end there is as long as the shortest -/
theorem xorAt_end (hplace : place = min a.length (min b.length buffer.length)) :
    xorAt a b place buffer = .error (.outside place place) := by
  rcases (show place ≤ a.length by omega).eq_or_lt with rfl | ha
  · rw [xorAt, Checked.byteAt_length, Checked.error_bind]
  rcases (show place ≤ b.length by omega).eq_or_lt with rfl | hb
  · rw [xorAt, Checked.byteAt_of_lt ha, Checked.ok_bind, Checked.byteAt_length, Checked.error_bind]
  obtain rfl : place = buffer.length := by omega
  rw [xorAt, Checked.byteAt_of_lt ha, Checked.ok_bind, Checked.byteAt_of_lt hb, Checked.ok_bind, Checked.putByte_length]

end Place

/-! ## The places before -/

/-- the first places hold the exclusive or of the operands, and the others what they held before -/
structure XoredUpTo (a b out : Bytes) (place : Nat) (buffer : Bytes) : Prop where
  length : buffer.length = out.length
  done : ∀ i < place, ∃ x y, a[i]? = some x ∧ b[i]? = some y ∧ buffer[i]? = some (x ^^^ y)
  rest : ∀ i, place ≤ i → buffer[i]? = out[i]?

namespace XoredUpTo

variable {a b out buffer other : Bytes} {place : Nat}

theorem start (a b out : Bytes) : XoredUpTo a b out 0 out :=
  ⟨rfl, fun _ hi => absurd hi (Nat.not_lt_zero _), fun _ _ => rfl⟩

/-- **One place more** -/
theorem next (h : XoredUpTo a b out place buffer) (ha : place < a.length) (hb : place < b.length)
    (hout : place < out.length) : XoredUpTo a b out (place + 1) (buffer.set place (a[place] ^^^ b[place])) := by
  have hbuffer : place < buffer.length := by rw [h.length]; exact hout
  refine ⟨by rw [List.length_set, h.length], ?_, ?_⟩
  · intro i hi
    rcases (Nat.le_of_lt_succ hi).eq_or_lt with rfl | hlt
    · exact ⟨a[i], b[i], List.getElem?_eq_getElem ha, List.getElem?_eq_getElem hb, List.getElem?_set_self hbuffer⟩
    · obtain ⟨x, y, hx, hy, hxy⟩ := h.done i hlt
      exact ⟨x, y, hx, hy, by rw [List.getElem?_set_ne hlt.ne', hxy]⟩
  · intro i hi
    rw [List.getElem?_set_ne (by omega), h.rest i (by omega)]

/-- no other buffer is like this -/
theorem unique (h : XoredUpTo a b out place buffer) (h' : XoredUpTo a b out place other) : buffer = other := by
  apply List.ext_getElem?
  intro i
  rcases lt_or_ge i place with hi | hi
  · obtain ⟨x, y, hx, hy, hxy⟩ := h.done i hi
    obtain ⟨x', y', hx', hy', hxy'⟩ := h'.done i hi
    obtain rfl : x = x' := Option.some.inj (hx.symm.trans hx')
    obtain rfl : y = y' := Option.some.inj (hy.symm.trans hy')
    rw [hxy, hxy']
  · rw [h.rest i hi, h'.rest i hi]

theorem swap (h : XoredUpTo a b out place buffer) : XoredUpTo b a out place buffer := by
  refine ⟨h.length, ?_, h.rest⟩
  intro i hi
  obtain ⟨x, y, hx, hy, hxy⟩ := h.done i hi
  exact ⟨y, x, hy, hx, by rw [hxy, UInt8.xor_comm]⟩

/-- the first places written anew, and then the buffer as it was -/
theorem of_append {front : Bytes} (hfront : front.length = place) (hout : place ≤ out.length)
    (hdone : ∀ i < place, ∃ x y, a[i]? = some x ∧ b[i]? = some y ∧ front[i]? = some (x ^^^ y)) :
    XoredUpTo a b out place (front ++ out.drop place) := by
  refine ⟨?_, ?_, ?_⟩
  · rw [List.length_append, hfront, List.length_drop]
    omega
  · intro i hi
    rw [List.getElem?_append_left (by omega)]
    exact hdone i hi
  · intro i hi
    rw [List.getElem?_append_right (by omega), hfront, List.getElem?_drop, Nat.add_sub_of_le hi]

/-- **The exclusive or undoes itself**: with what it gave in place of one operand, that operand comes back -/
theorem undo (h : XoredUpTo a b out place buffer) {again : Bytes} (ha : place ≤ a.length)
    (hagain : place ≤ again.length) : XoredUpTo buffer b again place (a.take place ++ again.drop place) := by
  have htake : (a.take place).length = place := by rw [List.length_take, min_eq_left ha]
  apply of_append htake hagain
  intro i hi
  obtain ⟨x, y, hx, hy, hxy⟩ := h.done i hi
  refine ⟨x ^^^ y, y, hxy, hy, ?_⟩
  rw [List.getElem?_take_of_lt hi, hx, UInt8.xor_assoc, UInt8.xor_self, UInt8.xor_zero]

/-- what `xorInto` leaves is like this, as far as all three reach -/
theorem of_xorInto (a b out : Bytes) :
    XoredUpTo a b out (min Block.size (min a.length (min b.length out.length))) (xorInto a b out).buffer := by
  generalize hm : min Block.size (min a.length (min b.length out.length)) = m
  have hzip : (List.zipWith (· ^^^ ·) (a.take m) (b.take m)).length = m := by
    simp only [List.length_zipWith, List.length_take]
    omega
  rw [xorInto, xorFirst_eq hm.symm]
  apply of_append hzip (by omega)
  intro i hi
  have ha : i < a.length := by omega
  have hb : i < b.length := by omega
  refine ⟨a[i], b[i], List.getElem?_eq_getElem ha, List.getElem?_eq_getElem hb, ?_⟩
  rw [List.getElem?_zipWith, List.getElem?_take_of_lt hi, List.getElem?_take_of_lt hi, List.getElem?_eq_getElem ha,
    List.getElem?_eq_getElem hb]

end XoredUpTo

/-! ## All places -/

section Run

variable {a b out buffer : Bytes} {place m : Nat}

/-- **Place after place**, until a block is done or one of the three ends -/
theorem xorFrom_stops (hm : m = min Block.size (min a.length (min b.length out.length)))
    (h : XoredUpTo a b out place buffer) (hle : place ≤ m) :
    XoredUpTo a b out m (xorFrom a b place buffer).buffer ∧
      (xorFrom a b place buffer).overrun? = if m < Block.size then some (.outside m m) else none := by
  -- the induction is on the places left; the first place that is missing is `m`, where nothing more is put
  have hlength := h.length
  fun_induction xorFrom a b place buffer with
  | case1 place buffer hplace next hxor ih =>
    rcases hle.eq_or_lt with rfl | hlt
    · rw [xorAt_end (by omega)] at hxor
      cases hxor
    · have ha : place < a.length := by omega
      have hb : place < b.length := by omega
      rw [xorAt_of_lt ha hb (by omega)] at hxor
      cases hxor
      have hnext := h.next ha hb (by omega)
      exact ih hnext hlt hnext.length
  | case2 place buffer hplace overrun hxor =>
    rcases hle.eq_or_lt with rfl | hlt
    · rw [xorAt_end (by omega)] at hxor
      cases hxor
      exact ⟨h, (if_pos hplace).symm⟩
    · rw [xorAt_of_lt (by omega) (by omega) (by omega)] at hxor
      cases hxor
  | case3 place buffer hplace =>
    obtain rfl : place = m := by omega
    exact ⟨h, (if_neg hplace).symm⟩

/-- what the whole run leaves is told by which places are done -/
theorem xorOver_eq_of_xoredUpTo (hm : m = min Block.size (min a.length (min b.length out.length)))
    (h : XoredUpTo a b out m buffer) :
    xorOver a b out = ⟨buffer, if m < Block.size then some (.outside m m) else none⟩ := by
  obtain ⟨hdone, hoverrun⟩ := xorFrom_stops hm (.start a b out) (Nat.zero_le m)
  rw [xorOver, h.unique hdone, ← hoverrun]

/-- the place that `xorInto` tells is where it stops -/
theorem missing?_xorInto (hm : m = min Block.size (min a.length (min b.length out.length))) :
    (xorInto a b out).missing? = if m < Block.size then some m else none := by
  simp only [xorInto]
  rcases le_or_gt Block.size (min a.length (min b.length out.length)) with hfull | hshort
  · rw [if_neg hfull.not_gt, if_neg (by omega)]
  · rw [if_pos hshort, if_pos (by omega), hm, min_eq_right hshort.le]

end Run

/-- **Place after place or at once** is the same -/
theorem xorOver_eq_xorInto (a b out : Bytes) :
    xorOver a b out =
      ⟨(xorInto a b out).buffer, (xorInto a b out).missing?.map fun place => .outside place place⟩ := by
  rw [xorOver_eq_of_xoredUpTo rfl (.of_xorInto a b out), missing?_xorInto rfl]
  split <;> rfl

/-- a checked exclusive or of blocks is this one, with the buffer dropped where a bound is overrun -/
theorem Checked.xorBlocks_eq (a b out : Bytes) :
    xorBlocks a b out =
      match (xorOver a b out).overrun? with
      | none => .ok (xorOver a b out).buffer
      | some overrun => .error overrun := by
  rw [xorOver_eq_xorInto, xorBlocks]
  cases (xorInto a b out).missing? <;> rfl

/-- **The exclusive or over a buffer is written at the common places, and nowhere else.** Let `m` be sixteen, or the
length of the shortest of the two operands and the buffer if that is less. Afterwards, whether a bound was overrun or
not, every place of the buffer below `m` holds the exclusive or of the two bytes at this place, and every other place what
it held before. A bound is overrun exactly if `m` is below sixteen, and it is place `m` of a byte string of length `m`. If
`m` is sixteen, the exclusive or of the result and the second operand, over any buffer that is long enough, brings back the
first sixteen bytes of the first operand. It makes no difference which operand comes first, and it all is what `xorInto`
gives. -/
theorem xorOver_writes_common_places (a b out : Bytes) :
    let m := min 16 (min a.length (min b.length out.length))
    let left := xorOver a b out
    left.buffer.length = out.length ∧
    (∀ i < m, ∃ x y, a[i]? = some x ∧ b[i]? = some y ∧ left.buffer[i]? = some (x ^^^ y)) ∧
    (∀ i, m ≤ i → left.buffer[i]? = out[i]?) ∧
    (∀ overrun, left.overrun? = some overrun ↔ m < 16 ∧ overrun = .outside m m) ∧
    (m = 16 → ∀ again : Bytes, 16 ≤ again.length →
      xorOver left.buffer b again = ⟨a.take 16 ++ again.drop 16, none⟩) ∧
    xorOver b a out = left ∧
    left = ⟨(xorInto a b out).buffer, (xorInto a b out).missing?.map fun place => .outside place place⟩ := by
  intro m left
  have hm : m = min Block.size (min a.length (min b.length out.length)) := rfl
  obtain ⟨hdone, hoverrun⟩ := xorFrom_stops hm (.start a b out) (Nat.zero_le m)
  change XoredUpTo a b out m left.buffer at hdone
  change left.overrun? = _ at hoverrun
  refine ⟨hdone.length, hdone.done, hdone.rest, ?_, ?_, ?_, ?_⟩
  · intro overrun
    rw [hoverrun, Option.ite_none_right_eq_some, Option.some.injEq]
    exact and_congr_right fun _ => eq_comm
  · intro hfull again hagain
    have hundo : XoredUpTo left.buffer b again 16 (a.take 16 ++ again.drop 16) := by
      rw [hfull] at hdone
      exact hdone.undo (by omega) hagain
    have hlength := hdone.length
    exact xorOver_eq_of_xoredUpTo (by rw [Block.size]; omega) hundo
  · rw [xorOver_eq_of_xoredUpTo (by omega) hdone.swap, ← hoverrun]
  · exact xorOver_eq_xorInto a b out

/-- the second operand and the buffer end at one place, and what was written before it stays -/
example : xorOver [1, 2, 3] [4, 5] [9, 9] = ⟨[5, 7], some (.outside 2 2)⟩ := by
  rw [xorOver_eq_xorInto]
  rfl

end CbcFile
