/-
Operations that are only good inside their bounds: a place of a buffer, the part before or behind it, a difference, a
counter of 64 bits. Each gives its value, or says how it left its bounds; nothing is cut short or wrapped around. So a
row of such operations that gives a value has stayed inside all of its bounds.
-/
import CbcFile.Padding

namespace CbcFile

/-- how an operation leaves its bounds -/
inductive Overrun where
  /-- a buffer of this length has no such place -/
  | outside (length place : Nat)
  /-- a difference below zero -/
  | belowZero
  /-- a sum that 64 bits do not hold -/
  | beyondWord
deriving DecidableEq, Repr

/-- a value, or the bound that was overrun on the way to it -/
abbrev Checked := Except Overrun

namespace Checked

/-- a value that there is inside a bound only -/
def within {α : Type} (bound : Prop) [Decidable bound] (value : α) (overrun : Overrun) : Checked α :=
  if bound then .ok value else .error overrun

/-! ## Buffers -/

/-- the byte at a place -/
def byteAt (buffer : Bytes) (place : Nat) : Checked UInt8 :=
  match buffer[place]? with
  | some b => .ok b
  | none => .error (.outside buffer.length place)

/-- a byte put at a place -/
def putByte (buffer : Bytes) (place : Nat) (b : UInt8) : Checked Bytes :=
  within (place < buffer.length) (buffer.set place b) (.outside buffer.length place)

/-- the part of a buffer before a place -/
def before (buffer : Bytes) (place : Nat) : Checked Bytes :=
  within (place ≤ buffer.length) (buffer.take place) (.outside buffer.length place)

/-- the part of a buffer behind a place -/
def behind (buffer : Bytes) (place : Nat) : Checked Bytes :=
  within (place ≤ buffer.length) (buffer.drop place) (.outside buffer.length place)

/-- the place that many bytes further on, which may be the end of the buffer -/
def advance (buffer : Bytes) (place n : Nat) : Checked Nat :=
  within (place + n ≤ buffer.length) (place + n) (.outside buffer.length (place + n))

/-! ## Numbers -/

/-- a difference -/
def minus (m n : Nat) : Checked Nat :=
  within (n ≤ m) (m - n) .belowZero

/-- a counter further on -/
def count (counter : UInt64) (n : Nat) : Checked UInt64 :=
  within (counter.toNat + n < UInt64.size) (counter + UInt64.ofNat n) .beyondWord

/-! ## Blocks in buffers -/

/-- the bytes of a buffer as a block -/
def block (buffer : Bytes) : Checked Block :=
  match Block.ofBytes? buffer with
  | some block => .ok block
  | none => .error (.outside buffer.length Block.size)

/-- one block's exclusive or over a buffer; all three have to be as long as a block -/
def xorBlocks (a b out : Bytes) : Checked Bytes :=
  let overlay := xorInto a b out
  match overlay.missing? with
  | none => .ok overlay.buffer
  | some place => .error (.outside place place)

/-- how many bytes of padding a buffer ends in, if it is padded -/
def padding (buffer : Bytes) : Checked (Option Nat) := do
  let last ← byteAt buffer (Block.size - 1)
  if last.toNat = 0 ∨ buffer.length < last.toNat then return none
  let tail ← behind buffer (← minus buffer.length last.toNat)
  let mismatch := tail.foldl (fun acc b => acc ||| (b ^^^ last)) 0
  return if mismatch = 0 then some last.toNat else none

/-! ## Facts -/

@[simp] theorem ok_bind {α β : Type} (a : α) (f : α → Checked β) : ((.ok a : Checked α) >>= f) = f a := rfl

@[simp] theorem error_bind {α β : Type} (overrun : Overrun) (f : α → Checked β) :
    ((.error overrun : Checked α) >>= f) = .error overrun := rfl

@[simp] theorem pure_eq_ok {α : Type} (a : α) : (pure a : Checked α) = .ok a := rfl

section Within

variable {α : Type} {bound : Prop} [Decidable bound] {value : α} {overrun : Overrun}

theorem within_of (h : bound) : within bound value overrun = .ok value :=
  if_pos h

end Within

theorem byteAt_of_lt {buffer : Bytes} {place : Nat} (h : place < buffer.length) :
    byteAt buffer place = .ok buffer[place] := by
  rw [byteAt, List.getElem?_eq_getElem h]

/-- the place behind the last one is none -/
theorem byteAt_length (buffer : Bytes) :
    byteAt buffer buffer.length = .error (.outside buffer.length buffer.length) := by
  rw [byteAt, List.getElem?_eq_none (Nat.le_refl _)]

theorem putByte_of_lt {buffer : Bytes} {place : Nat} (h : place < buffer.length) (b : UInt8) :
    putByte buffer place b = .ok (buffer.set place b) :=
  within_of h

/-- nothing can be put behind the last place -/
theorem putByte_length (buffer : Bytes) (b : UInt8) :
    putByte buffer buffer.length b = .error (.outside buffer.length buffer.length) :=
  if_neg (Nat.lt_irrefl _)

/-- **A counter that does not overflow** counts on -/
theorem count_of_lt {counter : UInt64} {n : Nat} (h : counter.toNat + n < UInt64.size) :
    ∃ further, count counter n = .ok further ∧ further.toNat = counter.toNat + n := by
  have hn : (UInt64.ofNat n).toNat = n := UInt64.toNat_ofNat_of_lt' (Nat.lt_of_le_of_lt (Nat.le_add_left n _) h)
  refine ⟨counter + UInt64.ofNat n, within_of h, ?_⟩
  rw [UInt64.toNat_add, hn]
  exact Nat.mod_eq_of_lt h

theorem block_toList (b : Block) : block b.toList = .ok b := by
  rw [block, Block.ofBytes?_eq_some.2 rfl]

/-- **The exclusive or** has a value where there are sixteen bytes of each, and there only -/
theorem xorBlocks_eq_ok {a b out result : Bytes} :
    xorBlocks a b out = .ok result ↔
      (16 ≤ a.length ∧ 16 ≤ b.length ∧ 16 ≤ out.length) ∧ (xorInto a b out).buffer = result := by
  have hreach : min a.length (min b.length out.length) < Block.size ↔
      ¬(16 ≤ a.length ∧ 16 ≤ b.length ∧ 16 ≤ out.length) := by
    simp only [Block.size]
    omega
  by_cases h : 16 ≤ a.length ∧ 16 ≤ b.length ∧ 16 ≤ out.length
  · have hmissing : (xorInto a b out).missing? = none := if_neg (fun hc => hreach.1 hc h)
    simp only [xorBlocks, hmissing, Except.ok.injEq, h, and_self, true_and]
  · have hmissing : (xorInto a b out).missing? = some _ := if_pos (hreach.2 h)
    simp only [xorBlocks, hmissing, reduceCtorEq, h, false_and]

/-- the check of a buffer that is a block stays inside it -/
theorem padding_toList (b : Block) : padding b.toList = .ok (paddingLength? b) := by
  have hlast : byteAt b.toList (Block.size - 1) = .ok b[15] := by simp [byteAt, Block.size]
  have hlength : b.toList.length = Block.size := Vector.length_toList
  simp only [padding, hlast, ok_bind, hlength, paddingLength?]
  split
  · rfl
  · rename_i h
    have hle : b[15].toNat ≤ Block.size := by omega
    rw [minus, within_of hle, ok_bind, behind, within_of (by rw [hlength]; omega)]
    rfl

end Checked

end CbcFile
