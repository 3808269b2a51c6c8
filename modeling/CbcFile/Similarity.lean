/-
The similarity of two words, from 0 for nothing in common to 1 for equal words. Characters match if they are equal and
not further apart than half the longer word; each is used once. Matched characters that stand in another order count
half.

`closest?` picks the most similar of some candidates, the later one if two are equally near.
-/

namespace CbcFile.Similarity

/-- a character of the second word, and whether a character of the first word has been matched with it -/
structure Slot where
  char : Char
  taken : Bool

/-- takes the first free slot with this character among those from place `low` to before place `high` -/
def claim (c : Char) : (low high : Nat) → List Slot → Option (List Slot)
  | _, 0, _ => none
  | _, _ + 1, [] => none
  | 0, high + 1, slot :: rest =>
    if slot.char = c ∧ slot.taken = false then some (⟨c, true⟩ :: rest)
    else (claim c 0 high rest).map (slot :: ·)
  | low + 1, high + 1, slot :: rest => (claim c low high rest).map (slot :: ·)

/-- matches the characters of the first word in order, from place `i` on: those that found a slot, and the slots -/
def pair (reach : Nat) : Nat → List Char → List Slot → List Char × List Slot
  | _, [], slots => ([], slots)
  | i, c :: rest, slots =>
    match claim c (i - reach) (i + reach + 1) slots with
    | none => pair reach (i + 1) rest slots
    | some slots =>
      let (matched, slots) := pair reach (i + 1) rest slots
      (c :: matched, slots)

/-- the similarity of two words -/
def score (a b : List Char) : Float :=
  if a = [] ∧ b = [] then 1
  else
    let reach := max a.length b.length / 2 - 1
    let (matched, slots) := pair reach 0 a (b.map (⟨·, false⟩))
    let partners := (slots.filter Slot.taken).map Slot.char
    let moved := ((matched.zip partners).filter fun pair => pair.1 ≠ pair.2).length / 2
    if matched = [] then 0
    else
      let m := matched.length.toFloat
      (m / a.length.toFloat + m / b.length.toFloat + (matched.length - moved).toFloat / m) / 3

/-- candidates less similar than this are not near -/
def threshold : Float := 0.7

/-- the candidate whose word is most similar, if any is near -/
def closest? {α : Type} (spelled : α → List Char) (word : List Char) (candidates : List α) : Option α :=
  (candidates.foldl (fun best candidate =>
    let near := score word (spelled candidate)
    if near > threshold then
      match best with
      | none => some (near, candidate)
      | some (nearest, other) => if near ≥ nearest then some (near, candidate) else some (nearest, other)
    else best) none).map Prod.snd

end CbcFile.Similarity
