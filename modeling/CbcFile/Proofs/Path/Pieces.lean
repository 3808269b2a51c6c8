/-
Paths as lists of pieces, the stretches between slashes. Cutting and joining undo each other
(`splitSlash_joinSlash`), so a path can be followed piece by piece. Empty pieces and dots are silent; every component
comes from a piece that is not, and ends where it ends (`partsFrom_eq_append`).

A path that does not end in a slash has a last piece, and its other pieces are what a walk comes through
(`exists_last`, `segments_of_last`).
-/
import Mathlib.Tactic
import CbcFile.Path

namespace CbcFile.Path

/-! ## Cutting and joining -/

theorem splitSlash_of_not_mem {piece : Bytes} (h : slash ∉ piece) : splitSlash piece = [piece] := by
  induction piece with
  | nil => rfl
  | cons b rest ih =>
    rw [List.mem_cons, not_or] at h
    simp only [splitSlash, if_neg (Ne.symm h.1), ih h.2]

theorem splitSlash_slash (before after : Bytes) :
    splitSlash (before ++ slash :: after) = splitSlash before ++ splitSlash after := by
  induction before with
  | nil => simp [splitSlash]
  | cons b more ih =>
    by_cases hb : b = slash
    · simp only [List.cons_append, splitSlash, if_pos hb, ih]
    · simp only [List.cons_append, splitSlash, if_neg hb, ih]
      cases hs : splitSlash more with
      | nil => exact absurd hs (splitSlash_ne_nil more)
      | cons first later => rfl

theorem splitSlash_append_slash {piece : Bytes} (h : slash ∉ piece) (rest : Bytes) :
    splitSlash (piece ++ slash :: rest) = piece :: splitSlash rest := by
  rw [splitSlash_slash, splitSlash_of_not_mem h, List.singleton_append]

theorem slash_not_mem {bytes piece : Bytes} (h : piece ∈ splitSlash bytes) : slash ∉ piece := by
  induction bytes generalizing piece with
  | nil => simp [List.mem_singleton.1 h]
  | cons b rest ih =>
    by_cases hb : b = slash
    · rw [splitSlash, if_pos hb] at h
      rcases List.mem_cons.1 h with rfl | h
      · simp
      · exact ih h
    · rw [splitSlash, if_neg hb] at h
      cases hs : splitSlash rest with
      | nil => exact absurd hs (splitSlash_ne_nil rest)
      | cons first later =>
        rw [hs] at h ih
        rcases List.mem_cons.1 h with rfl | h
        · rw [List.mem_cons, not_or]
          exact ⟨Ne.symm hb, ih List.mem_cons_self⟩
        · exact ih (List.mem_cons_of_mem first h)

theorem joinSlash_cons (piece : Bytes) {rest : List Bytes} (h : rest ≠ []) :
    joinSlash (piece :: rest) = piece ++ slash :: joinSlash rest := by
  cases rest with
  | nil => exact absurd rfl h
  | cons next later => rfl

/-- **Cutting undoes joining** -/
theorem splitSlash_joinSlash {pieces : List Bytes} (hne : pieces ≠ []) (h : ∀ piece ∈ pieces, slash ∉ piece) :
    splitSlash (joinSlash pieces) = pieces := by
  induction pieces with
  | nil => exact absurd rfl hne
  | cons piece rest ih =>
    have hp := h piece List.mem_cons_self
    by_cases hr : rest = []
    · rw [hr]
      exact splitSlash_of_not_mem hp
    · rw [joinSlash_cons piece hr, splitSlash_append_slash hp,
        ih hr fun other ho => h other (List.mem_cons_of_mem piece ho)]

theorem joinSlash_append {front rest : List Bytes} (hf : front ≠ []) (hr : rest ≠ []) :
    joinSlash (front ++ rest) = joinSlash front ++ slash :: joinSlash rest := by
  induction front with
  | nil => exact absurd rfl hf
  | cons piece more ih =>
    rw [List.cons_append, joinSlash_cons piece (by simp [hr])]
    by_cases hm : more = []
    · rw [hm]
      rfl
    · rw [ih hm, joinSlash_cons piece hm, List.append_assoc, List.cons_append]

/-- another last piece after the first pieces of a text -/
theorem splitSlash_concat {bytes : Bytes} {front rest : List Bytes} (h : splitSlash bytes = front ++ rest) {new : Bytes}
    (hnew : slash ∉ new) : splitSlash (joinSlash (front ++ [new])) = front ++ [new] := by
  apply splitSlash_joinSlash (by simp)
  intro piece hm
  rcases List.mem_append.1 hm with hm | hm
  · exact slash_not_mem (by rw [h]; exact List.mem_append_left _ hm)
  · rw [List.mem_singleton.1 hm]
    exact hnew

/-- a suffix without a slash makes the last piece longer -/
theorem splitSlash_append {bytes last : Bytes} {front : List Bytes} (h : splitSlash bytes = front ++ [last])
    {suffix : Bytes} (hsuffix : slash ∉ suffix) : splitSlash (bytes ++ suffix) = front ++ [last ++ suffix] := by
  have hjoin : joinSlash (front ++ [last ++ suffix]) = bytes ++ suffix := by
    rw [← joinSlash_splitSlash bytes, h]
    by_cases hf : front = []
    · rw [hf]
      rfl
    · rw [joinSlash_append hf (List.cons_ne_nil _ []), joinSlash_append hf (List.cons_ne_nil _ []), List.append_assoc]
      rfl
  have hlast : slash ∉ last ++ suffix := by
    rw [List.mem_append, not_or]
    exact ⟨slash_not_mem (by rw [h]; simp), hsuffix⟩
  rw [← hjoin]
  exact splitSlash_concat h hlast

theorem take_joinSlash (front rest : List Bytes) :
    (joinSlash (front ++ rest)).take (joinSlash front).length = joinSlash front := by
  by_cases hf : front = []
  · simp [hf, joinSlash]
  · by_cases hr : rest = []
    · simp [hr]
    · rw [joinSlash_append hf hr, List.take_left]

theorem mem_joinSlash {pieces : List Bytes} {b : UInt8} (h : b ∈ joinSlash pieces) :
    b = slash ∨ ∃ piece ∈ pieces, b ∈ piece := by
  induction pieces with
  | nil => cases h
  | cons piece rest ih =>
    by_cases hr : rest = []
    · rw [hr] at h
      exact Or.inr ⟨piece, List.mem_cons_self, h⟩
    · rw [joinSlash_cons piece hr] at h
      rcases List.mem_append.1 h with h | h
      · exact Or.inr ⟨piece, List.mem_cons_self, h⟩
      · rcases List.mem_cons.1 h with h | h
        · exact Or.inl h
        · rcases ih h with h | ⟨other, ho, hb⟩
          · exact Or.inl h
          · exact Or.inr ⟨other, List.mem_cons_of_mem piece ho, hb⟩

theorem mem_joinSlash_of_mem {pieces : List Bytes} {piece : Bytes} {b : UInt8} (hp : piece ∈ pieces) (hb : b ∈ piece) :
    b ∈ joinSlash pieces := by
  induction pieces with
  | nil => cases hp
  | cons first rest ih =>
    by_cases hr : rest = []
    · rw [hr, List.mem_singleton] at hp
      rw [hr, ← hp]
      exact hb
    · rw [joinSlash_cons first hr]
      rcases List.mem_cons.1 hp with rfl | hp
      · exact List.mem_append_left _ hb
      · exact List.mem_append_right _ (List.mem_cons_of_mem slash (ih hp))

theorem getLast?_joinSlash (front : List Bytes) {piece : Bytes} (h : piece ≠ []) :
    (joinSlash (front ++ [piece])).getLast? = piece.getLast? := by
  by_cases hf : front = []
  · rw [hf]
    rfl
  · rw [joinSlash_append hf (List.cons_ne_nil piece []), List.append_cons]
    exact List.getLast?_append_of_ne_nil _ h

theorem length_le_joinSlash (front : List Bytes) (name : Bytes) : name.length ≤ (joinSlash (front ++ [name])).length := by
  by_cases hf : front = []
  · rw [hf]
    exact le_refl _
  · rw [joinSlash_append hf (List.cons_ne_nil name []), List.length_append, List.length_cons]
    exact (Nat.le_succ _).trans (Nat.le_add_left _ _)

/-! ## Components and pieces -/

/-- pieces that no component comes from -/
def Silent (pieces : List Bytes) : Prop :=
  ∀ piece ∈ pieces, piece = [] ∨ piece = dot

theorem partsFrom_silent (start : Nat) {piece : Bytes} (h : piece = [] ∨ piece = dot) (rest : List Bytes) :
    partsFrom start (piece :: rest) = partsFrom (start + piece.length + 1) rest := by
  rw [partsFrom, if_pos h]

theorem partsFrom_spoken (start : Nat) {piece : Bytes} (h : ¬ (piece = [] ∨ piece = dot)) (rest : List Bytes) :
    partsFrom start (piece :: rest) =
      ⟨if piece = dotDot then .up else .name piece, start + piece.length⟩ ::
        partsFrom (start + piece.length + 1) rest := by
  rw [partsFrom, if_neg h]
  split <;> rfl

theorem partsFrom_eq_nil {start : Nat} {pieces : List Bytes} : partsFrom start pieces = [] ↔ Silent pieces := by
  induction pieces generalizing start with
  | nil => simp [partsFrom, Silent]
  | cons piece rest ih =>
    by_cases h : piece = [] ∨ piece = dot
    · rw [partsFrom_silent start h, ih, Silent, Silent, List.forall_mem_cons, and_iff_right h]
    · rw [partsFrom_spoken start h, Silent, List.forall_mem_cons]
      exact iff_of_false (List.cons_ne_nil _ _) fun hc => h hc.1

/-- **Every component comes from a piece** and ends where the piece ends; the components around it come from the pieces
around it -/
theorem partsFrom_eq_append {start : Nat} {pieces : List Bytes} {before after : List Part} {part : Part}
    (h : partsFrom start pieces = before ++ part :: after) :
    ∃ front piece rest, pieces = front ++ piece :: rest ∧ ¬ (piece = [] ∨ piece = dot) ∧
      before = partsFrom start front ∧
      part = ⟨if piece = dotDot then .up else .name piece, start + (joinSlash (front ++ [piece])).length⟩ ∧
      after = partsFrom (part.stop + 1) rest := by
  induction pieces generalizing start before with
  | nil => simp [partsFrom] at h
  | cons piece rest ih =>
    -- the end of a later piece, counted from the end of this one
    have hlater : ∀ front other, start + piece.length + 1 + (joinSlash (front ++ [other])).length =
        start + (joinSlash (piece :: front ++ [other])).length := by
      intro front other
      rw [List.cons_append, joinSlash_cons piece (by simp), List.length_append, List.length_cons]
      omega
    by_cases hs : piece = [] ∨ piece = dot
    · rw [partsFrom_silent start hs] at h
      obtain ⟨front, other, later, hrest, hother, hbefore, hpart, hafter⟩ := ih h
      refine ⟨piece :: front, other, later, by rw [hrest]; rfl, hother, ?_, ?_, hafter⟩
      · rw [partsFrom_silent start hs]
        exact hbefore
      · rw [hpart, hlater]
    · rw [partsFrom_spoken start hs] at h
      cases before with
      | nil =>
        obtain ⟨rfl, rfl⟩ := List.cons.inj h
        exact ⟨[], piece, rest, rfl, hs, rfl, rfl, rfl⟩
      | cons first before =>
        obtain ⟨hfirst, htail⟩ := List.cons.inj h
        obtain ⟨front, other, later, hrest, hother, hbefore, hpart, hafter⟩ := ih htail
        refine ⟨piece :: front, other, later, by rw [hrest]; rfl, hother, ?_, ?_, hafter⟩
        · rw [partsFrom_spoken start hs, hfirst, hbefore]
        · rw [hpart, hlater]

/-- pieces that only a name comes from -/
theorem partsFrom_eq_name {start stop : Nat} {pieces : List Bytes} {name : Bytes}
    (h : partsFrom start pieces = [⟨.name name, stop⟩]) :
    ∃ silent rest, pieces = silent ++ name :: rest ∧ Silent silent ∧ Silent rest ∧
      (name ≠ [] ∧ name ≠ dot ∧ name ≠ dotDot) := by
  rw [← List.nil_append [_]] at h
  obtain ⟨silent, piece, rest, hs, hspoken, hbefore, hpart, hafter⟩ := partsFrom_eq_append h
  have hc := congrArg Part.component hpart
  simp only at hc
  split_ifs at hc with hup
  obtain rfl := Component.name.inj hc
  rw [not_or] at hspoken
  exact ⟨silent, rest, hs, partsFrom_eq_nil.1 hbefore.symm, partsFrom_eq_nil.1 hafter.symm, hspoken.1, hspoken.2, hup⟩

/-! ## Names with a suffix -/

theorem append_ne_dot (name : Bytes) {suffix : Bytes} (h : 2 < suffix.length) : name ++ suffix ≠ dot := by
  intro hc
  have hlen := congrArg List.length hc
  rw [List.length_append, show dot.length = 1 from rfl] at hlen
  omega

theorem append_ne_dotDot (name : Bytes) {suffix : Bytes} (h : 2 < suffix.length) : name ++ suffix ≠ dotDot := by
  intro hc
  have hlen := congrArg List.length hc
  rw [List.length_append, show dotDot.length = 2 from rfl] at hlen
  omega

/-! ## The last piece -/

theorem exists_last_piece (bytes : Bytes) : ∃ front last, splitSlash bytes = front ++ [last] := by
  rcases List.eq_nil_or_concat (splitSlash bytes) with hc | ⟨front, last, hs⟩
  · exact absurd hc (splitSlash_ne_nil bytes)
  · exact ⟨front, last, hs.trans List.concat_eq_append⟩

/-- the last piece of a path that does not end in a slash -/
theorem exists_last {p : Path} (hne : p.bytes ≠ []) (hs : p.trailingSlash = false) :
    ∃ front name, splitSlash p.bytes = front ++ [name] ∧ name ≠ [] := by
  obtain ⟨front, name, h⟩ := exists_last_piece p.bytes
  refine ⟨front, name, h, ?_⟩
  rintro rfl
  have hb := joinSlash_splitSlash p.bytes
  rw [h] at hb
  by_cases hf : front = []
  · rw [hf] at hb
    exact hne hb.symm
  · rw [joinSlash_append hf (List.cons_ne_nil [] [])] at hb
    simp [trailingSlash, ← hb, joinSlash] at hs

theorem getLast?_ne_slash {p : Path} {piece : Bytes} (h : piece ∈ splitSlash p.bytes) : piece.getLast? ≠ some slash :=
  fun hc => slash_not_mem h (List.mem_of_getLast? hc)

theorem bytes_of_last {p : Path} {front : List Bytes} {name : Bytes} (h : splitSlash p.bytes = front ++ [name])
    (hname : name ≠ []) : p.bytes ≠ [] ∧ p.trailingSlash = false := by
  have hlast : p.bytes.getLast? = name.getLast? := by
    rw [← joinSlash_splitSlash p.bytes, h]
    exact getLast?_joinSlash front hname
  constructor
  · intro hc
    rw [hc] at hlast
    exact hname (List.getLast?_eq_none_iff.1 hlast.symm)
  · rw [trailingSlash, hlast]
    exact decide_eq_false (getLast?_ne_slash (by rw [h]; simp))

theorem segments_of_last {p : Path} {front : List Bytes} {name : Bytes} (h : splitSlash p.bytes = front ++ [name])
    (hname : name ≠ []) : p.segments = front.filter (· ≠ []) ++ [name] := by
  rw [segments, h, List.filter_append, List.filter_singleton, decide_eq_true hname]
  rfl

/-- a path starts at the root if its first piece is empty and not its last -/
theorem absolute_iff {p : Path} {front : List Bytes} {name : Bytes} (rest : List Bytes)
    (h : splitSlash p.bytes = front ++ name :: rest) (hname : name ≠ []) :
    p.absolute = true ↔ front.head? = some [] := by
  unfold absolute
  cases hb : p.bytes with
  | nil =>
    rw [hb, splitSlash] at h
    cases front with
    | nil => exact absurd (List.cons.inj h).1.symm hname
    | cons first more =>
      have hnil := (List.cons.inj h).2
      simp at hnil
  | cons b bytes =>
    rw [hb, splitSlash] at h
    by_cases hs : b = slash
    · rw [if_pos hs] at h
      cases front with
      | nil => exact absurd (List.cons.inj h).1.symm hname
      | cons first more => simp [hs, (List.cons.inj h).1.symm]
    · rw [if_neg hs] at h
      cases hp : splitSlash bytes with
      | nil => exact absurd hp (splitSlash_ne_nil bytes)
      | cons first later =>
        rw [hp] at h
        cases front with
        | nil => simp [hs]
        | cons head more => simp [hs, (List.cons.inj h).1.symm]

end CbcFile.Path
