/-
Names and directories of files. The text up to the end of a component is made of the first pieces of a path
(`take_stop`), and is a path that a walk follows piece by piece too.

Results:
- `directory_cases`: the directory of a path is the dot, or the path cut after one of its pieces.
- `withFileName_eq`: a path with another file name has the old pieces up to the component before, then the new name.
-/
import Mathlib.Tactic
import CbcFile.Proofs.Path.Pieces

namespace CbcFile.Path

/-! ## Parents -/

/-- the text of the first pieces of a path -/
def upTo (front : List Bytes) : Path :=
  if front = [[]] then ⟨[slash]⟩ else ⟨joinSlash front⟩

theorem upTo_concat (more : List Bytes) {piece : Bytes} (h : piece ≠ []) :
    upTo (more ++ [piece]) = ⟨joinSlash (more ++ [piece])⟩ :=
  if_neg fun hc => h (by simpa using congrArg List.getLast? hc)

/-- a stretch of pieces that ends a component, or the root -/
def Ends (front : List Bytes) : Prop :=
  front = [[]] ∨ ∃ more piece, front = more ++ [piece] ∧ piece ≠ []

theorem Ends.ne_nil {front : List Bytes} (h : Ends front) : front ≠ [] := by
  rcases h with rfl | ⟨more, piece, rfl, -⟩ <;> simp

theorem take_stop_of_piece {p : Path} {before after : List Part} {part : Part}
    (h : partsFrom 0 (splitSlash p.bytes) = before ++ part :: after) :
    ∃ front rest n, splitSlash p.bytes = front ++ rest ∧ Ends front ∧ after = partsFrom n rest ∧
      (⟨p.bytes.take part.stop⟩ : Path) = upTo front := by
  obtain ⟨front, piece, rest, hp, hpiece, -, hpart, hafter⟩ := partsFrom_eq_append h
  rw [not_or] at hpiece
  refine ⟨front ++ [piece], rest, part.stop + 1, by simp [hp], Or.inr ⟨front, piece, rfl, hpiece.1⟩, hafter, ?_⟩
  rw [upTo_concat front hpiece.1, ← joinSlash_splitSlash p.bytes, hp, hpart, Nat.zero_add]
  congr 1
  simpa using take_joinSlash (front ++ [piece]) rest

/-- **The text up to the end of a component** is made of the first pieces; later components come from the others -/
theorem take_stop {p : Path} {before after : List Part} {part : Part} (h : p.parts = before ++ part :: after) :
    ∃ front rest n, splitSlash p.bytes = front ++ rest ∧ Ends front ∧ after = partsFrom n rest ∧
      (⟨p.bytes.take part.stop⟩ : Path) = upTo front := by
  have hbytes := joinSlash_splitSlash p.bytes
  cases hs : splitSlash p.bytes with
  | nil => exact absurd hs (splitSlash_ne_nil _)
  | cons first later =>
    rw [← hs]
    have hlead : leadingPart p =
        if first = [] ∧ later ≠ [] then [⟨.root, 1⟩] else if first = dot then [⟨.here, 1⟩] else [] := by
      rw [leadingPart, hs]
    rw [parts, hlead] at h
    -- the leading component ends after one byte, any other one with its piece
    split_ifs at h with hroot hdot
    · cases before with
      | cons leading before => exact take_stop_of_piece (List.cons.inj h).2
      | nil =>
        obtain ⟨rfl, hafter⟩ := List.cons.inj h
        refine ⟨[[]], later, 0 + 1, by rw [hs, hroot.1]; rfl, Or.inl rfl, ?_, ?_⟩
        · rw [← hafter, hs, hroot.1, partsFrom_silent 0 (Or.inl rfl)]
          rfl
        · rw [← hbytes, hs, hroot.1, joinSlash_cons [] hroot.2]
          rfl
    · cases before with
      | cons leading before => exact take_stop_of_piece (List.cons.inj h).2
      | nil =>
        obtain ⟨rfl, hafter⟩ := List.cons.inj h
        refine ⟨[dot], later, 0 + dot.length + 1, by rw [hs, hdot]; rfl, Or.inr ⟨[], dot, rfl, by decide⟩, ?_, ?_⟩
        · rw [← hafter, hs, hdot, partsFrom_silent 0 (Or.inr rfl)]
          rfl
        · have ht := take_joinSlash [dot] later
          rw [← hbytes, hs, hdot]
          exact congrArg Path.mk ht
    · exact take_stop_of_piece h

section UpTo

variable {p : Path} {front rest : List Bytes}

theorem splitSlash_upTo (h : splitSlash p.bytes = front ++ rest) (hends : Ends front) :
    splitSlash (upTo front).bytes = if front = [[]] then [[], []] else front := by
  unfold upTo
  split_ifs with hroot
  · decide
  · exact splitSlash_joinSlash hends.ne_nil fun piece hp => slash_not_mem (by rw [h]; exact List.mem_append_left _ hp)

theorem segments_upTo (h : splitSlash p.bytes = front ++ rest) (hends : Ends front) :
    (upTo front).segments = front.filter (· ≠ []) := by
  rw [segments, splitSlash_upTo h hends]
  split_ifs with hroot
  · rw [hroot]
    decide
  · rfl

theorem absolute_upTo (h : splitSlash p.bytes = front ++ rest) (hends : Ends front) (hrest : rest ≠ []) :
    (upTo front).absolute = p.absolute := by
  rcases hends with rfl | ⟨more, piece, rfl, hpiece⟩
  · -- the root: what comes after the first slash does not matter
    have hp : p.bytes = slash :: joinSlash rest := by
      rw [← joinSlash_splitSlash p.bytes, h, List.singleton_append, joinSlash_cons [] hrest]
      rfl
    simp [absolute, hp, upTo]
  · have hsplit : splitSlash (upTo (more ++ [piece])).bytes = more ++ [piece] := by
      have hne : more ++ [piece] ≠ [[]] := fun hc => hpiece (by simpa using congrArg List.getLast? hc)
      rw [splitSlash_upTo h (Or.inr ⟨more, piece, rfl, hpiece⟩), if_neg hne]
    rw [Bool.eq_iff_iff, absolute_iff [] hsplit hpiece, absolute_iff rest (by rw [h, List.append_assoc]; rfl) hpiece]

theorem upTo_isPrefix (h : splitSlash p.bytes = front ++ rest) (hrest : rest ≠ []) :
    (upTo front).bytes <+: p.bytes := by
  have hp := joinSlash_splitSlash p.bytes
  unfold upTo
  split_ifs with hroot
  · rw [← hp, h, hroot, List.singleton_append, joinSlash_cons [] hrest]
    exact ⟨joinSlash rest, rfl⟩
  · have ht := take_joinSlash front rest
    rw [← h, hp] at ht
    exact ht ▸ List.take_prefix _ _

theorem getLast?_upTo {more : List Bytes} {piece : Bytes} (hpiece : piece ≠ []) :
    (upTo (more ++ [piece])).bytes.getLast? = piece.getLast? := by
  rw [upTo_concat more hpiece]
  exact getLast?_joinSlash more hpiece

theorem upTo_ne_nil (hends : Ends front) : (upTo front).bytes ≠ [] := by
  rcases hends with rfl | ⟨more, piece, rfl, hpiece⟩
  · decide
  · intro hc
    have hlast : (upTo (more ++ [piece])).bytes.getLast? = piece.getLast? := getLast?_upTo hpiece
    rw [hc] at hlast
    exact hpiece (List.getLast?_eq_none_iff.1 hlast.symm)

theorem join_upTo (h : splitSlash p.bytes = front ++ rest) (hends : Ends front) (name : Bytes) :
    join (upTo front) name = ⟨joinSlash (front ++ [name])⟩ := by
  have hnil := upTo_ne_nil hends
  rcases hends with rfl | ⟨more, piece, rfl, hpiece⟩
  · rfl
  · have hslash : (upTo (more ++ [piece])).bytes.getLast? ≠ some slash := by
      rw [getLast?_upTo hpiece]
      exact getLast?_ne_slash (by rw [h]; simp)
    rw [join, if_neg hnil, if_neg hslash, upTo_concat more hpiece,
      joinSlash_append (by simp) (List.cons_ne_nil name [])]
    rfl

end UpTo

/-- **Where a file's directory is**: the dot, or the path cut after one of its pieces -/
theorem directory_cases (p : Path) :
    p.directory = ⟨dot⟩ ∨
      ∃ front rest, splitSlash p.bytes = front ++ rest ∧ Ends front ∧ rest ≠ [] ∧ p.directory = upTo front := by
  unfold directory parent?
  cases hr : p.parts.reverse with
  | nil => exact Or.inl rfl
  | cons last before =>
    by_cases hroot : last.component = .root
    · simp [hroot]
    · cases before with
      | nil => simp [hroot]
      | cons previous more =>
        have hparts : p.parts = more.reverse ++ previous :: [last] := by
          rw [← List.reverse_reverse p.parts, hr]
          simp
        obtain ⟨front, rest, n, hp, hends, hafter, htake⟩ := take_stop hparts
        have hrest : rest ≠ [] := by
          rintro rfl
          cases hafter
        simp only [hroot, if_false, htake]
        split
        · exact Or.inl rfl
        · exact Or.inr ⟨front, rest, hp, hends, hrest, rfl⟩

/-! ## File names -/

theorem leadingPart_ne_name {p : Path} {part : Part} {name : Bytes} (h : part ∈ leadingPart p) :
    part.component ≠ .name name := by
  unfold leadingPart at h
  split at h
  · cases h
  · split_ifs at h
    · rw [List.mem_singleton.1 h]
      simp
    · rw [List.mem_singleton.1 h]
      simp
    · cases h

theorem leadingPart_ne_nil {p : Path} {first : Bytes} {later : List Bytes} (h : splitSlash p.bytes = first :: later)
    (hlater : later ≠ []) (hfirst : first = [] ∨ first = dot) : leadingPart p ≠ [] := by
  rw [leadingPart, h]
  rcases hfirst with rfl | rfl
  · simp [hlater]
  · simp [show dot ≠ [] by decide]

/-- a name that is the only component is the first piece -/
theorem parts_eq_name {p : Path} {name : Bytes} {stop : Nat} (h : p.parts = [⟨.name name, stop⟩]) :
    ∃ rest, splitSlash p.bytes = name :: rest ∧ Silent rest ∧ (name ≠ [] ∧ name ≠ dot ∧ name ≠ dotDot) := by
  rw [parts] at h
  have hlead : leadingPart p = [] := by
    cases hl : leadingPart p with
    | nil => rfl
    | cons leading others =>
      have hne : leading.component ≠ .name name := leadingPart_ne_name (by rw [hl]; exact List.mem_cons_self)
      rw [hl] at h
      rw [(List.cons.inj h).1] at hne
      exact absurd rfl hne
  rw [hlead, List.nil_append] at h
  obtain ⟨silent, rest, hs, hsilent, hrest, hname⟩ := partsFrom_eq_name h
  cases silent with
  | nil => exact ⟨rest, hs, hrest, hname⟩
  | cons first others =>
    rw [List.cons_append] at hs
    exact absurd hlead (leadingPart_ne_nil hs (by simp) (hsilent first List.mem_cons_self))

/-- **The parent of a path with a file name** is the text of the pieces up to the component before. Silent pieces may
follow that component, and the name too. -/
theorem parent?_eq {p : Path} {name : Bytes} (h : p.components.getLast? = some (.name name)) :
    ∃ front silent rest, splitSlash p.bytes = front ++ silent ++ name :: rest ∧ (front = [] ∧ silent = [] ∨ Ends front) ∧
      Silent silent ∧ Silent rest ∧ (name ≠ [] ∧ name ≠ dot ∧ name ≠ dotDot) ∧ p.parent? = some (upTo front) := by
  obtain ⟨stop, hlast⟩ : ∃ stop, p.parts.getLast? = some ⟨.name name, stop⟩ := by
    rw [components, List.getLast?_map, Option.map_eq_some_iff] at h
    obtain ⟨⟨component, stop⟩, hlast, rfl⟩ := h
    exact ⟨stop, hlast⟩
  obtain ⟨before, hparts⟩ := List.getLast?_eq_some_iff.1 hlast
  rcases List.eq_nil_or_concat before with rfl | ⟨more, previous, rfl⟩
  · obtain ⟨rest, hs, hrest, hname⟩ := parts_eq_name hparts
    refine ⟨[], [], rest, hs, Or.inl ⟨rfl, rfl⟩, by simp [Silent], hrest, hname, ?_⟩
    rw [parent?, hparts]
    simp [upTo, joinSlash]
  · rw [List.concat_eq_append, List.append_assoc] at hparts
    obtain ⟨front, rest, n, hp, hends, hafter, htake⟩ := take_stop hparts
    obtain ⟨silent, later, rfl, hsilent, hlater, hname⟩ := partsFrom_eq_name hafter.symm
    refine ⟨front, silent, later, by rw [hp, List.append_assoc], Or.inr hends, hsilent, hlater, hname, ?_⟩
    rw [parent?, hparts]
    simp [htake]

/-- **Another file name in the place of the old one**: what came after the old name and before it is dropped -/
theorem withFileName_eq {p : Path} {name : Bytes} (h : p.components.getLast? = some (.name name)) (new : Bytes) :
    ∃ front silent rest, splitSlash p.bytes = front ++ silent ++ name :: rest ∧ (front = [] → silent = []) ∧
      Silent silent ∧ Silent rest ∧ (name ≠ [] ∧ name ≠ dot ∧ name ≠ dotDot) ∧
      p.withFileName new = ⟨joinSlash (front ++ [new])⟩ := by
  obtain ⟨front, silent, rest, hs, hfront, hsilent, hrest, hname, hparent⟩ := parent?_eq h
  rw [withFileName, hparent, Option.getD_some]
  rcases hfront with ⟨rfl, rfl⟩ | hends
  · exact ⟨[], [], rest, hs, fun _ => rfl, hsilent, hrest, hname, rfl⟩
  · refine ⟨front, silent, rest, hs, fun hc => absurd hc hends.ne_nil, hsilent, hrest, hname, ?_⟩
    rw [List.append_assoc] at hs
    exact join_upTo hs hends new

/-- **A shorter file name in a path without silent pieces at its end** -/
theorem withFileName_pieces {p : Path} {name last : Bytes} {lead : List Bytes}
    (h : p.components.getLast? = some (.name name)) (hp : splitSlash p.bytes = lead ++ [last])
    (hlast : last ≠ [] ∧ last ≠ dot) {new : Bytes} (hshort : new <+: name) :
    last = name ∧ ∃ front silent, lead = front ++ silent ∧ (front = [] → silent = []) ∧ Silent silent ∧
      splitSlash (p.withFileName new).bytes = front ++ [new] := by
  obtain ⟨front, silent, rest, hs, hfront, hsilent, hrest, -, hout⟩ := withFileName_eq h new
  have hnil : rest = [] := by
    rcases List.eq_nil_or_concat rest with hr | ⟨more, piece, hr⟩
    · exact hr
    · rw [List.concat_eq_append] at hr
      rw [hp, hr, ← List.cons_append, ← List.append_assoc] at hs
      have hpiece := List.singleton_inj.1 (List.append_inj' hs rfl).2
      rcases hrest piece (by rw [hr]; simp) with hc | hc
      · exact absurd (hpiece.trans hc) hlast.1
      · exact absurd (hpiece.trans hc) hlast.2
  have hslash : slash ∉ new := fun hc => slash_not_mem (by rw [hs]; simp) (hshort.subset hc)
  have hcut : splitSlash p.bytes = front ++ (silent ++ name :: rest) := by rw [hs, List.append_assoc]
  rw [hp, hnil] at hs
  obtain ⟨hlead, hname⟩ := List.append_inj' hs rfl
  refine ⟨List.singleton_inj.1 hname, front, silent, hlead, hfront, hsilent, ?_⟩
  rw [hout]
  exact splitSlash_concat hcut hslash

section Shorter

variable {p q : Path} {front silent : List Bytes} {name new : Bytes}

theorem mem_shorter (hp : splitSlash p.bytes = front ++ silent ++ [name]) (hq : splitSlash q.bytes = front ++ [new])
    (hshort : new <+: name) {b : UInt8} (hb : b ∈ q.bytes) : b = slash ∨ b ∈ p.bytes := by
  rw [← joinSlash_splitSlash q.bytes, hq] at hb
  rw [← joinSlash_splitSlash p.bytes, hp]
  rcases mem_joinSlash hb with hb | ⟨piece, hm, hb⟩
  · exact Or.inl hb
  · rcases List.mem_append.1 hm with hm | hm
    · exact Or.inr (mem_joinSlash_of_mem (List.mem_append_left _ (List.mem_append_left _ hm)) hb)
    · rw [List.mem_singleton.1 hm] at hb
      exact Or.inr (mem_joinSlash_of_mem (by simp) (hshort.subset hb))

theorem length_shorter (hp : splitSlash p.bytes = front ++ silent ++ [name]) (hq : splitSlash q.bytes = front ++ [new])
    (hfront : front = [] → silent = []) (hshort : new <+: name) : q.bytes.length ≤ p.bytes.length := by
  rw [← joinSlash_splitSlash q.bytes, hq, ← joinSlash_splitSlash p.bytes, hp]
  by_cases hf : front = []
  · rw [hf, hfront hf]
    exact hshort.length_le
  · have hlonger := length_le_joinSlash silent name
    rw [List.append_assoc, joinSlash_append hf (List.cons_ne_nil new []), joinSlash_append hf (by simp),
      List.length_append, List.length_append, List.length_cons, List.length_cons]
    exact Nat.add_le_add_left (Nat.succ_le_succ (hshort.length_le.trans hlonger)) _

theorem absolute_shorter (hp : splitSlash p.bytes = front ++ silent ++ [name]) (hq : splitSlash q.bytes = front ++ [new])
    (hfront : front = [] → silent = []) (hname : name ≠ []) (hnew : new ≠ []) : q.absolute = p.absolute := by
  rw [Bool.eq_iff_iff, absolute_iff [] hq hnew, absolute_iff [] hp hname]
  cases front with
  | nil => rw [hfront rfl, List.append_nil]
  | cons first more => rfl

end Shorter

end CbcFile.Path
