/-
The components of a path, read off its pieces. The first piece decides whether a path starts at the root or with the dot;
then every piece that is not silent is a component (`components_eq`). So silent pieces after the first one do not count
(`componentsOf_silent`), and a name stands after the components of what comes before it (`componentsOf_name`).

Results:
- `getLast?_components`: the last component is a name if that name is a piece with only silent pieces after it.
- `components_parent`: the parent of a path with a file name has the components before that name.
- `components_withFileName`: another file name stands after the same components.
- `bytes_withFileName`: where nothing is skipped in front of the file name, the new one stands after the same text.
-/
import Mathlib.Tactic
import CbcFile.Proofs.Path.Names

namespace CbcFile.Path

/-! ## Pieces that count -/

/-- the component that a piece stands for in any place -/
def spoken? (piece : Bytes) : Option Component :=
  if piece = [] ∨ piece = dot then none
  else if piece = dotDot then some .up
  else some (.name piece)

/-- the component that a path starts with because of its first piece -/
def leading : List Bytes → List Component
  | [] => []
  | first :: later =>
    if first = [] ∧ later ≠ [] then [.root]
    else if first = dot then [.here]
    else []

/-- the components of a path with these pieces -/
def componentsOf (pieces : List Bytes) : List Component :=
  leading pieces ++ pieces.filterMap spoken?

theorem map_partsFrom (start : Nat) (pieces : List Bytes) :
    (partsFrom start pieces).map Part.component = pieces.filterMap spoken? := by
  induction pieces generalizing start with
  | nil => rfl
  | cons piece rest ih =>
    by_cases h : piece = [] ∨ piece = dot
    · rw [partsFrom_silent start h, ih, List.filterMap_cons, spoken?, if_pos h]
    · rw [partsFrom_spoken start h, List.map_cons, ih, List.filterMap_cons, spoken?, if_neg h]
      split_ifs <;> rfl

/-- **The components of a path** come from its pieces -/
theorem components_eq (p : Path) : p.components = componentsOf (splitSlash p.bytes) := by
  rw [components, parts, List.map_append, map_partsFrom, componentsOf, leadingPart]
  congr 1
  cases splitSlash p.bytes with
  | nil => rfl
  | cons first later =>
    simp only [leading]
    split_ifs <;> rfl

/-- the leading component depends on the first piece and on whether it is the only one -/
theorem leading_append {front rest other : List Bytes} (hf : front ≠ []) (hr : rest ≠ []) (ho : other ≠ []) :
    leading (front ++ rest) = leading (front ++ other) := by
  cases front with
  | nil => exact absurd rfl hf
  | cons first more => simp [leading, hr, ho]

theorem filterMap_silent {silent : List Bytes} (h : Silent silent) : silent.filterMap spoken? = [] :=
  List.filterMap_eq_nil_iff.2 fun piece hp => if_pos (h piece hp)

/-- **Silent pieces** after the first piece do not count -/
theorem componentsOf_silent {front silent other : List Bytes} (hf : front ≠ []) (hs : Silent silent) (hne : silent ≠ [])
    (ho : Silent other) (hne' : other ≠ []) : componentsOf (front ++ silent) = componentsOf (front ++ other) := by
  rw [componentsOf, componentsOf, leading_append hf hne hne', List.filterMap_append, List.filterMap_append,
    filterMap_silent hs, filterMap_silent ho]

theorem silent_singleton {piece : Bytes} : Silent [piece] ↔ piece = [] ∨ piece = dot :=
  List.forall_mem_singleton

section Name

variable {p q : Path} {front silent rest : List Bytes} {name new : Bytes}

/-- **A name in front of silent pieces** is the last component, after those of the pieces before it -/
theorem componentsOf_name (front : List Bytes) (hrest : Silent rest) (hname : name ≠ [] ∧ name ≠ dot ∧ name ≠ dotDot) :
    componentsOf (front ++ name :: rest) = componentsOf (front ++ [[]]) ++ [.name name] := by
  have hspoken : spoken? name = some (.name name) := by
    rw [spoken?, if_neg (not_or.2 ⟨hname.1, hname.2.1⟩), if_neg hname.2.2]
  have hlead : leading (front ++ name :: rest) = leading (front ++ [[]]) := by
    by_cases hf : front = []
    · rw [hf, List.nil_append, leading, if_neg fun hc => hname.1 hc.1, if_neg hname.2.1]
      rfl
    · exact leading_append hf (List.cons_ne_nil _ _) (List.cons_ne_nil _ _)
  rw [componentsOf, componentsOf, hlead, List.filterMap_append, List.filterMap_cons_some hspoken, filterMap_silent hrest,
    List.filterMap_append, filterMap_silent (silent_singleton.2 (Or.inl rfl)), List.append_nil, List.append_assoc]

/-- silent pieces between a name and the pieces before it do not count either -/
theorem componentsOf_skip (hfront : front = [] → silent = []) (hsilent : Silent silent) (hrest : Silent rest)
    (hname : name ≠ [] ∧ name ≠ dot ∧ name ≠ dotDot) :
    componentsOf (front ++ silent ++ name :: rest) = componentsOf (front ++ [[]]) ++ [.name name] := by
  rw [componentsOf_name _ hrest hname]
  congr 1
  by_cases hf : front = []
  · rw [hf, hfront hf, List.append_nil]
  · rw [List.append_assoc]
    refine componentsOf_silent hf ?_ (by simp) (silent_singleton.2 (Or.inl rfl)) (by simp)
    intro piece hp
    rcases List.mem_append.1 hp with hp | hp
    · exact hsilent piece hp
    · exact Or.inl (List.mem_singleton.1 hp)

/-! ## The last component -/

/-- the last piece that is not silent is this name -/
def LastName (p : Path) (name : Bytes) : Prop :=
  ∃ front rest, splitSlash p.bytes = front ++ name :: rest ∧ Silent rest ∧ (name ≠ [] ∧ name ≠ dot ∧ name ≠ dotDot)

/-- **The last component is a name** if that name is a piece with only silent pieces after it -/
theorem getLast?_components : p.components.getLast? = some (.name name) ↔ p.LastName name := by
  constructor
  · intro h
    obtain ⟨front, silent, rest, hs, -, -, hrest, hname, -⟩ := parent?_eq h
    exact ⟨front ++ silent, rest, hs, hrest, hname⟩
  · rintro ⟨front, rest, hs, hrest, hname⟩
    rw [components_eq, hs, componentsOf_name front hrest hname, List.getLast?_concat]

/-- the pieces up to the end of a component give the components up to it -/
theorem components_upTo (h : splitSlash p.bytes = front ++ rest) (hends : Ends front) :
    (upTo front).components = componentsOf (front ++ [[]]) := by
  rw [components_eq, splitSlash_upTo h hends]
  rcases hends with rfl | ⟨more, piece, rfl, hpiece⟩
  · rfl
  · have hskip : (more ++ [piece] ++ [[]]).filterMap spoken? = (more ++ [piece]).filterMap spoken? := by
      rw [List.filterMap_append, filterMap_silent (silent_singleton.2 (Or.inl rfl)), List.append_nil]
    rw [if_neg fun hc => hpiece (by simpa using congrArg List.getLast? hc), componentsOf, componentsOf, hskip]
    congr 1
    -- the first piece is the only one in both stretches, or in none
    cases more with
    | nil => simp [leading, hpiece]
    | cons first others => simp [leading]

/-- **The parent of a path with a file name** has the components before that name -/
theorem components_parent (h : p.components.getLast? = some (.name name)) :
    p.parent?.map components = some p.components.dropLast := by
  obtain ⟨front, silent, rest, hs, hfront, hsilent, hrest, hname, hparent⟩ := parent?_eq h
  rw [hparent, Option.map_some, p.components_eq, hs]
  rcases hfront with ⟨rfl, rfl⟩ | hends
  · rw [componentsOf_skip (fun _ => rfl) hsilent hrest hname, List.dropLast_concat]
    rfl
  · rw [componentsOf_skip (fun hc => absurd hc hends.ne_nil) hsilent hrest hname, List.dropLast_concat]
    rw [List.append_assoc] at hs
    rw [components_upTo hs hends]

/-! ## Another file name -/

/-- a path with another last piece in the place of the file name and of the silent pieces around it -/
theorem splitSlash_withFileName (h : p.components.getLast? = some (.name name)) (hnew : slash ∉ new) :
    ∃ front, splitSlash (p.withFileName new).bytes = front ++ [new] ∧
      p.components = componentsOf (front ++ [[]]) ++ [.name name] := by
  obtain ⟨front, silent, rest, hs, hfront, hsilent, hrest, hname, hout⟩ := withFileName_eq h new
  refine ⟨front, ?_, by rw [components_eq, hs, componentsOf_skip hfront hsilent hrest hname]⟩
  rw [List.append_assoc] at hs
  rw [hout]
  exact splitSlash_concat hs hnew

/-- **Another file name** stands after the same components, if it is a name with the suffix -/
theorem components_withFileName {suffix : Bytes} (h : p.components.getLast? = some (.name name)) (hnew : slash ∉ new)
    (hsuffix : slash ∉ suffix) (hne : new ++ suffix ≠ [] ∧ new ++ suffix ≠ dot ∧ new ++ suffix ≠ dotDot) :
    (⟨(p.withFileName new).bytes ++ suffix⟩ : Path).components = p.components.dropLast ++ [.name (new ++ suffix)] := by
  obtain ⟨front, hs, hp⟩ := splitSlash_withFileName h hnew
  have hcut : splitSlash ((p.withFileName new).bytes ++ suffix) = front ++ [new ++ suffix] := splitSlash_append hs hsuffix
  rw [components_eq, hcut, hp, List.dropLast_concat]
  exact componentsOf_name front (by simp [Silent]) hne

/-- the text before the file name ends where another component does, but for the slash between them, or there is no
other text before it -/
def Adjoins (p : Path) (before : Bytes) : Prop :=
  before = [] ∨ before = [slash] ∨
    ∃ text, before = text ++ [slash] ∧ text.getLast? ≠ some slash ∧ ∃ part ∈ p.parts, part.stop = text.length

/-- a component that a single slash and the file name follow is the one before the file name -/
theorem parent?_of_stop {text : Bytes} {part : Part} (hp : p.bytes = text ++ slash :: name) (hslash : slash ∉ name)
    (hname : name ≠ [] ∧ name ≠ dot ∧ name ≠ dotDot) (htext : text.getLast? ≠ some slash) (hpart : part ∈ p.parts)
    (hstop : part.stop = text.length) : text ≠ [] ∧ p.parent? = some ⟨text⟩ := by
  obtain ⟨before, after, hparts⟩ := List.append_of_mem hpart
  obtain ⟨front, rest, n, hs, hends, hafter, htake⟩ := take_stop hparts
  have hcut : upTo front = ⟨text⟩ := by rw [← htake, hp, hstop, List.take_left]
  have hne : text ≠ [] := by
    have hbytes := upTo_ne_nil hends
    rwa [hcut] at hbytes
  have hfront : splitSlash text = front := by
    have hsplit := splitSlash_upTo hs hends
    rw [hcut] at hsplit
    rw [hsplit, if_neg]
    -- the root is a component too, but its text is the slash
    rintro rfl
    have hroot : text = [slash] := (congrArg Path.bytes hcut).symm
    exact htext (by rw [hroot]; rfl)
  have hrest : rest = [name] := by
    rw [hp, splitSlash_slash, hfront, splitSlash_of_not_mem hslash] at hs
    exact (List.append_cancel_left hs).symm
  rw [hrest, partsFrom_spoken n (not_or.2 ⟨hname.1, hname.2.1⟩), if_neg hname.2.2, partsFrom] at hafter
  refine ⟨hne, ?_⟩
  rw [parent?, hparts, hafter]
  simp [hp, hstop]

/-- **Where nothing is skipped in front of the file name**, a shorter one stands after the same text -/
theorem bytes_withFileName {before : Bytes} (h : p.components.getLast? = some (.name name)) (hp : p.bytes = before ++ name)
    (hadjoins : p.Adjoins before) (hshort : new <+: name) : (p.withFileName new).bytes = before ++ new := by
  obtain ⟨front, rest, hs, -, hname⟩ := getLast?_components.1 h
  have hslash : slash ∉ name := slash_not_mem (by rw [hs]; simp)
  rcases hadjoins with rfl | rfl | ⟨text, rfl, htext, part, hpart, hstop⟩
  · have hpieces : splitSlash p.bytes = [] ++ [name] := by rw [hp]; exact splitSlash_of_not_mem hslash
    obtain ⟨-, front, silent, hlead, -, -, hout⟩ := withFileName_pieces h hpieces ⟨hname.1, hname.2.1⟩ hshort
    rw [← joinSlash_splitSlash (p.withFileName new).bytes, hout, (List.append_eq_nil_iff.1 hlead.symm).1]
    rfl
  · have hpieces : splitSlash p.bytes = [[]] ++ [name] := by
      rw [hp, ← splitSlash_of_not_mem hslash]
      exact splitSlash_slash [] name
    obtain ⟨-, front, silent, hlead, hfront, -, hout⟩ := withFileName_pieces h hpieces ⟨hname.1, hname.2.1⟩ hshort
    rw [← joinSlash_splitSlash (p.withFileName new).bytes, hout]
    rcases List.append_eq_singleton_iff.1 hlead.symm with ⟨hf, hsilent⟩ | ⟨hf, -⟩
    · rw [hfront hf] at hsilent
      cases hsilent
    · rw [hf]
      rfl
  · rw [List.append_assoc, List.singleton_append] at hp
    obtain ⟨hne, hparent⟩ := parent?_of_stop hp hslash hname htext hpart hstop
    rw [withFileName, hparent, Option.getD_some, join, if_neg hne, if_neg htext, List.append_assoc]
    rfl

/-! ## Silent ends -/

/-- something follows the last component: a slash, or a slash and a dot -/
def EndsSilent (p : Path) : Prop :=
  [slash] <:+ p.bytes ∨ slash :: dot <:+ p.bytes

/-- **Without a silent end** the file name is the last piece -/
theorem LastName.exists_front (h : p.LastName name) (hend : ¬ p.EndsSilent) :
    ∃ front, splitSlash p.bytes = front ++ [name] := by
  obtain ⟨front, rest, hs, hrest, -⟩ := h
  rcases List.eq_nil_or_concat rest with rfl | ⟨more, piece, rfl⟩
  · exact ⟨front, hs⟩
  · rw [List.concat_eq_append] at hs hrest
    have hbytes : p.bytes = joinSlash (front ++ name :: more) ++ slash :: piece := by
      rw [← joinSlash_splitSlash p.bytes, hs, ← List.cons_append, ← List.append_assoc,
        joinSlash_append (by simp) (List.cons_ne_nil _ _)]
      rfl
    rcases hrest piece (by simp) with rfl | rfl
    · exact absurd (Or.inl ⟨_, hbytes.symm⟩) hend
    · exact absurd (Or.inr ⟨_, hbytes.symm⟩) hend

theorem LastName.exists_before (h : p.LastName name) (hend : ¬ p.EndsSilent) : ∃ before, p.bytes = before ++ name := by
  obtain ⟨front, hs⟩ := h.exists_front hend
  rw [← joinSlash_splitSlash p.bytes, hs]
  by_cases hf : front = []
  · exact ⟨[], by rw [hf]; rfl⟩
  · exact ⟨joinSlash front ++ [slash], by rw [joinSlash_append hf (List.cons_ne_nil _ _), ← List.append_cons]; rfl⟩

/-- a suffix after a silent end makes a name below all components -/
theorem components_suffix_of_ends {text piece suffix : Bytes} (hp : p.bytes = text ++ slash :: piece)
    (hpiece : piece = [] ∨ piece = dot) (hsuffix : slash ∉ piece ++ suffix)
    (hne : piece ++ suffix ≠ [] ∧ piece ++ suffix ≠ dot ∧ piece ++ suffix ≠ dotDot) :
    (⟨p.bytes ++ suffix⟩ : Path).components = p.components ++ [.name (piece ++ suffix)] := by
  have hs : splitSlash p.bytes = splitSlash text ++ [piece] := by
    rw [hp, splitSlash_slash]
    rcases hpiece with rfl | rfl <;> rfl
  have hcut : splitSlash (p.bytes ++ suffix) = splitSlash text ++ [piece ++ suffix] := by
    rw [hp, List.append_assoc, List.cons_append, splitSlash_slash, splitSlash_of_not_mem hsuffix]
  rw [components_eq, components_eq p, hs, hcut, componentsOf_name _ (by simp [Silent]) hne,
    componentsOf_silent (splitSlash_ne_nil text) (silent_singleton.2 hpiece) (by simp)
      (silent_singleton.2 (Or.inl rfl)) (by simp)]

/-- a suffix after a file name makes the name longer -/
theorem components_suffix {suffix : Bytes} (h : p.LastName name) (hend : ¬ p.EndsSilent) (hsuffix : slash ∉ suffix)
    (hne : name ++ suffix ≠ [] ∧ name ++ suffix ≠ dot ∧ name ++ suffix ≠ dotDot) :
    (⟨p.bytes ++ suffix⟩ : Path).components = p.components.dropLast ++ [.name (name ++ suffix)] := by
  obtain ⟨front, hs⟩ := h.exists_front hend
  obtain ⟨-, -, -, -, hname⟩ := h
  have hcut : splitSlash (p.bytes ++ suffix) = front ++ [name ++ suffix] := splitSlash_append hs hsuffix
  rw [components_eq, hcut, components_eq p, hs, componentsOf_name front (by simp [Silent]) hne,
    componentsOf_name front (by simp [Silent]) hname, List.dropLast_concat]

end Name

end CbcFile.Path
